import FlakeInputs.Proofs.Grammar.Nesting
import FlakeInputs.Proofs.Token.Spelling

/-!
# Pieces between braces

What stands between a pair of braces is cut into the same pieces if it is read on its own.
The delimiters that are open around it do not matter, because none of them is closed in it.
-/

namespace FlakeInputs

/-- The number of braces that are open behind some tokens, if never more are closed than are
open. -/
def Grammar.bracesAfter : Nat → List TokenKind → Option Nat
  | depth, [] => some depth
  | depth, .braceOpen :: ks => bracesAfter (depth + 1) ks
  | depth, .interpolation :: ks => bracesAfter (depth + 1) ks
  | 0, .braceClose :: _ => none
  | depth + 1, .braceClose :: ks => bracesAfter depth ks
  | depth, _ :: ks => bracesAfter depth ks

namespace Grammar

theorem bracesAfter_plain {kind : TokenKind} (depth : Nat) (ks : List TokenKind)
    (hopen : kind ≠ .braceOpen) (hinterpolation : kind ≠ .interpolation)
    (hclose : kind ≠ .braceClose) :
    bracesAfter depth (kind :: ks) = bracesAfter depth ks := by
  cases kind
  all_goals first | contradiction | simp [bracesAfter]

/-- Tokens with their delimiters in pairs leave as many braces open as there were. -/
theorem Balanced.bracesAfter_append {listed : Bool} {ks : List TokenKind} (h : Balanced listed ks)
    (depth : Nat) (rest : List TokenKind) :
    bracesAfter depth (ks ++ rest) = bracesAfter depth rest := by
  induction h generalizing depth rest with
  | nil => rfl
  | @plain _ kind ks hkind _ _ ih =>
    have hne : ∀ k, isPaired k = true → kind ≠ k := by
      rintro k hk rfl
      rw [hk] at hkind
      exact Bool.noConfusion hkind
    rw [List.cons_append, bracesAfter_plain depth _ (hne _ rfl) (hne _ rfl) (hne _ rfl), ih]
  | group hpair _ _ ih ih' =>
    rw [List.cons_append, List.append_assoc, List.cons_append]
    simp only [delimiterPairs, List.mem_cons, List.not_mem_nil, or_false, Prod.mk.injEq] at hpair
    rcases hpair with ⟨rfl, rfl⟩ | ⟨rfl, rfl⟩ | ⟨rfl, rfl⟩ | ⟨rfl, rfl⟩
    · rw [bracesAfter, ih, bracesAfter, ih']
    · rw [bracesAfter, ih, bracesAfter, ih']
    · rw [bracesAfter_plain depth _ (by decide) (by decide) (by decide), ih,
        bracesAfter_plain depth _ (by decide) (by decide) (by decide), ih']
    · rw [bracesAfter_plain depth _ (by decide) (by decide) (by decide), ih,
        bracesAfter_plain depth _ (by decide) (by decide) (by decide), ih']

end Grammar

namespace Scan

open Grammar (bracesAfter bracesAfter_plain)

/-- The kinds of the tokens among some pieces. -/
def kinds (ps : List Piece) : List TokenKind :=
  (bares ps).map Prod.fst

@[simp]
theorem kinds_nil : kinds [] = [] := rfl

@[simp]
theorem kinds_gap (t : Text) (ps : List Piece) : kinds (.gap t :: ps) = kinds ps := rfl

@[simp]
theorem kinds_token (kind : TokenKind) (t : Text) (ps : List Piece) :
    kinds (.token kind t :: ps) = kind :: kinds ps := rfl

theorem kinds_append (ps qs : List Piece) : kinds (ps ++ qs) = kinds ps ++ kinds qs := by
  rw [kinds, bares_append, List.map_append, kinds, kinds]

theorem map_kind_locate (p : Position) (ps : List Piece) :
    (Token.locate p ps).map Token.kind = kinds ps := by
  rw [kinds, ← Token.map_bare_locate p, List.map_map]
  rfl

/-- The number of braces among some open delimiters. -/
def braces (m : List Mode) : Nat :=
  m.countP fun mode => mode == .interp || mode == .brace

theorem inString_append {s m : List Mode} (hs : s ≠ []) : inString (s ++ m) = inString s := by
  cases s with
  | nil => exact absurd rfl hs
  | cons mode s => cases mode <;> rfl

theorem eq_nil_of_braces {s m : List Mode} (hs : inString (s ++ m) = false) (h : braces s = 0) :
    s = [] := by
  rcases s with _ | ⟨_ | _ | _ | _, s⟩
  · rfl
  · exact Bool.noConfusion hs
  · exact Bool.noConfusion hs
  · simp [braces] at h
  · simp [braces] at h

theorem Piece.modes_append {p : Piece} {s m : List Mode} (hm : inString m = false)
    (hs : s = [] → ∀ x, p ≠ .token .braceClose x) : p.modes (s ++ m) = p.modes s ++ m := by
  cases s with
  | cons mode s =>
    cases p with
    | gap x => rfl
    | token kind x => cases kind <;> cases mode <;> rfl
  | nil =>
    cases p with
    | gap x => rfl
    | token kind x =>
      cases kind
      case quote => exact Piece.modes_quote hm x
      case indentQuote => exact Piece.modes_indentQuote hm x
      case braceClose => exact absurd rfl (hs rfl x)
      all_goals rfl

/-- Where no more braces are closed than are open, a closing brace closes one of them. -/
theorem Piece.bracesAfter_modes {p : Piece} {s : List Mode} {ks : List TokenKind} {depth : Nat}
    (h : bracesAfter (braces s) (kinds [p] ++ ks) = some depth)
    (hp : ∀ x, p = .token .braceClose x → inString s = false) :
    (s = [] → ∀ x, p ≠ .token .braceClose x) ∧
      bracesAfter (braces (p.modes s)) ks = some depth := by
  cases p with
  | gap x => exact ⟨by simp, h⟩
  | token kind x =>
    cases kind
    case braceClose =>
      cases s with
      | nil => simp [bracesAfter, braces] at h
      | cons mode s =>
        refine ⟨by simp, ?_⟩
        have hm := hp x rfl
        cases mode
        case quoted | indented => exact Bool.noConfusion hm
        all_goals
          simp only [braces, List.countP_cons] at h
          exact h
    case braceOpen | interpolation =>
      refine ⟨by simp, ?_⟩
      simp only [Piece.modes, braces, List.countP_cons]
      exact h
    case quote =>
      refine ⟨by simp, ?_⟩
      have hsame : braces ((Piece.token .quote x).modes s) = braces s := by
        rcases s with _ | ⟨_ | _ | _ | _, s⟩ <;> rfl
      rw [hsame]
      exact h
    case indentQuote =>
      refine ⟨by simp, ?_⟩
      have hsame : braces ((Piece.token .indentQuote x).modes s) = braces s := by
        rcases s with _ | ⟨_ | _ | _ | _, s⟩ <;> rfl
      rw [hsame]
      exact h
    all_goals
      refine ⟨by simp, ?_⟩
      have hplain := h
      rw [kinds_token, List.cons_append,
        bracesAfter_plain _ _ (by simp) (by simp) (by simp)] at hplain
      exact hplain

theorem delimiter?_reframe {m n : List Mode} {t : Text} {s : Step} (h : delimiter? m t = some s)
    (hn : inString n = false) :
    delimiter? n t = some { s with modes := modesAfter n s.pieces } := by
  unfold delimiter? at h ⊢
  split at h
  · obtain rfl := Option.some.inj h
    simp [modesAfter, Piece.modes_quote hn]
  · obtain rfl := Option.some.inj h
    simp [modesAfter, Piece.modes_indentQuote hn]
  · obtain rfl := Option.some.inj h
    rfl
  · obtain rfl := Option.some.inj h
    rfl
  · obtain rfl := Option.some.inj h
    rfl
  · simp at h

theorem delimiter?_eq_none {m : List Mode} {t : Text} (h : delimiter? m t = none) (n : List Mode) :
    delimiter? n t = none := by
  unfold delimiter? at h ⊢
  split at h
  case h_6 => rfl
  all_goals simp at h

theorem tokenStep_reframe {m n : List Mode} {c : Char} {t : Text} {s : Step}
    (h : tokenStep m c t = .ok s) (hn : inString n = false) :
    tokenStep n c t = .ok { s with modes := modesAfter n s.pieces } := by
  unfold tokenStep at h ⊢
  split at h
  · next st hd =>
    obtain rfl := Except.ok.inj h
    rw [delimiter?_reframe hd hn]
  · next hd =>
    rw [delimiter?_eq_none hd n]
    split at h
    · simp at h
    · next kind lexeme hword =>
      obtain rfl := Except.ok.inj h
      simp [modesAfter, Piece.modes_of_isWordKind (isWordKind_of_word hword)]

theorem bareStep_reframe {m n : List Mode} {c : Char} {t : Text} {s : Step}
    (h : bareStep m c t = .ok s) (hn : inString n = false) :
    bareStep n c t = .ok { s with modes := modesAfter n s.pieces } := by
  unfold bareStep at h ⊢
  by_cases hgap : isGap c = true
  · rw [if_pos hgap] at h ⊢
    obtain rfl := Except.ok.inj h
    rfl
  rw [if_neg hgap] at h ⊢
  by_cases hhash : c = '#'
  · rw [if_pos hhash] at h ⊢
    obtain rfl := Except.ok.inj h
    rfl
  rw [if_neg hhash] at h ⊢
  split at h
  · split at h
    · obtain rfl := Except.ok.inj h
      rfl
    · simp at h
  · exact tokenStep_reframe h hn

theorem stringStep_reframe {closing : Piece} {mode : Mode} {outer outer' : List Mode}
    {body : Option Literal.Body} {t : Text} {s : Step}
    (h : stringStep closing mode outer body t = .ok s)
    (hclosing : closing.modes (mode :: outer') = outer') :
    stringStep closing mode outer' body t =
      .ok { s with modes := modesAfter (mode :: outer') s.pieces } := by
  unfold stringStep at h ⊢
  split at h
  · simp at h
  · next x rest =>
    obtain rfl := Except.ok.inj h
    have hmodes : modesAfter (mode :: outer') [.token .text x, closing] = outer' := hclosing
    rw [hmodes]
  · obtain rfl := Except.ok.inj h
    rfl

/-- A step depends on the innermost delimiter only. -/
theorem Steps.reframe {m n : List Mode} {t : Text} {s : Step} (h : Steps m t s)
    (hsame : m.head? = n.head? ∨ inString m = false ∧ inString n = false) :
    Steps n t { s with modes := modesAfter n s.pieces } := by
  obtain ⟨c, r, rfl, h⟩ := h
  refine ⟨c, r, rfl, ?_⟩
  unfold step at h
  split at h
  · next outer =>
    obtain ⟨outer', rfl⟩ : ∃ outer', n = .quoted :: outer' := by
      rcases hsame with hsame | ⟨hm, -⟩
      · exact List.head?_eq_some_iff.1 hsame.symm
      · exact Bool.noConfusion hm
    exact stringStep_reframe h rfl
  · next outer =>
    obtain ⟨outer', rfl⟩ : ∃ outer', n = .indented :: outer' := by
      rcases hsame with hsame | ⟨hm, -⟩
      · exact List.head?_eq_some_iff.1 hsame.symm
      · exact Bool.noConfusion hm
    exact stringStep_reframe h rfl
  · next hquoted hindented =>
    have hn : inString n = false := by
      rcases hsame with hsame | ⟨-, hn⟩
      · rcases n with _ | ⟨_ | _ | _ | _, n⟩
        all_goals first | rfl | skip
        · obtain ⟨outer, rfl⟩ := List.head?_eq_some_iff.1 hsame
          exact absurd rfl (hquoted outer)
        · obtain ⟨outer, rfl⟩ := List.head?_eq_some_iff.1 hsame
          exact absurd rfl (hindented outer)
      · exact hn
    have hstep := bareStep_reframe h hn
    rcases n with _ | ⟨_ | _ | _ | _, n⟩
    all_goals first | exact hstep | exact Bool.noConfusion hn

theorem Steps.reframe_append {o m n : List Mode} {t : Text} {s : Step} {ks : List TokenKind}
    {depth : Nat} (h : Steps (o ++ m) t s) (hm : inString m = false) (hn : inString n = false)
    (hdepth : bracesAfter (braces o) (kinds s.pieces ++ ks) = some depth) :
    s.modes = modesAfter o s.pieces ++ m ∧
      bracesAfter (braces (modesAfter o s.pieces)) ks = some depth ∧
      Steps (o ++ n) t { s with modes := modesAfter o s.pieces ++ n } := by
  have hsame : (o ++ m).head? = (o ++ n).head? ∨
      inString (o ++ m) = false ∧ inString (o ++ n) = false := by
    cases o with
    | nil => exact .inr ⟨hm, hn⟩
    | cons mode o => exact .inl rfl
  have hstep := h.reframe hsame
  cases hstring : inString (o ++ m) with
  | false =>
    obtain ⟨p, hp, -, hmodes⟩ := h.bare hstring
    have ho : inString o = false := by
      cases o with
      | nil => rfl
      | cons mode o => rwa [inString_append (by simp)] at hstring
    rw [hp] at hdepth hstep ⊢
    obtain ⟨hclose, hdepth'⟩ := Piece.bracesAfter_modes hdepth fun _ _ => ho
    refine ⟨hmodes.trans (Piece.modes_append hm hclose), hdepth', ?_⟩
    have hmodes' : modesAfter (o ++ n) [p] = modesAfter o [p] ++ n :=
      Piece.modes_append hn hclose
    rwa [hmodes'] at hstep
  | true =>
    obtain ⟨x, kind, hp, hkind, hmodes⟩ := h.string hstring
    have hclose : ∀ y, Piece.token kind kind.name.toList ≠ .token .braceClose y := by
      rintro y heq
      obtain ⟨rfl, -⟩ := Piece.token.inj heq
      exact absurd hkind (by decide)
    rw [hp] at hdepth hstep ⊢
    have hdepth' : bracesAfter (braces o) (kinds [.token kind kind.name.toList] ++ ks) =
        some depth := (Piece.bracesAfter_modes (p := .token .text x) hdepth (by simp)).2
    refine ⟨hmodes.trans (Piece.modes_append hm fun _ => hclose), ?_, ?_⟩
    · exact (Piece.bracesAfter_modes hdepth' fun y hy => absurd hy (hclose y)).2
    · have hmodes' : modesAfter (o ++ n) [.token .text x, .token kind kind.name.toList] =
          modesAfter o [.token .text x, .token kind kind.name.toList] ++ n :=
        Piece.modes_append hn fun _ => hclose
      rwa [hmodes'] at hstep

/-- A run through pieces that close no more braces than they open is the same whatever is
open around them. -/
theorem Run.reframe {r : Text} {o m n x m' : List Mode} {u : Text} {ps : List Piece} {depth : Nat}
    (h : Run r x u ps m') (hx : x = o ++ m) (hm : inString m = false) (hn : inString n = false)
    (hdepth : bracesAfter (braces o) (kinds ps) = some depth) :
    m' = modesAfter o ps ++ m ∧ braces (modesAfter o ps) = depth ∧
      Run r (o ++ n) u ps (modesAfter o ps ++ n) := by
  induction h generalizing o with
  | nil => exact ⟨hx, Option.some.inj hdepth, .nil⟩
  | @step x m' s u ps hstep hrest hrun ih =>
    subst hx
    rw [kinds_append] at hdepth
    obtain ⟨hmodes, hdepth', hstep'⟩ := hstep.reframe_append hm hn hdepth
    obtain ⟨hm', hbraces, hrun'⟩ := ih hmodes hdepth'
    have hafter : modesAfter o (s.pieces ++ ps) = modesAfter (modesAfter o s.pieces) ps := by
      rw [modesAfter, modesAfter, modesAfter, List.foldl_append]
    rw [hafter]
    exact ⟨hm', hbraces, .step (s := { s with modes := modesAfter o s.pieces ++ n }) hstep' hrest
      hrun'⟩

/-- A closing brace is a word of its own, whatever follows it. -/
theorem Run.swap_braceClose {r : Text} {m m' : List Mode} {u : Text} {ps : List Piece}
    (h : Run r m u (ps ++ [Piece.token .braceClose ['}']]) m') (r' : Text) :
    Run r' m u (ps ++ [Piece.token .braceClose ['}']]) m' := by
  have hlast :
      (ps ++ [Piece.token .braceClose ['}']]).getLast? = some (.token .braceClose ['}']) := by
    simp
  refine h.swap ?_ ?_
  · intro p hp
    rw [hlast, Option.mem_some] at hp
    subst hp
    trivial
  · intro v hv hword
    have hu := h.text
    rw [List.flatMap_append] at hu
    rw [← hu] at hv
    obtain ⟨a, rfl⟩ := exists_concat_of_suffix hv hword.ne_nil
    exact sealed_of_hard (by decide)

/-- The text from a token on, if the token does not end string text. -/
theorem exists_run_before {t x : Text} {ps qs : List Piece} {kind : TokenKind}
    (h : pieces [] t = .ok (ps ++ Piece.token kind x :: qs))
    (hkind : kind ∉ [.text, .quote, .indentQuote, .interpolation]) :
    ∃ m, inString m = false ∧ Run (x ++ textOf qs) [] (textOf ps) ps m ∧
      pieces m (x ++ textOf qs) = .ok (.token kind x :: qs) := by
  simp only [List.mem_cons, List.not_mem_nil, or_false, not_or] at hkind
  obtain ⟨u, r, m, -, hrun, hrest⟩ := exists_run h fun y hy => by
    obtain ⟨ps', rfl⟩ := List.getLast?_eq_some_iff.1 hy
    rw [List.append_assoc] at h
    obtain ⟨kind', rest, heq, hclose, -⟩ := exists_closer h
    obtain ⟨heq, -⟩ := List.cons.inj heq
    obtain ⟨rfl, -⟩ := Piece.token.inj heq
    simp only [List.mem_cons, List.not_mem_nil, or_false] at hclose
    rcases hclose with rfl | rfl | rfl
    · exact hkind.2.1 rfl
    · exact hkind.2.2.1 rfl
    · exact hkind.2.2.2 rfl
  have hr := textOf_pieces hrest
  rw [textOf_cons] at hr
  have hu := hrun.text
  subst hr hu
  refine ⟨m, inString_of_pieces hrest ?_, hrun, hrest⟩
  intro y hy
  obtain ⟨heq, -⟩ := Piece.token.inj (Option.some.inj hy)
  exact hkind.1 heq

/-- What stands between a pair of braces is cut into the same pieces if it is read on its
own. -/
theorem pieces_braces {t : Text} {ps qs rs : List Piece}
    (h : pieces [] t = .ok (ps ++ Piece.token .braceOpen ['{'] ::
      (qs ++ Piece.token .braceClose ['}'] :: rs)))
    (hqs : Grammar.Balanced true (kinds qs)) (hrs : ∀ x, rs.head? ≠ some (.token .text x)) :
    pieces [] (textOf (.token .braceOpen ['{'] :: (qs ++ [Piece.token .braceClose ['}']]))) =
      .ok (.token .braceOpen ['{'] :: (qs ++ [Piece.token .braceClose ['}']])) := by
  obtain ⟨m, hm, -, hbehind⟩ := exists_run_before h (by decide)
  generalize hV : Piece.token .braceOpen ['{'] :: qs = V
  have hdepth : bracesAfter (braces []) (kinds (V ++ [Piece.token .braceClose ['}']])) =
      some 0 := by
    rw [← hV, kinds_append, kinds_token, List.cons_append, bracesAfter, hqs.bracesAfter_append]
    rfl
  have hsplit : Piece.token .braceOpen ['{'] :: (qs ++ Piece.token .braceClose ['}'] :: rs) =
      (V ++ [Piece.token .braceClose ['}']]) ++ rs := by
    rw [← hV]
    simp
  rw [hsplit] at hbehind
  obtain ⟨u, r, m', -, hrun, hrest⟩ := exists_run hbehind (by simp)
  obtain ⟨hm', hbraces, hrun'⟩ := hrun.reframe (n := []) (o := []) rfl hm rfl hdepth
  have hbare := inString_of_pieces hrest hrs
  rw [hm'] at hbare
  have hnil := eq_nil_of_braces hbare hbraces
  rw [hnil] at hrun'
  have hend : pieces [] [] = .ok [] := by
    rw [pieces]
    rfl
  have hpieces := (hrun'.swap_braceClose []).pieces hend
  have hu : textOf (V ++ [Piece.token .braceClose ['}']]) = u := hrun.text
  simp only [List.append_nil] at hpieces
  rw [← List.cons_append, hV, hu, hpieces]

end Scan
end FlakeInputs
