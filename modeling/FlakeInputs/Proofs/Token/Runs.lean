import FlakeInputs.Proofs.Token.Seams

/-!
# Runs of the scanner

A run is a sequence of steps through the beginning of a text, with the rest of the text
in view.  A text can be cut into runs at the ends of its pieces, and runs go together to
the pieces of a text.
-/

namespace FlakeInputs
namespace Scan

/-- The scanner goes through `u` with `r` left, from the modes `m` to the modes at the end,
and takes the given pieces. -/
inductive Run (r : Text) : List Mode → Text → List Piece → List Mode → Prop
  | nil {m : List Mode} : Run r m [] [] m
  | step {m m' : List Mode} {s : Step} {u : Text} {ps : List Piece}
      (hstep : Steps m (s.text ++ (u ++ r)) s) (hrest : s.rest = u ++ r)
      (hrun : Run r s.modes u ps m') : Run r m (s.text ++ u) (s.pieces ++ ps) m'

namespace Run

variable {r : Text} {m m' : List Mode} {u : Text} {ps : List Piece}

theorem text (h : Run r m u ps m') : ps.flatMap Piece.text = u := by
  induction h with
  | nil => rfl
  | step _ _ _ ih => rw [List.flatMap_append, ih, Step.text]

theorem append {v : Text} {qs : List Piece} {m'' : List Mode} (h : Run (v ++ r) m u ps m')
    (h' : Run r m' v qs m'') : Run r m (u ++ v) (ps ++ qs) m'' := by
  induction h with
  | nil => exact h'
  | step hstep hrest _ ih =>
    rw [List.append_assoc, List.append_assoc]
    refine .step ?_ ?_ (ih h')
    · rwa [List.append_assoc]
    · rwa [List.append_assoc]

/-- A single step is a run. -/
theorem single {s : Step} (hstep : Steps m (s.text ++ r) s) (hrest : s.rest = r) :
    Run r m s.text s.pieces s.modes := by
  have hrun : Run r m (s.text ++ []) (s.pieces ++ []) s.modes := .step hstep hrest .nil
  rwa [List.append_nil, List.append_nil] at hrun

theorem eq_nil_of_text_nil (h : Run r m [] ps m') : ps = [] ∧ m' = m := by
  generalize hu : ([] : Text) = u at h
  cases h with
  | nil => exact ⟨rfl, rfl⟩
  | step hstep _ _ =>
    exact absurd (List.append_eq_nil_iff.1 hu.symm).1 hstep.text_ne_nil

end Run

/-! ## Pieces and runs -/

theorem pieces_of_steps {m : List Mode} {t : Text} {s : Step} {ps : List Piece}
    (hstep : Steps m t s) (hps : pieces s.modes s.rest = .ok ps) :
    pieces m t = .ok (s.pieces ++ ps) := by
  obtain ⟨c, r, rfl, hstep⟩ := hstep
  rw [pieces]
  split
  · next fault hfault => exact absurd (hfault.symm.trans hstep) (by simp)
  · next s' hs' =>
    obtain rfl := Except.ok.inj (hs'.symm.trans hstep)
    rw [hps]

theorem pieces_eq_ok {m : List Mode} {t : Text} {ps : List Piece} (h : pieces m t = .ok ps) :
    t = [] ∧ ps = [] ∧ inString m = false ∨
      ∃ s qs, Steps m t s ∧ pieces s.modes s.rest = .ok qs ∧ ps = s.pieces ++ qs := by
  cases t with
  | nil =>
    rw [pieces] at h
    split at h
    · simp at h
    · next hm => exact .inl ⟨rfl, (Except.ok.inj h).symm, by simpa using hm⟩
  | cons c r =>
    rw [pieces] at h
    split at h
    · simp at h
    · next s hs =>
      split at h
      · simp at h
      · next qs hqs => exact .inr ⟨s, qs, ⟨c, r, rfl, hs⟩, hqs, (Except.ok.inj h).symm⟩

/-- The pieces of a run come before those of the rest. -/
theorem Run.pieces {r : Text} {m m' : List Mode} {u : Text} {ps qs : List Piece}
    (h : Run r m u ps m') (hqs : Scan.pieces m' r = .ok qs) :
    Scan.pieces m (u ++ r) = .ok (ps ++ qs) := by
  induction h with
  | nil => exact hqs
  | step hstep hrest _ ih =>
    rw [List.append_assoc, List.append_assoc]
    refine pieces_of_steps hstep ?_
    rw [hrest]
    exact ih hqs

/-! ## Pieces and modes -/

/-- The modes behind a piece. -/
def Piece.modes : Piece → List Mode → List Mode
  | .token .quote _, .quoted :: m => m
  | .token .quote _, m => .quoted :: m
  | .token .indentQuote _, .indented :: m => m
  | .token .indentQuote _, m => .indented :: m
  | .token .interpolation _, m => .interp :: m
  | .token .braceOpen _, m => .brace :: m
  | .token .braceClose _, m => m.tail
  | _, m => m

/-- Kinds of tokens that are neither string text nor change the modes. -/
def isWordKind (kind : TokenKind) : Bool :=
  kind ∉ [.text, .quote, .indentQuote, .interpolation, .braceOpen, .braceClose]

theorem isWordKind_of_word {c : Char} {t lexeme : Text} {kind : TokenKind}
    (h : word c t = .ok (kind, lexeme)) : isWordKind kind = true := by
  unfold word at h
  split at h
  · next k l hl =>
    split at h
    · simp at h
    · obtain ⟨rfl, rfl⟩ := Prod.mk.inj (Except.ok.inj h)
      obtain ⟨entry, hentry, rfl, -⟩ := Word.exists_class_of_longest? hl
      have hclasses : entry.1 ∈ Word.classes.map Prod.fst := List.mem_map_of_mem hentry
      have hall : ∀ kind ∈ Word.classes.map Prod.fst, isWordKind kind = true := by decide
      unfold wordKind
      split
      · rfl
      · exact hall _ hclasses
  · split at h
    · next found hp =>
      obtain rfl := Except.ok.inj h
      obtain ⟨⟨symbol, k⟩, hmem, heq⟩ := List.exists_of_findSome?_eq_some hp
      have hall : ∀ entry ∈ punctuation, isWordKind entry.2 = true := by decide
      dsimp only at heq
      split at heq
      · obtain ⟨rfl, -⟩ := Prod.mk.inj (Option.some.inj heq)
        exact hall _ hmem
      · simp at heq
    · simp at h

theorem Piece.modes_of_isWordKind {kind : TokenKind} (h : isWordKind kind = true) (t : Text)
    (m : List Mode) : (Piece.token kind t).modes m = m := by
  cases kind
  all_goals first | rfl | exact absurd h (by decide)

theorem Piece.modes_quote {m : List Mode} (hm : inString m = false) (t : Text) :
    (Piece.token .quote t).modes m = .quoted :: m := by
  rcases m with _ | ⟨_ | _ | _ | _, m⟩
  all_goals first | rfl | exact Bool.noConfusion hm

theorem Piece.modes_indentQuote {m : List Mode} (hm : inString m = false) (t : Text) :
    (Piece.token .indentQuote t).modes m = .indented :: m := by
  rcases m with _ | ⟨_ | _ | _ | _, m⟩
  all_goals first | rfl | exact Bool.noConfusion hm

/-- The kinds of tokens that open or close a mode. -/
def delimiterKinds : List TokenKind :=
  [.quote, .indentQuote, .interpolation, .braceOpen, .braceClose]

theorem delimiter?_cases {m : List Mode} {t : Text} {s : Step} (h : delimiter? m t = some s)
    (hm : inString m = false) :
    ∃ kind ∈ delimiterKinds, s.pieces = [.token kind kind.name.toList] ∧
      s.modes = (Piece.token kind kind.name.toList).modes m := by
  unfold delimiter? at h
  split at h
  · obtain rfl := Option.some.inj h
    exact ⟨.quote, by decide, rfl, (Piece.modes_quote hm _).symm⟩
  · obtain rfl := Option.some.inj h
    exact ⟨.indentQuote, by decide, rfl, (Piece.modes_indentQuote hm _).symm⟩
  · obtain rfl := Option.some.inj h
    exact ⟨.interpolation, by decide, rfl, rfl⟩
  · obtain rfl := Option.some.inj h
    exact ⟨.braceOpen, by decide, rfl, rfl⟩
  · obtain rfl := Option.some.inj h
    exact ⟨.braceClose, by decide, rfl, rfl⟩
  · simp at h

/-- What one step outside of string literals can be: a blank, a comment of either kind, a
delimiter or a word. -/
theorem Steps.bare_cases {m : List Mode} {t : Text} {s : Step} (h : Steps m t s)
    (hm : inString m = false) :
    (∃ c x, isGap c = true ∧ t = c :: x ∧ s = ⟨[.gap [c]], m, x⟩) ∨
    (∃ x, t = '#' :: x ∧
      s = ⟨[.gap ('#' :: x.takeWhile (· != '\n'))], m, x.dropWhile (· != '\n')⟩) ∨
    (∃ x body rest, Literal.comment? x = some (body, rest) ∧ t = '/' :: '*' :: x ∧
      s = ⟨[.gap ('/' :: '*' :: body)], m, rest⟩) ∨
    delimiter? m t = some s ∨
    (∃ c x kind lexeme, t = c :: x ∧ word c x = .ok (kind, lexeme) ∧
      s = ⟨[.token kind lexeme], m, (c :: x).drop lexeme.length⟩) := by
  obtain ⟨c, r, rfl, h⟩ := h
  have hbare : bareStep m c r = .ok s := by
    rcases m with _ | ⟨_ | _ | _ | _, m⟩
    all_goals first | exact h | exact Bool.noConfusion hm
  unfold bareStep at hbare
  split at hbare
  · next hgap => exact .inl ⟨c, r, hgap, rfl, (Except.ok.inj hbare).symm⟩
  split at hbare
  · next hhash =>
    subst hhash
    exact .inr (.inl ⟨r, rfl, (Except.ok.inj hbare).symm⟩)
  split at hbare
  · split at hbare
    · next body rest hcomment =>
      exact .inr (.inr (.inl ⟨_, body, rest, hcomment, rfl, (Except.ok.inj hbare).symm⟩))
    · simp at hbare
  · unfold tokenStep at hbare
    split at hbare
    · next st hd =>
      obtain rfl := Except.ok.inj hbare
      exact .inr (.inr (.inr (.inl hd)))
    · split at hbare
      · simp at hbare
      · next kind lexeme hword =>
        exact .inr (.inr (.inr (.inr ⟨c, r, kind, lexeme, rfl, hword, (Except.ok.inj hbare).symm⟩)))

/-- One step outside of string literals takes one piece. -/
theorem Steps.bare {m : List Mode} {t : Text} {s : Step} (h : Steps m t s)
    (hm : inString m = false) :
    ∃ p, s.pieces = [p] ∧ (∀ x, p ≠ .token .text x) ∧ s.modes = p.modes m := by
  rcases h.bare_cases hm with ⟨c, x, -, -, rfl⟩ | ⟨x, -, rfl⟩ | ⟨x, body, rest, -, -, rfl⟩ | hd |
    ⟨c, x, kind, lexeme, -, hword, rfl⟩
  · exact ⟨_, rfl, by simp, rfl⟩
  · exact ⟨_, rfl, by simp, rfl⟩
  · exact ⟨_, rfl, by simp, rfl⟩
  · obtain ⟨kind, hkind, hpieces, hmodes⟩ := delimiter?_cases hd hm
    refine ⟨_, hpieces, ?_, hmodes⟩
    rintro x heq
    cases heq
    exact absurd hkind (by decide)
  · have hkind := isWordKind_of_word hword
    refine ⟨_, rfl, ?_, (Piece.modes_of_isWordKind hkind _ _).symm⟩
    rintro x heq
    cases heq
    exact absurd hkind (by decide)

/-- One step in a string literal takes its text and what ends it. -/
theorem Steps.string {m : List Mode} {t : Text} {s : Step} (h : Steps m t s)
    (hm : inString m = true) :
    ∃ x kind, s.pieces = [.token .text x, .token kind kind.name.toList] ∧
      kind ∈ [.quote, .indentQuote, .interpolation] ∧
      s.modes = (Piece.token kind kind.name.toList).modes m := by
  obtain ⟨c, r, rfl, h⟩ := h
  unfold step at h
  split at h
  · unfold stringStep at h
    split at h
    · simp at h
    · obtain rfl := Except.ok.inj h
      exact ⟨_, .quote, rfl, by simp, rfl⟩
    · obtain rfl := Except.ok.inj h
      exact ⟨_, .interpolation, rfl, by simp, rfl⟩
  · unfold stringStep at h
    split at h
    · simp at h
    · obtain rfl := Except.ok.inj h
      exact ⟨_, .indentQuote, rfl, by simp, rfl⟩
    · obtain rfl := Except.ok.inj h
      exact ⟨_, .interpolation, rfl, by simp, rfl⟩
  · next hquoted hindented =>
    rcases m with _ | ⟨_ | _ | _ | _, m⟩
    all_goals
      first
      | exact Bool.noConfusion hm
      | exact absurd rfl (hquoted _)
      | exact absurd rfl (hindented _)

/-- The modes behind some pieces. -/
def modesAfter (m : List Mode) (ps : List Piece) : List Mode :=
  ps.foldl (fun m p => p.modes m) m

theorem Steps.modes_eq {m : List Mode} {t : Text} {s : Step} (h : Steps m t s) :
    s.modes = modesAfter m s.pieces := by
  cases hm : inString m with
  | false =>
    obtain ⟨p, hp, -, hmodes⟩ := h.bare hm
    rw [hmodes, hp]
    rfl
  | true =>
    obtain ⟨x, kind, hp, -, hmodes⟩ := h.string hm
    rw [hmodes, hp]
    rfl

theorem Run.modes_eq {r : Text} {m m' : List Mode} {u : Text} {ps : List Piece}
    (h : Run r m u ps m') : m' = modesAfter m ps := by
  induction h with
  | nil => rfl
  | step hstep _ _ ih =>
    rw [ih, hstep.modes_eq, modesAfter, modesAfter, modesAfter, List.foldl_append]

/-- The kinds of tokens behind which a string may be open. -/
def stringKinds : List TokenKind :=
  [.quote, .indentQuote, .braceClose]

/-- Behind a piece that neither ends a string literal nor could stand in one, no string is
open. -/
theorem Run.inString_eq_false {r : Text} {m m' : List Mode} {u : Text} {ps : List Piece}
    (h : Run r m u ps m') {p : Piece} (hlast : ps.getLast? = some p)
    (hp : ∀ kind ∈ stringKinds, ∀ x, p ≠ .token kind x) : inString m' = false := by
  induction h with
  | nil => simp at hlast
  | @step m m' s u ps hstep hrest hrun ih =>
    rw [List.getLast?_append] at hlast
    cases hps : ps.getLast? with
    | some p =>
      rw [hps] at hlast
      exact ih (hps.trans hlast)
    | none =>
      obtain rfl := List.getLast?_eq_none_iff.1 hps
      have hmodes : m' = s.modes := hrun.modes_eq
      rw [hmodes]
      rw [hps, Option.none_or] at hlast
      cases hm : inString m with
      | false =>
        obtain ⟨p', hpieces, -, hnext⟩ := hstep.bare hm
        rw [hpieces, List.getLast?_singleton, Option.some.injEq] at hlast
        rw [hnext, hlast]
        cases p with
        | gap x => exact hm
        | token kind x =>
          cases kind
          all_goals first | exact hm | rfl | exact absurd rfl (hp _ (by decide) _)
      | true =>
        obtain ⟨x, kind, hpieces, hkind, hnext⟩ := hstep.string hm
        rw [hpieces] at hlast
        obtain rfl := Option.some.inj hlast
        rw [hnext]
        simp only [List.mem_cons, List.not_mem_nil, or_false] at hkind
        rcases hkind with rfl | rfl | rfl
        · exact absurd rfl (hp _ (by decide) _)
        · exact absurd rfl (hp _ (by decide) _)
        · rfl

/-- Pieces that do not end in string text are taken by a run. -/
theorem exists_run {m : List Mode} {t : Text} {ps qs : List Piece}
    (h : pieces m t = .ok (ps ++ qs)) (hlast : ∀ x, ps.getLast? ≠ some (.token .text x)) :
    ∃ u r m', t = u ++ r ∧ Run r m u ps m' ∧ pieces m' r = .ok qs := by
  induction hn : ps.length using Nat.strongRecOn generalizing m t ps with
  | _ n ih =>
    subst hn
    cases ps with
    | nil => exact ⟨[], t, m, rfl, .nil, h⟩
    | cons p ps =>
      rcases pieces_eq_ok h with ⟨-, hnil, -⟩ | ⟨s, rest, hstep, hpieces, heq⟩
      · exact absurd hnil (by simp)
      -- A step takes string text only together with what ends it.
      obtain ⟨ps', hps, hrest⟩ : ∃ ps', p :: ps = s.pieces ++ ps' ∧ rest = ps' ++ qs := by
        cases hm : inString m with
        | false =>
          obtain ⟨p', hp, -⟩ := hstep.bare hm
          rw [hp, List.cons_append, List.singleton_append, List.cons.injEq] at heq
          exact ⟨ps, by rw [hp, ← heq.1]; rfl, heq.2.symm⟩
        | true =>
          obtain ⟨x, kind, hp, -⟩ := hstep.string hm
          rw [hp, List.cons_append, List.cons_append, List.cons.injEq] at heq
          obtain ⟨rfl, heq⟩ := heq
          cases ps with
          | nil => exact absurd rfl (hlast x)
          | cons q ps =>
            obtain ⟨rfl, hrest⟩ := List.cons.inj heq
            exact ⟨ps, by rw [hp]; rfl, hrest.symm⟩
      have hne : s.pieces ≠ [] := by
        intro hnil
        have htext := hstep.text_ne_nil
        rw [Step.text, hnil] at htext
        exact htext rfl
      have hlength : ps'.length < (p :: ps).length := by
        have := List.length_pos_iff.2 hne
        rw [hps, List.length_append]
        omega
      rw [hrest] at hpieces
      obtain ⟨u, r, m', htext, hrun, hqs⟩ := ih _ hlength hpieces (by
        intro x hx
        refine hlast x ?_
        rw [hps, List.getLast?_append, hx]
        rfl) rfl
      have ht := hstep.text
      rw [htext] at ht
      refine ⟨s.text ++ u, r, m', by rw [ht, List.append_assoc], ?_, hqs⟩
      rw [hps]
      refine .step ?_ htext hrun
      rwa [ht] at hstep

/-- Where the next piece is no string text, no string is open. -/
theorem inString_of_pieces {m : List Mode} {t : Text} {ps : List Piece}
    (h : pieces m t = .ok ps) (hfirst : ∀ x, ps.head? ≠ some (.token .text x)) :
    inString m = false := by
  rcases pieces_eq_ok h with ⟨-, -, hm⟩ | ⟨s, qs, hstep, -, rfl⟩
  · exact hm
  cases hm : inString m with
  | false => rfl
  | true =>
    obtain ⟨x, kind, hp, -⟩ := hstep.string hm
    rw [hp] at hfirst
    exact absurd rfl (hfirst x)

/-! ## Exchanging what follows a run -/

/-- A run through `u`, which ends with `v`, in front of `r` reads a word or a symbol where `v`
begins: no word goes on over the seam, and a url goes up to it only if it is the last piece. -/
structure ReadsWord (ps : List Piece) (v r : Text) : Prop where
  word : ∃ c t found, v = c :: t ∧ Scan.word c (t ++ r) = .ok found
  record_le : Word.record (Word.longest? (v ++ r)) ≤ v.length
  last_eq : Word.longest? (v ++ r) = some (.uri, v) → ps.getLast? = some (.token .uri v)

theorem ReadsWord.ne_nil {ps : List Piece} {v r : Text} (h : ReadsWord ps v r) : v ≠ [] := by
  obtain ⟨c, t, -, rfl, -⟩ := h.word
  exact List.cons_ne_nil c t

/-- A url is read only if it is the last piece. -/
theorem ReadsWord.longest_ne {ps : List Piece} {v r : Text} (h : ReadsWord ps v r)
    (huri : ∀ x, ps.getLast? ≠ some (.token .uri x)) :
    Word.longest? (v ++ r) ≠ some (.uri, v) :=
  fun hlongest => huri v (h.last_eq hlongest)

/-- A run is the same in front of any other text, if its last piece can end there and
nothing goes on over the seam. -/
theorem Run.swap {r r' : Text} {m m' : List Mode} {u : Text} {ps : List Piece}
    (h : Run r m u ps m') (hend : ∀ p ∈ ps.getLast?, p.EndsBefore r')
    (hseal : ∀ v, v <:+ u → ReadsWord ps v r → Sealed v r') :
    Run r' m u ps m' := by
  induction h with
  | nil => exact .nil
  | @step m m' s u ps hstep hrest hrun ih =>
    have hlast : ∀ p ∈ ps.getLast?, (s.pieces ++ ps).getLast? = some p := by
      intro p hp
      rw [List.getLast?_append, hp]
      rfl
    have hrun' : Run r' s.modes u ps m' := by
      refine ih (fun p hp => hend p (hlast p hp)) fun v hv hword => ?_
      exact hseal v (hv.trans (List.suffix_append _ _))
        { hword with last_eq := fun h => hlast _ (hword.last_eq h) }
    have hnil : u = [] → ps = [] := by
      rintro rfl
      exact hrun.eq_nil_of_text_nil.1
    have hstep' : Steps m (s.text ++ u ++ r') { s with rest := u ++ r' } := by
      rw [← List.append_assoc] at hstep
      refine hstep.swap hrest ?_ ?_
      · intro hu p hp
        refine hend p ?_
        rw [hnil hu, List.append_nil]
        exact hp
      · rintro ⟨-, hword, hrecord, hpieces⟩
        refine hseal _ List.suffix_rfl ⟨hword, hrecord, fun hlongest => ?_⟩
        have hp := hpieces hlongest
        have hu : u = [] := by
          have htext : s.text = s.text ++ u := by
            conv => lhs; rw [Step.text, hp]
            simp
          simpa using htext
        rw [hnil hu, List.append_nil, hp]
        rfl
    rw [List.append_assoc] at hstep'
    exact .step (s := { s with rest := u ++ r' }) hstep' rfl hrun'

/-- A run through gaps is the same in front of any other text, if its last piece can end
there. -/
theorem Run.swap_gaps {r r' : Text} {m m' : List Mode} {u : Text} {ps : List Piece}
    (h : Run r m u ps m') (hgaps : ∀ p ∈ ps, ∃ t, p = .gap t)
    (hend : ∀ p ∈ ps.getLast?, p.EndsBefore r') : Run r' m u ps m' := by
  induction h with
  | nil => exact .nil
  | @step m m' s u ps hstep hrest hrun ih =>
    have hrun' : Run r' s.modes u ps m' := by
      refine ih (fun p hp => hgaps p (List.mem_append_right _ hp)) fun p hp => hend p ?_
      rw [List.getLast?_append, hp]
      rfl
    have hstep' : Steps m (s.text ++ u ++ r') { s with rest := u ++ r' } := by
      rw [← List.append_assoc] at hstep
      refine hstep.swap hrest ?_ ?_
      · rintro rfl p hp
        refine hend p ?_
        rw [hrun.eq_nil_of_text_nil.1, List.append_nil]
        exact hp
      · rintro ⟨⟨kind, lexeme, hpieces⟩, -, -, -⟩
        obtain ⟨t, ht⟩ := hgaps (.token kind lexeme) (by simp [hpieces])
        exact absurd ht (by simp)
    rw [List.append_assoc] at hstep'
    exact .step (s := { s with rest := u ++ r' }) hstep' rfl hrun'

theorem modesAfter_gaps {ps : List Piece} (hgaps : ∀ p ∈ ps, ∃ t, p = .gap t) (m : List Mode) :
    modesAfter m ps = m := by
  induction ps with
  | nil => rfl
  | cons p ps ih =>
    obtain ⟨t, rfl⟩ := hgaps p List.mem_cons_self
    exact ih fun q hq => hgaps q (List.mem_cons_of_mem _ hq)

/-- A run determines the first pieces of a text. -/
theorem Run.pieces_eq_ok {r : Text} {m m' : List Mode} {u : Text} {ps qs : List Piece}
    (h : Run r m u ps m') (hqs : Scan.pieces m (u ++ r) = .ok qs) :
    ∃ rest, qs = ps ++ rest ∧ Scan.pieces m' r = .ok rest := by
  induction h generalizing qs with
  | nil => exact ⟨qs, rfl, hqs⟩
  | @step m m' s u ps hstep hrest hrun ih =>
    rw [List.append_assoc] at hqs
    rcases Scan.pieces_eq_ok hqs with ⟨hnil, -, -⟩ | ⟨s', rest, hstep', hrest', rfl⟩
    · exact absurd (List.append_eq_nil_iff.1 hnil).1 hstep.text_ne_nil
    obtain ⟨c, t, ht, hs⟩ := hstep
    obtain ⟨c', t', ht', hs'⟩ := hstep'
    obtain ⟨rfl, rfl⟩ := List.cons.inj (ht.symm.trans ht')
    obtain rfl := Except.ok.inj (hs.symm.trans hs')
    rw [hrest] at hrest'
    obtain ⟨rest', rfl, hpieces⟩ := ih hrest'
    exact ⟨rest', by rw [List.append_assoc], hpieces⟩

end Scan
end FlakeInputs
