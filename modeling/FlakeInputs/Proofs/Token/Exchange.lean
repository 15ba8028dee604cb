import FlakeInputs.Proofs.Token.Located

/-!
# Exchanging pieces

Pieces behind a barrier can be exchanged for others that fit there, and a parameter can be
put behind another one.  The rest of the text is read as before.
-/

namespace FlakeInputs
namespace Scan

/-- Pieces that leave the open delimiters as they are where no string is open. -/
def Neutral (ps : List Piece) : Prop :=
  ∀ m, inString m = false → modesAfter m ps = m

theorem neutral_gaps {ps : List Piece} (h : IsGaps ps) : Neutral ps :=
  fun m _ => modesAfter_gaps h m

theorem neutral_quoted (x : Text) : Neutral (quotedPieces x) := by
  intro m hm
  simp only [modesAfter, quotedPieces, List.foldl_cons, List.foldl_nil, Piece.modes_quote hm]
  rfl

theorem neutral_indented (x : Text) : Neutral (indentedPieces x) := by
  intro m hm
  simp only [modesAfter, indentedPieces, List.foldl_cons, List.foldl_nil,
    Piece.modes_indentQuote hm]
  rfl

theorem neutral_uri (x : Text) : Neutral [.token .uri x] :=
  fun _ _ => rfl

/-! ## Where gaps end -/

theorem Steps.gap_endsBefore {m : List Mode} {t g : Text} {s : Step} (h : Steps m t s)
    (hg : s.pieces.getLast? = some (.gap g)) : (Piece.gap g).EndsBefore s.rest := by
  have hm : inString m = false := by
    cases hm : inString m with
    | false => rfl
    | true =>
      obtain ⟨x, kind, hp, -⟩ := h.string hm
      rw [hp] at hg
      simp at hg
  rcases h.bare_cases hm with ⟨c, x, hgap, -, rfl⟩ | ⟨x, -, rfl⟩ | ⟨x, body, rest, -, -, rfl⟩ | hd |
    ⟨c, x, kind, lexeme, -, -, rfl⟩
  · obtain rfl := Piece.gap.inj (Option.some.inj hg)
    unfold Piece.EndsBefore
    split
    · next heq =>
      obtain ⟨rfl, -⟩ := List.cons.inj (Piece.gap.inj heq)
      exact absurd hgap (by decide)
    · next heq => exact absurd heq (by simp)
    · trivial
  · obtain rfl := Piece.gap.inj (Option.some.inj hg)
    change x.dropWhile (· != '\n') = [] ∨ (x.dropWhile (· != '\n')).head? = some '\n'
    cases hdrop : x.dropWhile (· != '\n') with
    | nil => exact .inl rfl
    | cons d z =>
      have hd := List.head?_dropWhile_not (· != '\n') x
      rw [hdrop] at hd
      simp at hd
      exact .inr (by rw [List.head?_cons, hd])
  · obtain rfl := Piece.gap.inj (Option.some.inj hg)
    trivial
  · obtain ⟨kind, -, hpieces, -⟩ := delimiter?_cases hd hm
    rw [hpieces] at hg
    simp at hg
  · simp at hg

theorem Run.gap_endsBefore {r : Text} {m m' : List Mode} {u g : Text} {ps : List Piece}
    (h : Run r m u ps m') (hg : ps.getLast? = some (.gap g)) : (Piece.gap g).EndsBefore r := by
  induction h with
  | nil => simp at hg
  | @step m m' s u ps hstep hrest hrun ih =>
    rw [List.getLast?_append] at hg
    cases hps : ps.getLast? with
    | some p =>
      rw [hps] at hg
      exact ih (hps.trans hg)
    | none =>
      obtain rfl := List.getLast?_eq_none_iff.1 hps
      rw [hps, Option.none_or] at hg
      have hu : u = [] := hrun.text.symm
      have hends := hstep.gap_endsBefore hg
      rwa [hrest, hu] at hends

/-- A gap that ends in front of something else than the end of a line ends anywhere. -/
theorem Piece.EndsBefore.anywhere {g r : Text} (h : (Piece.gap g).EndsBefore r) {c : Char}
    (hr : r.head? = some c) (hc : c ≠ '\n') (r' : Text) : (Piece.gap g).EndsBefore r' := by
  unfold Piece.EndsBefore at h ⊢
  split at h
  · rcases h with rfl | h
    · simp at hr
    · rw [hr, Option.some.injEq] at h
      exact absurd h hc
  · simp at *
  · trivial

/-! ## Exchanges -/

/-- The text behind a token. -/
theorem exists_run_token {m : List Mode} {t : Text} {ps qs : List Piece} {kind : TokenKind}
    {lexeme : Text} (h : pieces m t = .ok (ps ++ Piece.token kind lexeme :: qs))
    (hkind : kind ≠ .text) :
    ∃ m', Run (textOf qs) m (textOf ps ++ lexeme) (ps ++ [Piece.token kind lexeme]) m' ∧
      pieces m' (textOf qs) = .ok qs := by
  have hsplit : pieces m t = .ok ((ps ++ [Piece.token kind lexeme]) ++ qs) := by
    rw [h, List.append_assoc, List.singleton_append]
  obtain ⟨u, r, m', -, hrun, hqs⟩ := exists_run hsplit fun x hx => by
    rw [List.getLast?_append, List.getLast?_singleton, Option.some_or, Option.some.injEq,
      Piece.token.injEq] at hx
    exact hkind hx.1
  have hr := textOf_pieces hqs
  have hu := hrun.text
  rw [List.flatMap_append] at hu
  subst hr hu
  refine ⟨m', ?_, hqs⟩
  simpa using hrun

theorem exists_run_neutral {m : List Mode} {t : Text} {ps qs : List Piece}
    (h : pieces m t = .ok (ps ++ qs)) (hm : inString m = false) (hps : Neutral ps)
    (hlast : ∀ x, ps.getLast? ≠ some (.token .text x)) :
    Run (textOf qs) m (textOf ps) ps m ∧ pieces m (textOf qs) = .ok qs := by
  obtain ⟨u, r, m', -, hrun, hqs⟩ := exists_run h hlast
  have hmodes := hrun.modes_eq
  rw [hps m hm] at hmodes
  have hr := textOf_pieces hqs
  have hu : textOf ps = u := hrun.text
  subst hmodes hr hu
  exact ⟨hrun, hqs⟩

theorem IsGaps.getLast?_ne {ps : List Piece} (h : IsGaps ps) (kind : TokenKind) (x : Text) :
    ps.getLast? ≠ some (.token kind x) := by
  intro hx
  obtain ⟨t, ht⟩ := h _ (List.mem_of_getLast? hx)
  exact absurd ht (by simp)

/-- Behind a barrier and some gaps, pieces can be exchanged for others that fit. -/
theorem pieces_exchange {t : Text} {kind : TokenKind} {c : Char} {ps gs xs ys qs : List Piece}
    (h : pieces [] t = .ok (ps ++ Piece.token kind [c] :: (gs ++ (xs ++ qs))))
    (hbarrier : (kind, c) ∈ barriers) (hgs : IsGaps gs) (hxs : Neutral xs)
    (hlast : ∀ x, xs.getLast? ≠ some (.token .text x)) (hys : Fits ys (textOf qs))
    (hend : ∀ g, gs.getLast? = some (.gap g) → (Piece.gap g).EndsBefore (textOf xs ++ textOf qs) →
      (Piece.gap g).EndsBefore (textOf ys ++ textOf qs))
    (hassign : (textOf gs ++ (textOf ys ++ textOf qs)).head? ≠ some '=') :
    pieces [] (textOf (ps ++ Piece.token kind [c] :: (gs ++ (ys ++ qs)))) =
      .ok (ps ++ Piece.token kind [c] :: (gs ++ (ys ++ qs))) := by
  have hkind : kind ≠ .text ∧ kind ∉ stringKinds := by
    have hall : ∀ b ∈ barriers, b.1 ≠ .text ∧ b.1 ∉ stringKinds := by decide
    exact hall _ hbarrier
  obtain ⟨m, hbefore, hbehind⟩ := exists_run_token h hkind.1
  have hm : inString m = false := by
    refine hbefore.inString_eq_false (p := .token kind [c]) (by simp) ?_
    rintro k hk x heq
    obtain ⟨rfl, -⟩ := Piece.token.inj heq
    exact hkind.2 hk
  obtain ⟨hgaps, hbehind⟩ := exists_run_neutral hbehind hm (neutral_gaps hgs) (hgs.getLast?_ne _)
  obtain ⟨-, hrest⟩ := exists_run_neutral hbehind hm hxs hlast
  have hends : ∀ p ∈ gs.getLast?, p.EndsBefore (textOf ys ++ textOf qs) := by
    intro p hp
    obtain ⟨g, rfl⟩ := hgs p (List.mem_of_getLast? hp)
    have hold := hgaps.gap_endsBefore hp
    rw [textOf_append] at hold
    exact hend g hp hold
  have hnew := (hys m hm).pieces hrest
  have hnew := (hgaps.swap_gaps hgs hends).pieces hnew
  have hnew := (hbefore.swap_barrier hbarrier hassign).pieces hnew
  simpa [textOf_append, textOf_cons] using hnew

/-- A parameter can be put behind a token that ends one. -/
theorem pieces_insert {t : Text} {kind : TokenKind} {lexeme : Text} {ps ys qs : List Piece}
    (h : pieces [] t = .ok (ps ++ Piece.token kind lexeme :: qs)) (htext : kind ≠ .text)
    (huri : kind ≠ .uri) (hne : lexeme ≠ []) (hcolon : lexeme.getLast? ≠ some ':')
    (hqs : ∀ x, qs.head? ≠ some (.token .text x))
    (hys : Fits (.token .comma [','] :: ys) (textOf qs)) :
    pieces [] (textOf (ps ++ Piece.token kind lexeme :: (.token .comma [','] :: ys ++ qs))) =
      .ok (ps ++ Piece.token kind lexeme :: (.token .comma [','] :: ys ++ qs)) := by
  obtain ⟨m, hbefore, hbehind⟩ := exists_run_token h htext
  have hm := inString_of_pieces hbehind hqs
  have hlast : (textOf ps ++ lexeme).getLast? ≠ some ':' := by
    have hc := List.getLast?_eq_some_getLast hne
    rwa [List.getLast?_append, hc, Option.some_or, ← hc]
  have hnew := (hys m hm).pieces hbehind
  have hnew := (hbefore.swap_comma (z := textOf ys ++ textOf qs) huri hlast).pieces
    (by simpa [textOf_cons] using hnew)
  simpa [textOf_append, textOf_cons] using hnew

/-! ## Urls that take in a comma -/

theorem isUri_of_word {c : Char} {t x : Text} (h : word c t = .ok (.uri, x)) : Word.IsUri x := by
  unfold word at h
  split at h
  · next k l hl =>
    split at h
    · simp at h
    · obtain ⟨hkind, rfl⟩ := Prod.mk.inj (Except.ok.inj h)
      obtain ⟨entry, hentry, rfl, heq⟩ := Word.exists_class_of_longest? hl
      have huri : entry.1 = .uri := by
        unfold wordKind at hkind
        split at hkind
        · cases hkind
        · exact hkind
      have hall : ∀ entry ∈ Word.classes, entry.1 = .uri → entry.2 = Word.uri := by
        simp only [Word.classes, List.forall_mem_cons]
        simp
      rw [hall entry hentry huri] at heq
      rcases Word.uri_cases (c :: t) with hnil | ⟨hisUri, -⟩
      · exact absurd (heq.trans hnil) (Word.longest?_ne_nil hl)
      · rw [heq]
        exact hisUri
  · split at h
    · next found hp =>
      obtain rfl := Except.ok.inj h
      obtain ⟨⟨symbol, k⟩, hmem, heq⟩ := List.exists_of_findSome?_eq_some hp
      have hall : ∀ entry ∈ punctuation, entry.2 ≠ .uri := by decide
      dsimp only at heq
      split at heq
      · exact absurd (congrArg Prod.fst (Option.some.inj heq)) (hall _ hmem)
      · simp at heq
    · simp at h

/-- A step that takes a url takes nothing else. -/
theorem Steps.of_uri {m : List Mode} {t x : Text} {s : Step} (h : Steps m t s)
    (hx : Piece.token .uri x ∈ s.pieces) :
    inString m = false ∧ s.pieces = [.token .uri x] ∧ s.modes = m ∧ Word.IsUri x := by
  cases hm : inString m with
  | true =>
    obtain ⟨y, kind, hpieces, hkind, -⟩ := h.string hm
    rw [hpieces, List.mem_cons, List.mem_singleton] at hx
    rcases hx with heq | heq
    · cases heq
    · obtain ⟨rfl, -⟩ := Piece.token.inj heq
      simp at hkind
  | false =>
    rcases h.bare_cases hm with ⟨c, y, -, -, rfl⟩ | ⟨y, -, rfl⟩ | ⟨y, body, rest, -, -, rfl⟩ | hd |
      ⟨c, y, kind, lexeme, -, hword, rfl⟩
    · simp at hx
    · simp at hx
    · simp at hx
    · obtain ⟨kind, hkind, hpieces, -⟩ := delimiter?_cases hd hm
      rw [hpieces, List.mem_singleton] at hx
      obtain ⟨rfl, -⟩ := Piece.token.inj hx
      exact absurd hkind (by decide)
    · obtain ⟨rfl, rfl⟩ := Piece.token.inj (List.mem_singleton.1 hx)
      exact ⟨rfl, rfl, rfl, isUri_of_word hword⟩

theorem Run.isUri {r : Text} {m m' : List Mode} {u x : Text} {ps : List Piece}
    (h : Run r m u ps m') (hx : Piece.token .uri x ∈ ps) : Word.IsUri x := by
  induction h with
  | nil => simp at hx
  | step hstep _ _ ih =>
    rcases List.mem_append.1 hx with hx | hx
    · exact (hstep.of_uri hx).2.2.2
    · exact ih hx

/-- A url at the end of a run takes in a comma behind it. -/
theorem Run.uri_comma {r z : Text} {m m' : List Mode} {u x : Text} {ps : List Piece}
    (h : Run r m u (ps ++ [Piece.token .uri x]) m') :
    Run (' ' :: z) m (u ++ [',']) (ps ++ [Piece.token .uri (x ++ [','])]) m' := by
  have hx : Word.IsUri x := h.isUri (by simp)
  generalize hqs : ps ++ [Piece.token .uri x] = qs at h
  induction h generalizing ps with
  | nil => simp at hqs
  | @step m m' s u qs hstep hrest hrun ih =>
    rcases List.eq_nil_or_concat qs with rfl | ⟨qs', p, rfl⟩
    · -- This step takes the url.
      obtain ⟨rfl, rfl⟩ : u = [] ∧ m' = s.modes := ⟨hrun.text.symm, hrun.modes_eq⟩
      rw [List.append_nil] at hqs
      have hmem : Piece.token .uri x ∈ s.pieces := by
        rw [← hqs]
        exact List.mem_append_right _ List.mem_cons_self
      obtain ⟨hm, hpieces, hmodes, -⟩ := hstep.of_uri hmem
      have hsole : ps ++ [Piece.token .uri x] = [] ++ [Piece.token .uri x] := hqs.trans hpieces
      obtain ⟨rfl, -⟩ := List.append_inj' hsole rfl
      rw [hmodes, Step.text, hpieces]
      have hcomma : Word.IsUri (x ++ [',']) := hx.append (List.forall_mem_singleton.2 rfl)
      simpa using fits_uri hcomma (by decide) z m hm
    · rw [List.concat_eq_append, ← List.append_assoc] at hqs
      obtain ⟨rfl, hp⟩ := List.append_inj' hqs rfl
      obtain rfl := List.singleton_inj.1 hp
      have hu : x <:+ u := by
        rw [← hrun.text]
        simp
      have hne : u ≠ [] := by
        rintro rfl
        obtain ⟨_, _, _, _⟩ := hx
        simp at hu
      have hstep' :
          Steps m (s.text ++ u ++ ',' :: ' ' :: z) { s with rest := u ++ ',' :: ' ' :: z } := by
        rw [← List.append_assoc] at hstep
        refine hstep.swap hrest (fun hnil => absurd hnil hne) ?_
        rintro ⟨-, ⟨c, t, -, hword, -⟩, hrecord, hpieces⟩
        refine sealed_of_comma (by simp [hne])
          (fun h => h.of_concat_suffix hx (hu.trans (List.suffix_append _ _))) hrecord
          fun hlongest => ?_
        have htext : s.text ++ u = s.text := by
          conv => rhs; rw [Step.text, hpieces hlongest]
          simp
        exact hne (by simpa using htext)
      have hrun' := ih (List.concat_eq_append.symm)
      rw [List.append_assoc, List.append_assoc]
      refine .step (s := { s with rest := u ++ ',' :: ' ' :: z }) ?_ (by simp) hrun'
      simpa [Step.text] using hstep'

/-- Behind a url a comma is a part of the url, and what follows the comma stands behind it. -/
theorem pieces_uri_comma {t x : Text} {ps ys qs : List Piece}
    (h : pieces [] t = .ok (ps ++ Piece.token .uri x :: qs))
    (hys : Fits (.gap [' '] :: ys) (textOf qs)) :
    pieces [] (textOf (ps ++ Piece.token .uri (x ++ [',']) :: (.gap [' '] :: ys ++ qs))) =
      .ok (ps ++ Piece.token .uri (x ++ [',']) :: (.gap [' '] :: ys ++ qs)) := by
  obtain ⟨m, hbefore, hbehind⟩ := exists_run_token h (by decide)
  have hm : inString m = false := by
    refine hbefore.inString_eq_false (p := .token .uri x) (by simp) ?_
    rintro kind hkind y heq
    obtain ⟨rfl, -⟩ := Piece.token.inj heq
    exact absurd hkind (by decide)
  have hnew := (hys m hm).pieces hbehind
  have hnew := (hbefore.uri_comma (z := textOf ys ++ textOf qs)).pieces
    (by simpa [textOf_cons] using hnew)
  simpa [textOf_append, textOf_cons] using hnew

end Scan
end FlakeInputs
