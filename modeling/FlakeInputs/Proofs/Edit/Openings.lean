import FlakeInputs.Proofs.Edit.Rooms

/-!
# The opening brace of an empty set

The brace that opens an empty set is looked for in the text of the set and not among its tokens.
It is the first one there, unless the set is recursive and a comment between `rec` and the brace
has a brace in it.  Whether one has depends on the pieces in front of the brace alone, so no edit
behind the brace changes it.
-/

namespace FlakeInputs
namespace Edit

open Grammar Scan
open Token (locate)

/-! ## Braces that are tokens -/

/-- Whether the first brace in the text of a set is a token, and not part of a comment. -/
def braceIsToken (text : Text) (set : Span) : Bool :=
  match offsetOf text set.start >>= braceFrom text, Token.tokenize text with
  | .ok brace, .ok ts => ts.any fun t =>
      t.kind == .braceOpen && (offsetOf text t.span.start).toOption == some brace
  | _, _ => false

/-- A brace that is a token is a piece of the text. -/
theorem exists_piece_of_braceIsToken {text : Text} {set : Span} {start brace : Nat}
    (h : braceIsToken text set = true) (hstart : offsetOf text set.start = .ok start)
    (hbrace : braceFrom text start = .ok brace) :
    ∃ ps qs, pieces [] text = .ok (ps ++ Piece.token .braceOpen ['{'] :: qs) ∧
      brace = (textOf ps).length := by
  cases htokens : Token.tokenize text with
  | error e =>
    rw [braceIsToken, htokens] at h
    split at h
    · next heq => cases heq
    · exact Bool.noConfusion h
  | ok ts =>
    simp only [braceIsToken, hstart, Outcome.ok_bind, hbrace, htokens, List.any_eq_true,
      Bool.and_eq_true, beq_iff_eq] at h
    obtain ⟨t, ht, hkind, hoffset⟩ := h
    obtain ⟨all, hall, rfl⟩ := Token.tokenize_eq_ok.1 htokens
    obtain ⟨l, r, hsplit⟩ := List.append_of_mem ht
    obtain ⟨ps, qs, rfl, -, hspan, -⟩ := Token.locate_eq_append hsplit
    have hmem : Piece.token t.kind t.lexeme ∈ ps ++ Piece.token t.kind t.lexeme :: qs := by simp
    rw [hkind] at hmem hall
    rw [Scan.lexeme_eq hall hmem rfl] at hall
    refine ⟨ps, qs, hall, ?_⟩
    rw [hspan, ← textOf_pieces hall, textOf_append, offsetOf_after] at hoffset
    exact (Option.some.inj hoffset).symm

/-- A piece that starts between two others is one of those between them. -/
theorem mem_of_between {ps qs l m r : List Piece} {p : Piece} (h : ps ++ p :: qs = l ++ (m ++ r))
    (hp : p.text ≠ []) (hle : (textOf l).length ≤ (textOf ps).length)
    (hlt : (textOf ps).length < (textOf (l ++ m)).length) : p ∈ m := by
  have hpos := List.length_pos_iff.2 hp
  rcases List.append_eq_append_iff.1 h with ⟨as, rfl, has⟩ | ⟨bs, rfl, hbs⟩
  · cases as with
    | nil =>
      cases m with
      | nil => simp at hlt
      | cons q m => exact List.mem_cons.2 (.inl (List.cons.inj has).1)
    | cons q as =>
      obtain ⟨rfl, -⟩ := List.cons.inj has
      simp only [textOf_append, textOf_cons, List.length_append] at hle
      omega
  · rcases List.append_eq_append_iff.1 hbs.symm with ⟨as, rfl, has⟩ | ⟨ds, rfl, -⟩
    · cases as with
      | nil => simp at hlt
      | cons q as =>
        obtain ⟨rfl, -⟩ := List.cons.inj has
        simp
    · simp only [textOf_append, List.length_append] at hlt
      omega

/-! ## From `rec` to the brace -/

/-- Some pieces end with `rec` and with gaps that have no brace in them. -/
def EndsInRec (ps : List Piece) : Prop :=
  ∃ ps₁ gs, ps = ps₁ ++ Piece.token (.keyword .recWord) "rec".toList :: gs ∧ IsGaps gs ∧
    '{' ∉ textOf gs

/-- If the first brace in the text of a recursive set is a token, then no gap between `rec` and
the brace has one in it: it would be a token among gaps. -/
theorem endsInRec_of_braceIsToken {text : Text} {ps qs : List Piece} {f : List Token}
    {word : Token} {set : Span}
    (hall : pieces [] text = .ok (ps ++ Piece.token .braceOpen ['{'] :: qs))
    (hps : locate .start ps = f ++ [word]) (hword : word.kind = .keyword .recWord)
    (hset : set.start = word.span.start) (hbrace : braceIsToken text set = true) :
    EndsInRec ps := by
  obtain ⟨ps₁, gs, rfl, -, hspan, hgs⟩ := Token.locate_eq_append hps
  have hgaps := Token.isGaps_of_locate hgs
  have hlexeme : word.lexeme = "rec".toList := by
    have hmem : Piece.token word.kind word.lexeme ∈
        ps₁ ++ Piece.token word.kind word.lexeme :: gs ++ Piece.token .braceOpen ['{'] :: qs := by
      simp
    rw [hword] at hmem hall
    exact Scan.lexeme_eq hall hmem rfl
  rw [hword, hlexeme] at hall ⊢
  refine ⟨ps₁, gs, rfl, hgaps, fun hmem => ?_⟩
  obtain ⟨a, z, hsplit, ha⟩ := List.eq_append_cons_of_mem hmem
  have htext : text = textOf ps₁ ++ (("rec".toList ++ a) ++ '{' :: (z ++ '{' :: textOf qs)) := by
    rw [← textOf_pieces hall]
    simp [hsplit]
  have hstart : offsetOf text set.start = .ok (textOf ps₁).length := by
    rw [hset, hspan, htext, offsetOf_after]
  have hfound : braceFrom text (textOf ps₁).length =
      .ok (textOf ps₁ ++ ("rec".toList ++ a)).length := by
    rw [htext]
    exact braceFrom_append (by simpa using ha)
  obtain ⟨ps₂, qs₂, hall₂, hlength⟩ := exists_piece_of_braceIsToken hbrace hstart hfound
  have heq : ps₂ ++ Piece.token .braceOpen ['{'] :: qs₂ =
      (ps₁ ++ [Piece.token (.keyword .recWord) "rec".toList]) ++
        (gs ++ Piece.token .braceOpen ['{'] :: qs) := by
    rw [Except.ok.inj (hall₂.symm.trans hall)]
    simp
  have hin : Piece.token .braceOpen ['{'] ∈ gs := by
    refine mem_of_between heq (by simp [Piece.text]) ?_ ?_
    · rw [← hlength]
      simp
    · rw [← hlength]
      simp [hsplit]
  obtain ⟨t, ht⟩ := hgaps _ hin
  cases ht

/-- The pieces in front of a place tell that the first brace in the text of an empty set is its
own. -/
def Placing.Ready (place : Placing) (bar : Token) (ps : List Piece) : Prop :=
  match place with
  | inside binding => binding.value.span.start = bar.span.start ∨ EndsInRec ps
  | _ => True

section
variable {text : Text} {all : List Piece} {f g : List Token} {bar : Token} {ps qs : List Piece}
  {c : Char} {place : Placing}

theorem Barrier.ready (h : Barrier all f bar g ps c qs) (hall : pieces [] text = .ok all)
    (hat : place.At f bar g) (hopens : place.Opens f bar)
    (hbrace : ∀ b, place = .inside b → b.value.node = .map [] true →
      braceIsToken text b.value.span = true) : place.Ready bar ps := by
  cases place with
  | above start blankLine => trivial
  | below span => trivial
  | inside binding =>
    obtain ⟨-, -, -, -, -, -, -, -, -, hkind, -⟩ := hat
    obtain rfl := h.eq_brace hkind
    rw [h.pieces_eq, hkind] at hall
    rcases hopens with hstart | ⟨hrec, f', word, rfl, hword, hstart⟩
    · exact .inl hstart
    · exact .inr (endsInRec_of_braceIsToken hall h.front hword hstart (hbrace binding rfl hrec))

/-- Behind `rec` and gaps without a brace stands the brace that opens the set. -/
theorem Barrier.clear_recursive {b : KeyValue} {f' : List Token} {word : Token}
    (h : Barrier all (f' ++ [word]) bar g ps '{' qs) (hall : pieces [] text = .ok all)
    (hstart : b.value.span.start = word.span.start) (hrec : EndsInRec ps) :
    (Placing.inside b).Clear text bar := by
  obtain ⟨ps₁, gs, rfl, hgs, hnone⟩ := hrec
  have hfront := h.front
  rw [Token.locate_append, locate, Token.locate_gaps hgs] at hfront
  have hword : word.span.start = Position.start.after (textOf ps₁) := by
    rw [← List.singleton_inj.1 (List.append_inj' hfront rfl).2]
  have htext : text = textOf ps₁ ++ (("rec".toList ++ textOf gs) ++ '{' :: textOf qs) := by
    rw [h.text_eq hall]
    simp
  have hbar :
      bar.span.start = Position.start.after (textOf ps₁ ++ ("rec".toList ++ textOf gs)) := by
    rw [h.span_eq]
    simp
  intro start hoffset
  obtain rfl : start = (textOf ps₁).length := by
    rw [hstart, hword, htext, offsetOf_after, Except.ok.injEq] at hoffset
    exact hoffset.symm
  rw [hbar, htext, braceFrom_append (by simpa using hnone),
    ← List.append_assoc (textOf ps₁) ("rec".toList ++ textOf gs), offsetOf_after]

/-- The first brace in the text of an empty set is its own. -/
theorem Barrier.clear (h : Barrier all f bar g ps c qs) (hall : pieces [] text = .ok all)
    (hat : place.At f bar g) (hopens : place.Opens f bar) (hready : place.Ready bar ps) :
    place.Clear text bar := by
  cases place with
  | above start blankLine => trivial
  | below span => trivial
  | inside binding =>
    obtain ⟨-, -, -, -, -, -, -, -, -, hkind, -⟩ := hat
    obtain rfl := h.eq_brace hkind
    rcases hopens with hstart | ⟨-, f', word, rfl, -, hstart⟩
    · exact h.clear_of_start hall hkind hstart
    · rcases hready with hbar | hrec
      · exact h.clear_of_start hall hkind hbar
      · exact h.clear_recursive hall hstart hrec

/-- A place among the pieces `ps` is as ready in one text that begins with them as in another. -/
theorem exists_barrier_ready {text' : Text} {vs ws : List Piece} {l g' : List Token}
    (hall : pieces [] text = .ok (ps ++ vs)) (hall' : pieces [] text' = .ok (ps ++ ws))
    (hps : locate .start ps = f ++ bar :: l) (htokens : locate .start (ps ++ vs) = f ++ bar :: g)
    (htokens' : locate .start (ps ++ ws) = f ++ bar :: g')
    (hbar : bar.kind = .braceOpen ∨ bar.kind = .semicolon) (hat : place.At f bar g)
    (hopens : place.Opens f bar)
    (hbrace : ∀ b, place = .inside b → b.value.node = .map [] true →
      braceIsToken text b.value.span = true) :
    ∃ ps₁ c qs, Barrier (ps ++ ws) f bar g' ps₁ c qs ∧ place.Ready bar ps₁ := by
  obtain ⟨ps₁, qs, rfl, hfront, -, -⟩ := Token.locate_eq_append hps
  rw [List.append_assoc, List.cons_append] at hall hall' htokens htokens' ⊢
  obtain ⟨c, hbarrier⟩ := exists_barrier_of_split hall htokens hfront hbar
  obtain ⟨c', hbarrier'⟩ := exists_barrier_of_split hall' htokens' hfront hbar
  exact ⟨ps₁, c', _, hbarrier', hbarrier.ready hall hat hopens hbrace⟩

end

end Edit
end FlakeInputs
