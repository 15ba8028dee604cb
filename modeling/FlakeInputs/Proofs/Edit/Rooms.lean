import FlakeInputs.Proofs.Edit.Additions
import FlakeInputs.Proofs.Edit.Update

/-!
# Room for a declaration

Behind a semicolon or an opening brace there is room for a declaration.  The tokens around it
tell where it is put, and the text that results is read as the declaration between the tokens
that were there before.
-/

namespace FlakeInputs
namespace Edit

open Grammar Scan
open Token (locate)

/-! ## The rest of a line -/

theorem fits_lineComment {x r : Text} (hx : '\n' ∉ x) (hr : r = [] ∨ r.head? = some '\n') :
    Fits [.gap ('#' :: x)] r := by
  have hline : ∀ c ∈ x, (c != '\n') = true := by
    intro c hc
    rw [bne_iff_ne]
    rintro rfl
    exact hx hc
  have hend : ∀ c ∈ r.head?, (c != '\n') = false := by
    intro c hc
    rcases hr with rfl | hr
    · simp at hc
    · obtain rfl : '\n' = c := by simpa [hr] using hc
      rfl
  refine fits_of_steps fun m hm => steps_bare (t := x ++ r) hm ?_
  have hdrop : (x ++ r).dropWhile (· != '\n') = r := by
    rw [List.dropWhile_append_of_pos hline]
    cases r with
    | nil => rfl
    | cons c r => rw [List.dropWhile_cons_of_neg (by simp [hend c rfl])]
  have htake : (x ++ r).takeWhile (· != '\n') = x := by
    rw [List.takeWhile_append_of_pos hline]
    cases r with
    | nil => simp
    | cons c r => rw [List.takeWhile_cons_of_neg (by simp [hend c rfl]), List.append_nil]
  unfold bareStep
  rw [if_neg (by decide), if_pos rfl, hdrop, htake]

/-- A line can end behind any gap. -/
theorem endsBefore_newline {gs : List Piece} {p : Piece} (h : IsGaps gs)
    (hp : gs.getLast? = some p) {r : Text} (hr : r.head? = some '\n') : p.EndsBefore r := by
  obtain ⟨t, rfl⟩ := h p (List.mem_of_getLast? hp)
  unfold Piece.EndsBefore
  split
  · exact .inr hr
  · next heq => exact absurd heq (by simp)
  · trivial

/-- The rest of a line consists of gaps. -/
theorem LineRest.exists_gaps {m : List Mode} {w r : Text} {qs : List Piece} (h : LineRest w r)
    (hm : inString m = false) (hqs : pieces m (w ++ r) = .ok qs) :
    ∃ gs rs, qs = gs ++ rs ∧ IsGaps gs ∧ textOf gs = w ∧ textOf rs = r := by
  obtain ⟨v, comment, rfl, hv, hcomment⟩ := h.blank
  obtain ⟨gs, hgs, htext, hfits⟩ : ∃ gs, IsGaps gs ∧ textOf gs = v ++ comment ∧ Fits gs r := by
    rcases hcomment with rfl | hhash
    · exact ⟨blanks v, isGaps_blanks v, by simp, fits_blanks hv r⟩
    · obtain ⟨x, rfl⟩ := List.head?_eq_some_iff.1 hhash
      refine ⟨blanks v ++ [Piece.gap ('#' :: x)], (isGaps_blanks v).append ?_, by simp, ?_⟩
      · simp [IsGaps]
      · refine (fits_blanks hv _).append (fits_lineComment ?_ h.ends)
        exact fun hx => h.line (by simp [hx])
  have hrun := hfits m hm
  rw [htext] at hrun
  obtain ⟨rs, rfl, hrs⟩ := hrun.pieces_eq_ok hqs
  exact ⟨gs, rs, rfl, hgs, htext, textOf_pieces hrs⟩

/-! ## Room behind a barrier -/

/-- There is room for a declaration behind the gaps `gs`, in the place of the gaps `xs`. -/
structure Room (qs gs xs rs : List Piece) (lead trail : Text) : Prop where
  split : qs = gs ++ (xs ++ rs)
  gaps : IsGaps gs
  removed : IsGaps xs
  ends : ∀ g, gs.getLast? = some (.gap g) → (Piece.gap g).EndsBefore (textOf xs ++ textOf rs) →
    ∀ r, (Piece.gap g).EndsBefore (lead ++ r)
  lead_gap : ∀ c ∈ lead, isGap c = true
  trail_gap : ∀ c ∈ trail, isGap c = true

/-- A barrier among the tokens of a text. -/
structure Barrier (all : List Piece) (f : List Token) (bar : Token) (g : List Token)
    (ps : List Piece) (c : Char) (qs : List Piece) : Prop where
  pieces_eq : all = ps ++ .token bar.kind [c] :: qs
  lexeme_eq : bar.lexeme = [c]
  barrier : (bar.kind, c) ∈ barriers
  front : locate .start ps = f
  span_eq : bar.span =
    ⟨Position.start.after (textOf ps), (Position.start.after (textOf ps)).after [c]⟩
  back : locate bar.span.stop qs = g

theorem exists_barrier_of_split {text : Text} {ps qs : List Piece} {f g : List Token} {bar : Token}
    (hall : pieces [] text = .ok (ps ++ Piece.token bar.kind bar.lexeme :: qs))
    (htokens : locate .start (ps ++ Piece.token bar.kind bar.lexeme :: qs) = f ++ bar :: g)
    (hps : locate .start ps = f) (hbar : bar.kind = .braceOpen ∨ bar.kind = .semicolon) :
    ∃ c, Barrier (ps ++ Piece.token bar.kind bar.lexeme :: qs) f bar g ps c qs := by
  have hmem :
      Piece.token bar.kind bar.lexeme ∈ ps ++ Piece.token bar.kind bar.lexeme :: qs := by simp
  obtain ⟨c, hc, hbarrier⟩ : ∃ c, bar.lexeme = [c] ∧ (bar.kind, c) ∈ barriers := by
    rcases hbar with hkind | hkind
    · exact ⟨'{', (lexeme_eq hall hmem (by rw [hkind]; rfl)).trans (by rw [hkind]; rfl),
        by rw [hkind]; decide⟩
    · exact ⟨';', (lexeme_eq hall hmem (by rw [hkind]; rfl)).trans (by rw [hkind]; rfl),
        by rw [hkind]; decide⟩
  rw [Token.locate_append, hps, locate] at htokens
  obtain ⟨hspan, hqs⟩ := List.cons.inj (List.append_cancel_left htokens)
  have hspan' := congrArg Token.span hspan
  refine ⟨c, by rw [hc], hc, hbarrier, hps, ?_, ?_⟩
  · rw [← hspan', hc]
  · rw [← hspan', hqs]

theorem exists_barrier {text : Text} {all : List Piece} {f g : List Token} {bar : Token}
    (hall : pieces [] text = .ok all) (htokens : locate .start all = f ++ bar :: g)
    (hbar : bar.kind = .braceOpen ∨ bar.kind = .semicolon) :
    ∃ ps c qs, Barrier all f bar g ps c qs := by
  obtain ⟨ps, qs, rfl, hps, -, -⟩ := Token.locate_eq_append htokens
  obtain ⟨c, hbarrier⟩ := exists_barrier_of_split hall htokens hps hbar
  exact ⟨ps, c, qs, hbarrier⟩

theorem head?_attrName_ne (name r : Text) : (attrName name ++ r).head? ≠ some '=' := by
  by_cases hbare : isBareKey name = true
  · obtain ⟨d, t, rfl, hstart⟩ := (isName_of_isBareKey hbare).exists_start
    rw [attrName, ← isBareKey, if_pos hbare]
    intro heq
    obtain rfl : d = '=' := by simpa using heq
    exact absurd hstart (by decide)
  · rw [attrName, ← isBareKey, if_neg hbare]
    simp [stringLiteral]

/-- An equals sign does not begin a declaration. -/
theorem head?_declaration_ne (name url : Text) (qualified : Bool) (r : Text) :
    (declaration name url qualified ++ r).head? ≠ some '=' := by
  cases qualified with
  | true => simp [declaration]
  | false =>
    have hkey := head?_attrName_ne name (".url = ".toList ++ (stringLiteral url ++ ([';'] ++ r)))
    simpa only [declaration, Bool.false_eq_true, if_false, List.nil_append, List.append_assoc]
      using hkey

/-- The text with a declaration in the room for it is read as the declaration among the other
pieces. -/
theorem Room.pieces {text : Text} {kind : TokenKind} {c : Char}
    {ps qs gs xs rs : List Piece} {lead trail : Text} (h : Room qs gs xs rs lead trail)
    (hall : Scan.pieces [] text = .ok (ps ++ Piece.token kind [c] :: qs))
    (hbarrier : (kind, c) ∈ barriers) (name url : Text) (qualified : Bool) :
    Scan.pieces [] (textOf (ps ++ Piece.token kind [c] :: gs) ++
        (lead ++ (declaration name url qualified ++ (trail ++ textOf rs)))) =
      .ok (ps ++ Piece.token kind [c] :: (gs ++
        ((blanks lead ++ (declarationPieces name url qualified ++ blanks trail)) ++ rs))) := by
  have hall' : Scan.pieces [] text = .ok (ps ++ Piece.token kind [c] :: (gs ++ (xs ++ rs))) := by
    rw [hall, h.split]
  have hfits : Fits (blanks lead ++ (declarationPieces name url qualified ++ blanks trail))
      (textOf rs) :=
    (fits_blanks h.lead_gap _).append
      ((fits_declaration name url qualified _).append (fits_blanks h.trail_gap _))
  have htext : textOf (blanks lead ++ (declarationPieces name url qualified ++ blanks trail)) =
      lead ++ (declaration name url qualified ++ trail) := by
    rw [textOf_append, textOf_append, textOf_blanks, textOf_blanks, textOf_declarationPieces]
  have hnew := pieces_exchange hall' hbarrier h.gaps (neutral_gaps h.removed)
    (h.removed.getLast?_ne _) hfits ?_ ?_
  · rw [← hnew, ← textOf_declarationPieces]
    simp
  · intro g hg hold
    rw [htext, List.append_assoc]
    exact h.ends g hg hold _
  · refine head?_gaps_ne hall' h.gaps (fun g hg => by simp [hg]) ?_
    rw [htext]
    cases lead with
    | nil =>
      rw [List.nil_append, List.append_assoc]
      exact head?_declaration_ne name url qualified _
    | cons d lead =>
      have hd := h.lead_gap d List.mem_cons_self
      intro heq
      obtain rfl : d = '=' := by simpa using heq
      exact absurd hd (by decide)

/-! ## Where there is room -/

/-- A place between the tokens `f ++ [bar]` and the tokens `g` of a text: in front of a token,
behind a binding, or between the braces of a set. -/
def Placing.At (place : Placing) (f : List Token) (bar : Token) (g : List Token) : Prop :=
  match place with
  | above start _ => ∃ t g', g = t :: g' ∧ t.kind ≠ .text ∧ start = t.span.start
  | below span => ∃ f₁ t f₂, f = f₁ ++ t :: f₂ ∧ span = ⟨t.span.start, bar.span.stop⟩
  | inside binding => ∃ f₁ t f₂ s f₃ closing g', f ++ [bar] = f₁ ++ t :: (f₂ ++ s :: f₃) ∧
      g = closing :: g' ∧ bar.kind = .braceOpen ∧ closing.kind = .braceClose ∧
      binding.span.start = t.span.start ∧ binding.value.span = ⟨s.span.start, closing.span.stop⟩

/-- Only the first token behind a place matters. -/
theorem Placing.At.of_head {place : Placing} {f g g' : List Token} {bar : Token}
    (h : place.At f bar g) (hhead : g'.head? = g.head?) : place.At f bar g' := by
  cases place with
  | above start blankLine =>
    obtain ⟨t, w, rfl, hkind, hstart⟩ := h
    obtain ⟨w', rfl⟩ := List.head?_eq_some_iff.1 hhead
    exact ⟨t, w', rfl, hkind, hstart⟩
  | below span => exact h
  | inside binding =>
    obtain ⟨f₁, t, f₂, s, f₃, closing, w, hf, rfl, h⟩ := h
    obtain ⟨w', rfl⟩ := List.head?_eq_some_iff.1 hhead
    exact ⟨f₁, t, f₂, s, f₃, closing, w', hf, rfl, h⟩

theorem Placing.At.append {place : Placing} {f g : List Token} {bar : Token}
    (h : place.At f bar g) (e : List Token) : place.At (e ++ f) bar g := by
  cases place with
  | above start blankLine => exact h
  | below span =>
    obtain ⟨f₁, t, f₂, rfl, h⟩ := h
    exact ⟨e ++ f₁, t, f₂, by simp, h⟩
  | inside binding =>
    obtain ⟨f₁, t, f₂, s, f₃, closing, w, hf, h⟩ := h
    exact ⟨e ++ f₁, t, f₂, s, f₃, closing, w, by simp [hf], h⟩

/-- The empty set of a place begins with its brace, or with the keyword in front of it if it is
recursive. -/
def Placing.Opens (place : Placing) (f : List Token) (bar : Token) : Prop :=
  match place with
  | inside binding => binding.value.span.start = bar.span.start ∨
      binding.value.node = .map [] true ∧ ∃ f' word, f = f' ++ [word] ∧
        word.kind = .keyword .recWord ∧ binding.value.span.start = word.span.start
  | _ => True

theorem Placing.Opens.append {place : Placing} {f : List Token} {bar : Token}
    (h : place.Opens f bar) (e : List Token) : place.Opens (e ++ f) bar := by
  cases place with
  | above start blankLine => trivial
  | below span => trivial
  | inside binding =>
    rcases h with h | ⟨hempty, f', word, rfl, h⟩
    · exact .inl h
    · exact .inr ⟨hempty, e ++ f', word, by simp, h⟩

/-- The first brace in the text of an empty set is its own. -/
def Placing.Clear (place : Placing) (text : Text) (bar : Token) : Prop :=
  match place with
  | inside binding => ∀ start, offsetOf text binding.value.span.start = .ok start →
      braceFrom text start = offsetOf text bar.span.start
  | _ => True

section
variable {text : Text} {all : List Piece} {f g : List Token} {bar : Token} {ps qs : List Piece}
  {c : Char}

/-- No string is open behind a token that neither ends a string nor stands in one. -/
theorem exists_modes_behind {kind : TokenKind} {x : Text}
    (hall : pieces [] text = .ok (ps ++ Piece.token kind x :: qs)) (hkind : kind ≠ .text)
    (hbare : kind ∉ stringKinds) : ∃ m, inString m = false ∧ pieces m (textOf qs) = .ok qs := by
  obtain ⟨m, hrun, hqs⟩ := exists_run_token hall hkind
  refine ⟨m, hrun.inString_eq_false (p := .token kind x) (by simp) ?_, hqs⟩
  rintro kind hmem x heq
  obtain ⟨rfl, -⟩ := Piece.token.inj heq
  exact hbare hmem

/-- No string is open behind a barrier. -/
theorem Barrier.exists_modes (h : Barrier all f bar g ps c qs) (hall : pieces [] text = .ok all) :
    ∃ m, inString m = false ∧ pieces m (textOf qs) = .ok qs := by
  have hkind : ∀ b ∈ barriers, b.1 ≠ .text ∧ b.1 ∉ stringKinds := by decide
  obtain ⟨htext, hbare⟩ := hkind _ h.barrier
  exact exists_modes_behind (h.pieces_eq ▸ hall) htext hbare

theorem Barrier.text_eq (h : Barrier all f bar g ps c qs) (hall : pieces [] text = .ok all) :
    text = textOf ps ++ c :: textOf qs := by
  rw [← textOf_pieces hall, h.pieces_eq]
  simp

/-- The opening brace of a set has one spelling. -/
theorem Barrier.eq_brace (h : Barrier all f bar g ps c qs) (hkind : bar.kind = .braceOpen) :
    c = '{' := by
  have hall : ∀ b ∈ barriers, b.1 = .braceOpen → b.2 = '{' := by decide
  exact hall _ h.barrier hkind

/-- A set that starts with its brace has that brace as the first one in its text. -/
theorem Barrier.clear_of_start {binding : KeyValue} (h : Barrier all f bar g ps c qs)
    (hall : pieces [] text = .ok all) (hkind : bar.kind = .braceOpen)
    (hstart : binding.value.span.start = bar.span.start) :
    (Placing.inside binding).Clear text bar := by
  obtain rfl := h.eq_brace hkind
  intro start hoffset
  have hbar : bar.span.start = Position.start.after (textOf ps) := by rw [h.span_eq]
  rw [hstart] at hoffset
  rw [hoffset]
  rw [h.text_eq hall, hbar, offsetOf_after, Except.ok.injEq] at hoffset
  subst hoffset
  rw [h.text_eq hall]
  simpa using @braceFrom_append (textOf ps) [] (textOf qs) (by simp)

/-- In front of a token there is room right behind the gaps before it. -/
theorem Barrier.room_above {start : Position} {blankLine : Bool}
    (h : Barrier all f bar g ps c qs) (hall : pieces [] text = .ok all)
    (hat : (Placing.above start blankLine).At f bar g) :
    ∃ gs xs rs lead trail, Room qs gs xs rs lead trail ∧
      Adds text ((Placing.above start blankLine).put text)
        (textOf (ps ++ Piece.token bar.kind [c] :: gs)) (textOf xs) (textOf rs) lead trail := by
  obtain ⟨t, g', rfl, hkind, rfl⟩ := hat
  obtain ⟨gs, rs, rfl, hgs, hspan, -⟩ := exists_gaps h.back
  have hall' := h.pieces_eq ▸ hall
  have hstart : t.span.start =
      Position.start.after (textOf (ps ++ Piece.token bar.kind [c] :: gs)) := by
    rw [hspan, h.span_eq]
    simp
  have htext : text = textOf (ps ++ Piece.token bar.kind [c] :: gs) ++
      textOf (.token t.kind t.lexeme :: rs) := by
    rw [← textOf_pieces hall', ← textOf_append]
    simp
  obtain ⟨trail, hadds⟩ := adds_above (textOf (ps ++ Piece.token bar.kind [c] :: gs))
    (textOf (.token t.kind t.lexeme :: rs)) blankLine
  rw [← htext, ← hstart] at hadds
  refine ⟨gs, [], .token t.kind t.lexeme :: rs, [], trail,
    ⟨rfl, hgs, by simp [IsGaps], ?_, hadds.lead_gap, hadds.trail_gap⟩, hadds⟩
  -- The gap ends in front of a token, and so anywhere.
  intro x _ hold r
  have hmem : Piece.token t.kind t.lexeme ∈
      ps ++ Piece.token bar.kind [c] :: (gs ++ Piece.token t.kind t.lexeme :: rs) := by
    simp
  obtain ⟨d, hd, hhead⟩ := exists_head? hall' hmem hkind
  exact hold.anywhere (hhead (textOf rs)) hd _

/-- Behind a binding there is room on the same line or on the next. -/
theorem Barrier.room_below {span : Span} (h : Barrier all f bar g ps c qs)
    (hall : pieces [] text = .ok all) (hat : (Placing.below span).At f bar g) :
    ∃ gs xs rs lead trail, Room qs gs xs rs lead trail ∧
      Adds text ((Placing.below span).put text)
        (textOf (ps ++ Piece.token bar.kind [c] :: gs)) (textOf xs) (textOf rs) lead trail := by
  obtain ⟨f₁, t, f₂, rfl, rfl⟩ := hat
  obtain ⟨ps₁, ps₂, rfl, -, hspan, -⟩ := Token.locate_eq_append h.front
  have hall' := h.pieces_eq ▸ hall
  have htext : text = textOf ps₁ ++
      (textOf (.token t.kind t.lexeme :: (ps₂ ++ [Piece.token bar.kind [c]])) ++ textOf qs) := by
    rw [← textOf_pieces hall']
    simp
  have hstart : t.span.start = Position.start.after (textOf ps₁) := by
    rw [hspan]
  have hstop : bar.span.stop = (Position.start.after (textOf ps₁)).after
      (textOf (.token t.kind t.lexeme :: (ps₂ ++ [Piece.token bar.kind [c]]))) := by
    rw [h.span_eq]
    simp
  obtain ⟨w, rest, lead, trail, hsplit, hline, hadds⟩ := adds_below (textOf ps₁)
    (textOf (.token t.kind t.lexeme :: (ps₂ ++ [Piece.token bar.kind [c]]))) (textOf qs)
  obtain ⟨gs, rs, rfl, hgs, rfl, rfl, hends⟩ : ∃ gs rs, qs = gs ++ rs ∧ IsGaps gs ∧
      textOf gs = w ∧ textOf rs = rest ∧ (gs = [] ∨ lead.head? = some '\n') := by
    rcases hline with rfl | ⟨hline, hlead⟩
    · exact ⟨[], qs, rfl, by simp [IsGaps], rfl, hsplit, .inl rfl⟩
    · obtain ⟨m, hm, hqs⟩ := h.exists_modes hall
      rw [hsplit] at hqs
      obtain ⟨gs, rs, rfl, hgs, hw, hrest⟩ := hline.exists_gaps hm hqs
      exact ⟨gs, rs, rfl, hgs, hw, hrest, .inr hlead⟩
  rw [← htext, ← hstop, ← hstart] at hadds
  have hfront :
      textOf (ps₁ ++ Piece.token t.kind t.lexeme :: ps₂ ++ Piece.token bar.kind [c] :: gs) =
      textOf ps₁ ++ textOf (.token t.kind t.lexeme :: (ps₂ ++ [Piece.token bar.kind [c]])) ++
        textOf gs := by
    simp
  refine ⟨gs, [], rs, lead, trail,
    ⟨rfl, hgs, by simp [IsGaps], ?_, hadds.lead_gap, hadds.trail_gap⟩, by rwa [hfront]⟩
  intro x hx _ r
  rcases hends with rfl | hlead
  · simp at hx
  · refine endsBefore_newline hgs hx ?_
    rw [List.head?_append, hlead]
    rfl

/-- A token starts behind some of the text. -/
theorem exists_text_before {ps : List Piece} {a b : List Token} {t : Token}
    (h : locate .start ps = a ++ t :: b) (r : Text) :
    ∃ u v, textOf ps ++ r = u ++ v ∧ t.span.start = Position.start.after u := by
  obtain ⟨ps₁, ps₂, rfl, -, hspan, -⟩ := Token.locate_eq_append h
  refine ⟨textOf ps₁, textOf (.token t.kind t.lexeme :: ps₂) ++ r, ?_, by rw [hspan]⟩
  rw [textOf_append, List.append_assoc]

/-- Between the braces of an empty set there is room behind the first of them. -/
theorem Barrier.room_inside {binding : KeyValue} (h : Barrier all f bar g ps c qs)
    (hall : pieces [] text = .ok all) (hat : (Placing.inside binding).At f bar g)
    (hclear : (Placing.inside binding).Clear text bar) :
    ∃ gs xs rs lead trail, Room qs gs xs rs lead trail ∧
      Adds text ((Placing.inside binding).put text)
        (textOf (ps ++ Piece.token bar.kind [c] :: gs)) (textOf xs) (textOf rs) lead trail := by
  obtain ⟨f₁, t, f₂, s, f₃, closing, g', hf, rfl, hkind, hclosing, hstart, hset⟩ := hat
  obtain ⟨xs, rs, rfl, hxs, hspan, -⟩ := exists_gaps h.back
  have hall' := h.pieces_eq ▸ hall
  obtain rfl := h.eq_brace hkind
  have hlexeme : closing.lexeme = ['}'] := by
    have hmem : Piece.token closing.kind closing.lexeme ∈
        ps ++ Piece.token bar.kind ['{'] ::
          (xs ++ Piece.token closing.kind closing.lexeme :: rs) := by
      simp
    rw [hclosing] at hmem hall'
    exact Scan.lexeme_eq hall' hmem rfl
  have hlocate : locate .start (ps ++ [Piece.token bar.kind ['{']]) = f ++ [bar] := by
    have hbar : (⟨bar.kind, ['{'], bar.span⟩ : Token) = bar := by
      rw [← h.lexeme_eq]
    rw [h.span_eq] at hbar
    rw [Token.locate_append, h.front, locate, hbar]
    rfl
  rw [hf] at hlocate
  have htext : text =
      textOf (ps ++ [Piece.token bar.kind ['{']]) ++ (textOf xs ++ '}' :: textOf rs) := by
    rw [← textOf_pieces hall']
    simp [hlexeme]
  obtain ⟨u, r, hu, htstart⟩ := exists_text_before hlocate (textOf xs ++ '}' :: textOf rs)
  obtain ⟨v, r', hv, hsstart⟩ : ∃ v r', textOf (ps ++ [Piece.token bar.kind ['{']]) ++
      (textOf xs ++ '}' :: textOf rs) = v ++ r' ∧ s.span.start = Position.start.after v := by
    have hlocate' :
        locate .start (ps ++ [Piece.token bar.kind ['{']]) = (f₁ ++ t :: f₂) ++ s :: f₃ := by
      rw [hlocate]
      simp
    exact exists_text_before hlocate' _
  rw [← htext] at hu hv
  have hsoffset : offsetOf text s.span.start = .ok v.length := by
    rw [hv, hsstart, offsetOf_after]
  have hindentation : indentationBefore text binding.span = .ok (text.indentation? u.length) := by
    have h := indentationBefore_after u r binding.span.stop
    rwa [← htstart, ← hstart, ← hu] at h
  have hstop : offsetOf text closing.span.stop =
      .ok ((textOf ps).length + ((textOf xs).length + 2)) := by
    have hoffset := offsetOf_after
      (textOf (ps ++ Piece.token bar.kind ['{'] :: (xs ++ [Piece.gap ['}']]))) (textOf rs)
    have hlength : (textOf (ps ++ Piece.token bar.kind ['{'] :: (xs ++ [Piece.gap ['}']]))).length =
        (textOf ps).length + ((textOf xs).length + 2) := by
      simp
    have hposition : closing.span.stop =
        Position.start.after (textOf (ps ++
          Piece.token bar.kind ['{'] :: (xs ++ [Piece.gap ['}']]))) := by
      rw [hspan, h.span_eq, hlexeme]
      simp
    rw [hlength, ← hposition] at hoffset
    rw [htext, ← hoffset]
    simp
  have hoffsets : offsetsOf text binding.value.span =
      .ok (v.length, (textOf ps).length + ((textOf xs).length + 2)) := by
    rw [hset, offsetsOf, hsoffset, hstop]
    rfl
  have hbrace : braceFrom text v.length = .ok (textOf ps).length := by
    rw [hclear v.length (by rw [hset, hsoffset]), h.span_eq, htext]
    simpa using offsetOf_after (textOf ps) ('{' :: (textOf xs ++ '}' :: textOf rs))
  have hsplit : text = textOf ps ++ '{' :: (textOf xs ++ '}' :: textOf rs) := by
    rw [htext]
    simp
  obtain ⟨removed, kept, lead, trail, hy, hone, hadds⟩ := adds_filling hsplit hoffsets hbrace
    hindentation fun indentation => isGap_of_indentation
  have hfront : textOf ps ++ ['{'] = textOf (ps ++ [Piece.token bar.kind ['{']]) := by simp
  rw [hfront] at hadds
  rcases hone with rfl | rfl
  · rw [List.nil_append] at hy
    subst hy
    refine ⟨[], [], xs ++ Piece.token closing.kind closing.lexeme :: rs, lead, trail,
      ⟨rfl, by simp [IsGaps], by simp [IsGaps], by simp, hadds.lead_gap, hadds.trail_gap⟩, ?_⟩
    simpa [hlexeme] using hadds
  · rw [List.append_nil] at hy
    subst hy
    refine ⟨[], xs, .token closing.kind closing.lexeme :: rs, lead, trail,
      ⟨rfl, by simp [IsGaps], hxs, by simp, hadds.lead_gap, hadds.trail_gap⟩, ?_⟩
    simpa [hlexeme] using hadds

/-- There is room for a declaration at any place between the tokens of a text. -/
theorem Barrier.exists_room {place : Placing} (h : Barrier all f bar g ps c qs)
    (hall : pieces [] text = .ok all) (hat : place.At f bar g) (hclear : place.Clear text bar) :
    ∃ gs xs rs lead trail, Room qs gs xs rs lead trail ∧
      Adds text (place.put text) (textOf (ps ++ Piece.token bar.kind [c] :: gs)) (textOf xs)
        (textOf rs) lead trail := by
  cases place with
  | above start blankLine => exact h.room_above hall hat
  | below span => exact h.room_below hall hat
  | inside binding => exact h.room_inside hall hat hclear

end

end Edit
end FlakeInputs
