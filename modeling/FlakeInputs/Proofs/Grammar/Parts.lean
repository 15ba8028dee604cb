import Mathlib.Data.List.Chain
import FlakeInputs.Proofs.Grammar.Slices

/-!
# The parts of a string literal

Between the delimiters of a string literal, text and interpolations stand in turn, with text first
and last.  Some of that text is empty, and the literal does not keep it.  The parts that it keeps
still tile what stands between its delimiters.
-/

namespace FlakeInputs

open Scan (Piece Mode textOf textOf_append kinds modesBehind inString pieces)

/-- Whether a part is text. -/
def Part.isText : Part → Bool
  | .text _ _ => true
  | .interpolation _ _ => false

/-- The delimiter and the parts of a string literal.  A quoted key is one, too. -/
def Subtree.literal? : Subtree → Option (Text × List Part)
  | .expr ⟨_, .string parts⟩ | .key (.quoted _ parts) => some (['"'], parts)
  | .expr ⟨_, .indentedString parts⟩ => some (['\x27', '\x27'], parts)
  | _ => none

namespace Grammar

/-! ## Tilings -/

/-- The parts stand between two offsets of a text, each where the one before it ends, and a part
that is text holds what stands there. -/
def Tiles (text : Text) : Nat → List Part → Nat → Prop
  | start, [], stop => start = stop
  | start, p :: ps, stop =>
    ∃ next, Edit.offsetsOf text p.span = .ok (start, next) ∧ start ≤ next ∧
      (∀ span content, p = .text span content → content = text.slice start next) ∧
      Tiles text next ps stop

theorem Tiles.eq_of_single {text : Text} {start stop : Nat} {p : Part}
    (h : Tiles text start [p] stop) : Edit.offsetsOf text p.span = .ok (start, stop) := by
  obtain ⟨next, hspan, -, -, rfl⟩ := h
  exact hspan

/-- A string literal from `start` to `stop` in a text with the given tokens.  From `first`, behind
the delimiter that opens it, to `last`, before the one that closes it, its parts tile the text.  No
two of them that are text are neighbours, and none is empty unless it is the only one. -/
structure Tiled (text : Text) (tokens : List Token) (span : Span) (delimiter : Text)
    (parts : List Part) (start first last stop : Nat) : Prop where
  offsets : Edit.offsetsOf text span = .ok (start, stop)
  first_eq : first = start + delimiter.length
  stop_eq : stop = last + delimiter.length
  first_le_last : first ≤ last
  opening : text.slice start first = delimiter
  closing : text.slice last stop = delimiter
  ne_nil : parts ≠ []
  tiles : Tiles text first parts last
  neighbours : parts.IsChain fun p q => ¬(p.isText = true ∧ q.isText = true)
  sole : ∀ span, .text span [] ∈ parts → parts = [.text span []]
  interior : ∀ span content, parts = [.text span content] →
    Edit.offsetsOf text span = .ok (first, last)
  single_iff : (∃ span content, parts = [.text span content]) ↔ ∀ p ∈ parts, p.isText = true
  tokens_eq : ∃ before opening inner closing after,
    tokens = before ++ opening :: (inner ++ closing :: after) ∧
      span = opening.span.join closing.span ∧
      ((∃ span content, parts = [.text span content]) ↔ ∀ t ∈ inner, t.kind ≠ .interpolation)

/-! ## Text and interpolations in turn -/

/-- The span of the pieces `ts`, with the pieces `us` in front of them. -/
def spanBehind (us ts : List Piece) : Span :=
  ⟨positionBehind us, positionBehind (us ++ ts)⟩

/-- The pieces `ts`, with the pieces `us` in front of them, are those of the parts: text and
interpolations in turn, with text first and last. -/
inductive Woven : List Piece → List Piece → List Part → Prop
  | last (us : List Piece) (x : Text) :
      Woven us [.token .text x] [.text (spanBehind us [.token .text x]) x]
  | step {us ts qs : List Piece} {e : Expr} {parts : List Part} (x : Text)
      (hts : .interpolation ∈ kinds ts) (h : Woven (us ++ [.token .text x] ++ ts) qs parts) :
      Woven us (.token .text x :: (ts ++ qs))
        (.text (spanBehind us [.token .text x]) x ::
          .interpolation (spanBehind (us ++ [.token .text x]) ts) e :: parts)

namespace Woven

variable {us ts : List Piece} {parts : List Part}

/-- The parts that a literal keeps: its only one, or all that are not empty text, with an
interpolation among them. -/
theorem compact_cases (h : Woven us ts parts) :
    (∃ x, ts = [.token .text x] ∧ Part.compact parts = [.text (spanBehind us ts) x]) ∨
      (Part.compact parts = parts.filter (fun p => !p.isEmpty) ∧ .interpolation ∈ kinds ts ∧
        ∃ p ∈ Part.compact parts, p.isText = false) := by
  cases h with
  | last us x => exact .inl ⟨x, rfl, Part.compact_singleton _⟩
  | @step _ ts qs e parts x hts _ =>
    refine .inr ?_
    generalize Part.text (spanBehind us [.token .text x]) x = first,
      spanBehind (us ++ [Piece.token .text x]) ts = span
    have hmem : Part.interpolation span e ∈
        (first :: .interpolation span e :: parts).filter fun p => !p.isEmpty := by
      simp [Part.isEmpty]
    have hcompact : Part.compact (first :: .interpolation span e :: parts) =
        (first :: .interpolation span e :: parts).filter fun p => !p.isEmpty := by
      unfold Part.compact
      split
      · next hnil =>
        rw [hnil] at hmem
        exact absurd hmem List.not_mem_nil
      · rfl
    refine ⟨hcompact, ?_, _, hcompact ▸ hmem, rfl⟩
    rw [Scan.kinds_token, Scan.kinds_append]
    exact List.mem_cons_of_mem _ (List.mem_append_left _ hts)

/-- Between two texts an interpolation stands, which is never left out. -/
theorem isChain_filter (h : Woven us ts parts) :
    (parts.filter fun p => !p.isEmpty).IsChain fun p q => ¬(p.isText = true ∧ q.isText = true) := by
  induction h with
  | last us x =>
    by_cases hx : x = []
    · rw [List.filter_cons_of_neg (by simp [Part.isEmpty, hx])]
      exact .nil
    · rw [List.filter_cons_of_pos (by simpa [Part.isEmpty] using hx)]
      exact .singleton _
  | @step us ts qs e parts x _ _ ih =>
    have hbehind := ih.cons (x := .interpolation (spanBehind (us ++ [Piece.token .text x]) ts) e)
      (by simp [Part.isText])
    by_cases hx : x = []
    · rw [List.filter_cons_of_neg (by simp [Part.isEmpty, hx])]
      exact hbehind
    · rw [List.filter_cons_of_pos (by simpa [Part.isEmpty] using hx)]
      exact hbehind.cons (by simp [Part.isText, Part.isEmpty])

/-- A part behind others. -/
theorem tiles_cons {vs : List Piece} {p : Part} {ps : List Part} {stop : Nat}
    (hspan : p.span = spanBehind us ts)
    (hcontent : ∀ span content, p = .text span content → content = textOf ts)
    (h : Tiles (textOf (us ++ ts ++ vs)) (textOf (us ++ ts)).length ps stop) :
    Tiles (textOf (us ++ (ts ++ vs))) (textOf us).length (p :: ps) stop := by
  refine ⟨_, ?_, length_textOf_le us ts, ?_, by rwa [List.append_assoc] at h⟩
  · rw [hspan]
    exact offsetsOf_positionBehind us ts vs
  · intro span content hp
    rw [slice_textOf]
    exact hcontent span content hp

theorem tiles_text {x : Text} {vs : List Piece} {ps : List Part} {stop : Nat}
    (h : Tiles (textOf (us ++ [Piece.token .text x] ++ vs))
      (textOf (us ++ [Piece.token .text x])).length ps stop) :
    Tiles (textOf (us ++ Piece.token .text x :: vs)) (textOf us).length
      (.text (spanBehind us [.token .text x]) x :: ps) stop := by
  rw [← List.singleton_append]
  refine tiles_cons rfl ?_ h
  rintro span content heq
  obtain ⟨-, rfl⟩ := Part.text.inj heq
  simp

/-- What is left of the parts without the empty text tiles their pieces. -/
theorem tiles_filter (h : Woven us ts parts) (vs : List Piece) :
    Tiles (textOf (us ++ (ts ++ vs))) (textOf us).length (parts.filter fun p => !p.isEmpty)
      (textOf (us ++ ts)).length := by
  induction h with
  | last us x =>
    by_cases hx : x = []
    · rw [List.filter_cons_of_neg (by simp [Part.isEmpty, hx])]
      simp [Tiles, hx]
    · rw [List.filter_cons_of_pos (by simpa [Part.isEmpty] using hx)]
      exact tiles_text (show Tiles _ _ [] _ from rfl)
  | @step us ts qs e parts x _ _ ih =>
    have hbehind : Tiles (textOf (us ++ [Piece.token .text x] ++ (ts ++ (qs ++ vs))))
        (textOf (us ++ [Piece.token .text x])).length _ _ :=
      tiles_cons (p := .interpolation (spanBehind (us ++ [Piece.token .text x]) ts) e) rfl
        (by simp) ih
    have hpieces : us ++ [Piece.token .text x] ++ ts ++ qs =
        us ++ Piece.token .text x :: (ts ++ qs) := by
      simp
    rw [hpieces] at hbehind
    rw [List.cons_append, List.append_assoc ts]
    by_cases hx : x = []
    · rw [List.filter_cons_of_neg (by simp [Part.isEmpty, hx])]
      simpa [hx, Part.isEmpty] using hbehind
    · rw [List.filter_cons_of_pos (by simpa [Part.isEmpty] using hx)]
      exact tiles_text hbehind

/-- The parts that a literal keeps tile their pieces. -/
theorem tiles_compact (h : Woven us ts parts) (vs : List Piece) :
    Tiles (textOf (us ++ (ts ++ vs))) (textOf us).length (Part.compact parts)
      (textOf (us ++ ts)).length := by
  rcases h.compact_cases with ⟨x, rfl, hcompact⟩ | ⟨hcompact, -⟩
  · rw [hcompact]
    exact tiles_text (show Tiles _ _ [] _ from rfl)
  · rw [hcompact]
    exact h.tiles_filter vs

theorem compact_ne_nil (h : Woven us ts parts) : Part.compact parts ≠ [] := by
  rcases h.compact_cases with ⟨x, -, hcompact⟩ | ⟨-, -, p, hp, -⟩
  · rw [hcompact]
    exact List.cons_ne_nil _ _
  · exact List.ne_nil_of_mem hp

theorem isChain_compact (h : Woven us ts parts) :
    (Part.compact parts).IsChain fun p q => ¬(p.isText = true ∧ q.isText = true) := by
  rcases h.compact_cases with ⟨x, -, hcompact⟩ | ⟨hcompact, -⟩
  · rw [hcompact]
    exact .singleton _
  · rw [hcompact]
    exact h.isChain_filter

/-- Empty text is kept only by itself. -/
theorem eq_of_empty {span : Span} (h : Woven us ts parts)
    (hmem : .text span [] ∈ Part.compact parts) : Part.compact parts = [.text span []] := by
  rcases h.compact_cases with ⟨x, -, hcompact⟩ | ⟨hcompact, -⟩
  · rw [hcompact] at hmem ⊢
    rw [List.mem_singleton.1 hmem]
  · rw [hcompact, List.mem_filter] at hmem
    exact Bool.noConfusion hmem.2

/-- What the parts that a literal keeps have to do with the interpolations among its tokens. -/
theorem single_iff (h : Woven us ts parts) :
    ((∃ span content, Part.compact parts = [.text span content]) ↔
      ∀ p ∈ Part.compact parts, p.isText = true) ∧
    ((∃ span content, Part.compact parts = [.text span content]) ↔ .interpolation ∉ kinds ts) := by
  rcases h.compact_cases with ⟨x, rfl, hcompact⟩ | ⟨-, hmem, p, hp, hpart⟩
  · rw [hcompact]
    exact ⟨iff_of_true ⟨_, _, rfl⟩ (by simp [Part.isText]), iff_of_true ⟨_, _, rfl⟩ (by simp)⟩
  · have hsingle : ¬∃ span content, Part.compact parts = [.text span content] := by
      rintro ⟨span, content, hparts⟩
      rw [hparts, List.mem_singleton] at hp
      rw [hp] at hpart
      exact Bool.noConfusion hpart
    refine ⟨iff_of_false hsingle fun hall => ?_, iff_of_false hsingle fun hnot => hnot hmem⟩
    exact Bool.noConfusion (hpart.symm.trans (hall p hp))

end Woven

/-! ## What a literal spells -/

section
variable {delimiter : TokenKind} {us ts : List Piece} {p q : List Token} {t : Token}
  {parts : List Part}

theorem Derives.parts_of_nil (h : Derives (.parts delimiter) [] parts) : parts = [] := by
  generalize htokens : ([] : List Token) = tokens at h
  cases h with
  | noPart => rfl
  | textPart => exact absurd htokens (List.cons_ne_nil _ _).symm
  | interpolationPart h =>
    have hp := (List.append_eq_nil_iff.1 htokens.symm).1
    exact absurd h.begins (by rw [hp]; decide)

theorem Derives.parts_of_text (h : Derives (.parts delimiter) (t :: q) parts)
    (ht : t.kind = .text) :
    ∃ parts', parts = .text t.span t.lexeme :: parts' ∧ Derives (.parts delimiter) q parts' := by
  generalize htokens : t :: q = tokens at h
  cases h with
  | noPart => exact absurd htokens (List.cons_ne_nil _ _)
  | textPart _ hparts =>
    obtain ⟨rfl, rfl⟩ := List.cons.inj htokens
    exact ⟨_, rfl, hparts⟩
  | @interpolationPart _ _ r _ _ _ h =>
    have hhead := headKind_append_of_begins rfl h.begins r
    rw [← htokens, headKind_cons, ht] at hhead
    exact absurd h.begins (by rw [← hhead]; decide)

theorem Derives.parts_of_interpolation (h : Derives (.parts delimiter) (t :: q) parts)
    (ht : t.kind ≠ .text) :
    ∃ p r span e parts', t :: q = p ++ r ∧ parts = .interpolation span e :: parts' ∧
      Derives .interpolation p (span, e) ∧ Derives (.parts delimiter) r parts' := by
  generalize htokens : t :: q = tokens at h
  cases h with
  | noPart => exact absurd htokens (List.cons_ne_nil _ _)
  | textPart htext =>
    obtain ⟨rfl, -⟩ := List.cons.inj htokens
    exact absurd htext ht
  | interpolationPart h hparts => exact ⟨_, _, _, _, _, rfl, rfl, h, hparts⟩

/-- The pieces of the first of some tokens, if the pieces begin with a token. -/
theorem exists_pieces_first {kind : TokenKind} {x : Text}
    (h : tokensBehind us (.token kind x :: ts) = p ++ q) (hp : p ≠ []) :
    ∃ rs vs, .token kind x :: ts = rs ++ vs ∧ tokensBehind us rs = p ∧
      tokensBehind (us ++ rs) vs = q ∧ Frames p (spanBehind us rs) ∧
      rs.getLast? = p.getLast?.map Token.piece := by
  obtain ⟨gs, rs, vs, heq, hgs, hrs, hvs, hframes, -, hlast⟩ :=
    Token.exists_pieces (a := []) (q := p) (b := q) h hp
  cases gs with
  | nil =>
    refine ⟨rs, vs, heq, hrs, ?_, ?_, hlast⟩
    · rwa [tokensBehind, positionBehind_append]
    · rwa [spanBehind, positionBehind_append]
  | cons g gs =>
    obtain ⟨rfl, -⟩ := List.cons.inj heq
    exact absurd hgs (List.cons_ne_nil _ _)

/-- The pieces of an interpolation begin with the token that opens it and end with a brace. -/
theorem Derives.pieces_interpolation {rs : List Piece} {span : Span} {e : Expr}
    (h : Derives .interpolation (tokensBehind us rs) (span, e))
    (hframes : Frames (tokensBehind us rs) (spanBehind us rs))
    (hlast : rs.getLast? = (tokensBehind us rs).getLast?.map Token.piece) :
    span = spanBehind us rs ∧ .interpolation ∈ kinds rs ∧
      ∃ x, rs.getLast? = some (.token .braceClose x) := by
  have hspan := h.frames_interpolation
  have hkinds : (tokensBehind us rs).map Token.kind = kinds rs := Scan.map_kind_locate _ rs
  generalize tokensBehind us rs = tokens at *
  refine ⟨?_, ?_⟩
  · have hstart := Option.some.inj (hspan.start.symm.trans hframes.start)
    have hstop := Option.some.inj (hspan.stop.symm.trans hframes.stop)
    cases span
    exact congrArg₂ Span.mk hstart hstop
  · cases h with
    | @interpolation opening closing p _ hopening _ hclosing =>
      rw [← List.cons_append, List.getLast?_concat, Option.map_some, Token.piece, hclosing] at hlast
      refine ⟨?_, _, hlast⟩
      rw [← hkinds, List.map_cons, hopening]
      exact List.mem_cons_self

end

/-- The parts between the delimiters of a string literal are text and interpolations in turn. -/
theorem Derives.woven {delimiter : TokenKind} {us ts vs : List Piece} {parts : List Part}
    {closing : Piece} {t : Text} (h : Derives (.parts delimiter) (tokensBehind us ts) parts)
    (hpieces : pieces [] t = .ok (us ++ (ts ++ closing :: vs)))
    (hclosing : ∀ x, closing ≠ .token .text x) (hm : inString (modesBehind [] (kinds us)) = true)
    (hus : ∀ x, us.getLast? ≠ some (.token .text x)) : Woven us ts parts := by
  induction hn : ts.length using Nat.strongRecOn generalizing us ts parts with
  | _ n ih =>
    subst hn
    -- In the string, text comes first, and then the closing delimiter or an interpolation.
    obtain ⟨u, r, m, -, hrun, hrest⟩ := Scan.exists_run hpieces hus
    rw [← Scan.modesAfter_eq, ← hrun.modes_eq] at hm
    obtain ⟨x, kind, qs, -, heq, hkind, -⟩ := Scan.exists_text_first hrest hm
    rw [hrun.modes_eq, Scan.modesAfter_eq] at hm
    obtain ⟨ts, rfl⟩ : ∃ ts', ts = .token .text x :: ts' := by
      cases ts with
      | nil => exact absurd (List.cons.inj heq).1 (hclosing x)
      | cons p ts => exact ⟨ts, by rw [(List.cons.inj heq).1]⟩
    have hfirst : tokensBehind us (.token .text x :: ts) =
        ⟨.text, x, spanBehind us [.token .text x]⟩ ::
          tokensBehind (us ++ [Piece.token .text x]) ts := by
      rw [tokensBehind, tokensBehind, Token.locate, spanBehind, positionBehind_append]
      simp
    rw [hfirst] at h
    obtain ⟨parts, rfl, hparts⟩ := h.parts_of_text rfl
    cases ts with
    | nil =>
      obtain rfl := hparts.parts_of_nil
      exact .last us x
    | cons p ts =>
      obtain rfl : p = .token kind kind.name.toList := (List.cons.inj (List.cons.inj heq).2).1
      have hne : kind ≠ .text := by
        rintro rfl
        exact absurd hkind (by decide)
      obtain ⟨p, q, span, e, parts, htokens, rfl, hinterpolation, hbehind⟩ :=
        hparts.parts_of_interpolation hne
      obtain ⟨rs, qs, hsplit, rfl, rfl, hframes, hlast⟩ :=
        exists_pieces_first htokens hinterpolation.frames_interpolation.start.ne_nil
      obtain ⟨hspan, hopened, y, hclosed⟩ := hinterpolation.pieces_interpolation hframes hlast
      rw [hsplit] at hpieces ⊢
      subst hspan
      have hshorter :
          qs.length < (.token .text x :: .token kind kind.name.toList :: ts).length := by
        have hlength := congrArg List.length hsplit
        simp only [List.length_cons, List.length_append] at hlength ⊢
        omega
      have hmodes : modesBehind [] (kinds (us ++ [Piece.token .text x] ++ rs)) =
          modesBehind [] (kinds us) := by
        rw [← behind_tokens, (hinterpolation.phrase trivial).modes, Scan.kinds_append,
          Scan.modesBehind_append]
        rfl
      refine .step x hopened (ih qs.length hshorter hbehind ?_ (hmodes ▸ hm) ?_ rfl)
      · simpa using hpieces
      · intro z hz
        rw [List.getLast?_append, hclosed] at hz
        simp at hz

/-! ## Literals in a text -/

/-- The tokens of a string literal: delimiters of one kind around its parts, of which it keeps the
compact ones. -/
inductive Quotation : List Token → Span → Text → List Part → Prop
  | intro {kind : TokenKind} {opening closing : Token} {p : List Token} {parts : List Part}
      (hkind : kind ∈ [.quote, .indentQuote]) (hopening : opening.kind = kind)
      (h : Derives (.parts kind) p parts) (hclosing : closing.kind = kind) :
      Quotation (opening :: (p ++ [closing])) (opening.span.join closing.span) kind.name.toList
        (Part.compact parts)

section
variable {q : List Token} {span : Span} {parts : List Part}

theorem Derives.quotation {kind : TokenKind} {expected : Expected}
    (h : Derives (.literal kind expected) q (span, parts)) (hkind : kind ∈ [.quote, .indentQuote]) :
    Quotation q span kind.name.toList parts := by
  cases h with
  | literal hopening hparts hclosing => exact .intro hkind hopening hparts hclosing

theorem Derives.quotation_string (h : Derives .simple q ⟨span, .string parts⟩)
    (hparen : headKind q ≠ some .parenOpen) : Quotation q span ['"'] parts := by
  cases h with
  | string h => exact h.quotation (by decide)
  | parenthesised hopening => exact absurd (congrArg some hopening) hparen

theorem Derives.quotation_indentedString (h : Derives .simple q ⟨span, .indentedString parts⟩)
    (hparen : headKind q ≠ some .parenOpen) : Quotation q span ['\x27', '\x27'] parts := by
  cases h with
  | indentedString h => exact h.quotation (by decide)
  | parenthesised hopening => exact absurd (congrArg some hopening) hparen

end

section
variable {us ts vs : List Piece} {x : Subtree} {delimiter : Text} {parts : List Part}

theorem Placed.quotation (h : Placed us ts x) (hx : x.literal? = some (delimiter, parts)) :
    inString (modesBehind [] (kinds us)) = false ∧
      Quotation (tokensBehind us ts) x.span delimiter parts := by
  unfold Subtree.literal? at hx
  split at hx
  case h_4 => simp at hx
  all_goals obtain ⟨rfl, rfl⟩ := Prod.mk.inj (Option.some.inj hx)
  · obtain ⟨hm, hderives, hparen⟩ := h.formed rfl
    exact ⟨hm, hderives.quotation_string hparen⟩
  · obtain ⟨hm, hderives, hparen⟩ := h.formed
    exact ⟨hm, hderives.quotation_string hparen⟩
  · obtain ⟨hm, hderives, hparen⟩ := h.formed rfl
    exact ⟨hm, hderives.quotation_indentedString hparen⟩

theorem inString_of_opening {kind : TokenKind} {m : List Mode}
    (hkind : kind ∈ [.quote, .indentQuote]) (hm : inString m = false) :
    inString ((Piece.token kind []).modes m) = true := by
  rcases List.mem_pair.1 hkind with rfl | rfl
  · rw [Piece.modes_quote hm]
    rfl
  · rw [Piece.modes_indentQuote hm]
    rfl

/-- The pieces between the first token of a node and the last one. -/
theorem Placed.exists_inner {opening closing : Token} {p : List Token} (h : Placed us ts x)
    (htokens : tokensBehind us ts = opening :: (p ++ [closing])) :
    ∃ qs, ts = opening.piece :: (qs ++ [closing.piece]) ∧
      tokensBehind (us ++ [opening.piece]) qs = p := by
  have hfirst := h.first
  have hlast := h.last
  rw [htokens] at hfirst hlast
  obtain ⟨rs, rfl⟩ := List.head?_eq_some_iff.1 hfirst
  rw [← List.cons_append, List.getLast?_concat] at hlast
  have hrs : tokensBehind (us ++ [opening.piece]) rs = p ++ [closing] := by
    have hcons := (List.cons.inj htokens).2
    rwa [tokensBehind, positionBehind_append, textOf, List.flatMap_singleton]
  obtain ⟨qs, rfl⟩ : ∃ qs, rs = qs ++ [closing.piece] := by
    cases rs with
    | nil => exact absurd hrs.symm (by simp [tokensBehind, Token.locate])
    | cons r rs =>
      rw [List.getLast?_cons_cons] at hlast
      exact List.getLast?_eq_some_iff.1 hlast
  refine ⟨qs, rfl, ?_⟩
  rw [tokensBehind, Token.locate_append] at hrs
  exact List.append_inj_left' hrs rfl

/-- The parts of a string literal are kept from text and interpolations in turn. -/
theorem Placed.exists_woven (h : Placed us ts x)
    (hpieces : pieces [] (textOf (us ++ (ts ++ vs))) = .ok (us ++ (ts ++ vs)))
    (hx : x.literal? = some (delimiter, parts)) :
    ∃ kind opening closing qs raw, kind.name.toList = delimiter ∧ delimiter ≠ [] ∧
      ts = .token kind delimiter :: (qs ++ [Piece.token kind delimiter]) ∧
      tokensBehind us ts =
        opening :: (tokensBehind (us ++ [Piece.token kind delimiter]) qs ++ [closing]) ∧
      x.span = opening.span.join closing.span ∧
      Woven (us ++ [Piece.token kind delimiter]) qs raw ∧ parts = Part.compact raw := by
  obtain ⟨hm, hquotation⟩ := h.quotation hx
  generalize htokens : tokensBehind us ts = tokens, hspan : x.span = span at hquotation
  cases hquotation with
  | @intro kind opening closing p raw hkind hopening hparts hclosing =>
    obtain ⟨qs, rfl, rfl⟩ := h.exists_inner htokens
    have hspelled : ∀ t : Token, t.kind = kind →
        t.piece ∈ us ++ (opening.piece :: (qs ++ [closing.piece]) ++ vs) →
        t.piece = .token kind kind.name.toList := by
      rintro t rfl hmem
      have hopen : ∀ kind ∈ [TokenKind.quote, .indentQuote], Scan.isOpen kind = false := by decide
      rw [← Scan.lexeme_eq hpieces hmem (hopen _ hkind)]
      rfl
    have hfirst := hspelled opening hopening (by simp)
    have hlast := hspelled closing hclosing (by simp)
    rw [hfirst] at hparts htokens hpieces ⊢
    rw [hlast] at hpieces ⊢
    have hne : ∀ kind ∈ [TokenKind.quote, .indentQuote],
        kind.name.toList ≠ [] ∧ kind ≠ .text := by decide
    have hwoven : Woven (us ++ [Piece.token kind kind.name.toList]) qs raw := by
      rw [show us ++
          (Piece.token kind kind.name.toList :: (qs ++ [Piece.token kind kind.name.toList]) ++ vs) =
        us ++ [Piece.token kind kind.name.toList] ++
          (qs ++ Piece.token kind kind.name.toList :: vs) by simp] at hpieces
      refine hparts.woven hpieces (fun y heq => ?_) ?_ fun y hy => ?_
      · exact (hne kind hkind).2 (Piece.token.inj heq).1
      · rw [Scan.kinds_append, Scan.modesBehind_append]
        exact inString_of_opening hkind hm
      · rw [List.getLast?_concat, Option.some.injEq] at hy
        exact (hne kind hkind).2 (Piece.token.inj hy).1
    exact ⟨kind, opening, closing, qs, raw, rfl, (hne kind hkind).1, rfl, rfl, rfl, hwoven, rfl⟩

/-- The parts of a string literal tile it. -/
theorem Placed.exists_tiled (h : Placed us ts x)
    (hpieces : pieces [] (textOf (us ++ (ts ++ vs))) = .ok (us ++ (ts ++ vs)))
    (hx : x.literal? = some (delimiter, parts)) :
    ∃ start first last stop, Tiled (textOf (us ++ (ts ++ vs)))
      (Token.locate .start (us ++ (ts ++ vs))) x.span delimiter parts start first last stop := by
  obtain ⟨kind, opening, closing, qs, raw, -, -, rfl, htokens, hspan, hwoven, rfl⟩ :=
    h.exists_woven hpieces hx
  generalize hinside : us ++ [Piece.token kind delimiter] = inside at htokens hwoven
  have hfront : inside ++ (qs ++ Piece.token kind delimiter :: vs) =
      us ++ (Piece.token kind delimiter :: (qs ++ [Piece.token kind delimiter]) ++ vs) := by
    simp [← hinside]
  have hback : inside ++ qs ++ ([Piece.token kind delimiter] ++ vs) =
      us ++ (Piece.token kind delimiter :: (qs ++ [Piece.token kind delimiter]) ++ vs) := by
    simp [← hinside]
  have hwhole : inside ++ qs ++ [Piece.token kind delimiter] =
      us ++ Piece.token kind delimiter :: (qs ++ [Piece.token kind delimiter]) := by
    simp [← hinside]
  have htokens : Token.locate .start
      (us ++ (Piece.token kind delimiter :: (qs ++ [Piece.token kind delimiter]) ++ vs)) =
      tokensBehind [] us ++ opening :: (tokensBehind inside qs ++ closing ::
        tokensBehind (us ++
          Piece.token kind delimiter :: (qs ++ [Piece.token kind delimiter])) vs) := by
    rw [locate_start_append, htokens, List.cons_append, List.append_assoc]
    rfl
  have hplain : (∃ span content, Part.compact raw = [.text span content]) ↔
      ∀ t ∈ tokensBehind inside qs, t.kind ≠ .interpolation := by
    rw [hwoven.single_iff.2, ← Scan.map_kind_locate (positionBehind inside) qs]
    simp [tokensBehind]
  have htiles := hwoven.tiles_compact (.token kind delimiter :: vs)
  have hopening := slice_textOf us [.token kind delimiter] (qs ++ Piece.token kind delimiter :: vs)
  have hclosing := slice_textOf (inside ++ qs) [.token kind delimiter] vs
  rw [hfront] at htiles
  rw [← List.append_assoc, hinside, hfront] at hopening
  rw [hback, hwhole] at hclosing
  refine ⟨(textOf us).length, (textOf inside).length, (textOf (inside ++ qs)).length,
    (textOf (us ++ Piece.token kind delimiter :: (qs ++ [Piece.token kind delimiter]))).length, ?_⟩
  exact
    { offsets := h.offsets vs
      first_eq := by simp [← hinside]
      stop_eq := by rw [← hwhole, textOf_append, List.length_append]; simp
      first_le_last := length_textOf_le inside qs
      opening := by simpa using hopening
      closing := by simpa using hclosing
      ne_nil := hwoven.compact_ne_nil
      tiles := htiles
      neighbours := hwoven.isChain_compact
      sole := fun span hmem => hwoven.eq_of_empty hmem
      interior := fun span content hparts => (hparts ▸ htiles).eq_of_single
      single_iff := hwoven.single_iff.1
      tokens_eq := ⟨_, opening, _, closing, _, htokens, hspan, hplain⟩ }

end

end Grammar

/-- The parts of every string literal in a parsed text tile what stands between its delimiters. -/
theorem Expr.tiled_of_parse {text : Text} {e : Expr} (h : Expr.parse text = .ok e) :
    ∃ tokens, Token.tokenize text = .ok tokens ∧
      ∀ x delimiter parts, (Subtree.expr e).Contains x → x.literal? = some (delimiter, parts) →
        ∃ start first last stop,
          Grammar.Tiled text tokens x.span delimiter parts start first last stop := by
  obtain ⟨ps, hps, hderives⟩ := Expr.parse_eq_ok.1 h
  obtain rfl := Scan.textOf_pieces hps
  refine ⟨_, Token.tokenize_eq_ok.2 ⟨ps, hps, rfl⟩, ?_⟩
  intro x delimiter parts hx hliteral
  obtain ⟨us, ts, vs, rfl, hplaced⟩ := hderives.exists_placed hx
  exact hplaced.exists_tiled hps hliteral

theorem Expr.tiled_of_parse_interpolation :
    ∃ (text : Text) (e : Expr) (tokens : List Token) (x : Subtree) (delimiter : Text)
      (parts : List Part),
      text = "\x7b a = ''b ''$\x7b$\x7bc\x7d$\x7b\"d\"\x7d''; \x7d".toList ∧
      Expr.parse text = .ok e ∧ Token.tokenize text = .ok tokens ∧ (Subtree.expr e).Contains x ∧
      x.literal? = some (delimiter, parts) ∧ parts.length = 3 ∧
      ∃ start first last stop,
        Grammar.Tiled text tokens x.span delimiter parts start first last stop := by
  have hparse : (Expr.parse
      "\x7b a = ''b ''$\x7b$\x7bc\x7d$\x7b\"d\"\x7d''; \x7d".toList).toOption.any (fun e =>
        (Subtree.expr e).children.any fun y =>
          y.children.any fun x => x.literal?.any fun found => found.2.length == 3) = true := by
    decide +kernel
  obtain ⟨e, he, htest⟩ := Outcome.exists_of_any hparse
  obtain ⟨y, hy, htest⟩ := List.any_eq_true.1 htest
  obtain ⟨x, hx, hliteral⟩ := List.any_eq_true.1 htest
  obtain ⟨⟨delimiter, parts⟩, hliteral, hlength⟩ := (Option.any_eq_true _ _).1 hliteral
  have hcontains : (Subtree.expr e).Contains x := (Relation.ReflTransGen.single hy).tail hx
  obtain ⟨tokens, htokens, htiled⟩ := Expr.tiled_of_parse he
  exact ⟨_, e, tokens, x, delimiter, parts, rfl, he, htokens, hcontains, hliteral,
    beq_iff_eq.1 hlength, htiled x delimiter parts hcontains hliteral⟩

end FlakeInputs
