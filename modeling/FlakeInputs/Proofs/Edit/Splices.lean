import FlakeInputs.Proofs.Edit.Results

/-!
# Splices

An edit replaces one stretch of a text.  Where a declaration goes and what is written around it
is read off the text before anything is written: the text in front of the place, the rest of its
line, and how lines end.
-/

namespace FlakeInputs
namespace Edit

open Grammar Scan
open Token (locate)

/-! ## One splice and two -/

/-- A stretch of a text and what takes its place. -/
structure Splice where
  start : Nat
  stop : Nat
  replacement : Text
deriving DecidableEq, Repr

namespace Splice

/-- The text with the stretch replaced. -/
def apply (s : Splice) (text : Text) : Text :=
  text.take s.start ++ s.replacement ++ text.drop s.stop

/-- The stretch is one of the text. -/
structure Within (s : Splice) (text : Text) : Prop where
  order : s.start ≤ s.stop
  bound : s.stop ≤ text.length

/-- The text with two stretches replaced, each where it stands in the text; `a` is the one in
front. -/
def applyBoth (a b : Splice) (text : Text) : Text :=
  text.take a.start ++ a.replacement ++ text.slice a.stop b.start ++ b.replacement ++
    text.drop b.stop

variable {text : Text} {a b s : Splice}

theorem Within.splice_eq (h : s.Within text) :
    Edit.splice text s.start s.stop s.replacement = .ok (s.apply text) := by
  obtain ⟨horder, hbound⟩ := h
  rw [Edit.splice, if_pos (by omega)]
  rfl

/-- The splice that is later in the text can be made first: then the other one is still where it
was. -/
theorem apply_apply (ha : a.start ≤ a.stop) (hb : b.Within text) (hab : a.stop ≤ b.start) :
    a.apply (b.apply text) = applyBoth a b text := by
  obtain ⟨horder, hbound⟩ := hb
  have hlength : (text.take b.start).length = b.start := by
    rw [List.length_take]
    omega
  rw [apply, apply, applyBoth, List.append_assoc (text.take b.start),
    List.take_append_of_le_length (by omega), List.drop_append_of_le_length (by omega),
    List.take_take, Nat.min_eq_left (by omega), Text.slice]
  simp

/-- A splice that changes nothing at a point writes nothing. -/
theorem replacement_eq_nil (h : s.Within text) (hpoint : s.start = s.stop)
    (hsame : s.apply text = text) : s.replacement = [] := by
  obtain ⟨-, hbound⟩ := h
  have hlength := congrArg List.length hsame
  simp only [apply, List.length_append, List.length_take, List.length_drop] at hlength
  rw [← List.length_eq_zero_iff]
  omega

end Splice

/-! ## Where a declaration goes -/

/-- Where a declaration goes in a text: the stretch whose place it takes, and what is written
around it. -/
structure Cut where
  start : Nat
  stop : Nat
  lead : Text
  trail : Text
deriving DecidableEq, Repr

/-- The splice that writes a declaration. -/
def Cut.splice (c : Cut) (declaration : Text) : Splice :=
  ⟨c.start, c.stop, c.lead ++ (declaration ++ c.trail)⟩

/-- The cut above a place at the end of `before`. -/
def cutAbove (before newline : Text) (blankLine : Bool) : Cut :=
  match before.indentation? before.length with
  | none => ⟨before.length, before.length, [], [' ']⟩
  | some indentation => ⟨before.length, before.length, [],
      (if blankLine then newline ++ newline else newline) ++ indentation⟩

/-- The cut below a stretch that starts at the end of `before`; `line` is the rest of its line. -/
def cutBelow (before stretch line : Text) : Cut :=
  match before.indentation? before.length, lineIsBlank line with
  | some indentation, true =>
    let whole := before ++ stretch ++ line
    if whole.getLast? = some '\r' then
      ⟨whole.length - 1, whole.length - 1, '\r' :: '\n' :: indentation, []⟩
    else ⟨whole.length, whole.length, '\n' :: indentation, []⟩
  | _, _ => ⟨(before ++ stretch).length, (before ++ stretch).length, [' '], []⟩

/-- The cut in a set whose brace stands behind `front`, with `inner` between the braces.  The
binding starts at the end of `before`. -/
def cutInside (before front inner newline : Text) : Cut :=
  match before.indentation? before.length with
  | none =>
    if inner.isBlank then ⟨front.length, front.length + (inner.length + 2), ['{', ' '], [' ', '}']⟩
    else ⟨front.length + 1, front.length + 1, [' '], []⟩
  | some indentation =>
    let lead := newline ++ indentation ++ nestedIndent
    if inner.isBlank then
      ⟨front.length, front.length + (inner.length + 2), '{' :: lead,
        newline ++ indentation ++ ['}']⟩
    else ⟨front.length + 1, front.length + 1, lead, []⟩

/-- A place is cut in one way, whatever the declaration is. -/
def Cuts (place : Placing) (text : Text) (c : Cut) : Prop :=
  ∀ declaration, place.put text declaration =
    splice text c.start c.stop (c.lead ++ (declaration ++ c.trail))

theorem indentation?_append (u r : Text) :
    (u ++ r).indentation? u.length = u.indentation? u.length := by
  simp [Text.indentation?, Text.lineStart, Text.slice]

theorem cuts_above (u r : Text) (blankLine : Bool) :
    Cuts (.above (Position.start.after u) blankLine) (u ++ r)
      (cutAbove u (u ++ r).newline blankLine) := by
  intro declaration
  simp only [Placing.put, insertAbove, Span.point, offsetOf_after, indentationBefore_after,
    Outcome.ok_bind, indentation?_append, cutAbove]
  cases u.indentation? u.length with
  | none => rfl
  | some indentation =>
    simp only [insertAt, List.append_assoc, List.nil_append]

/-- The last character of the beginning of a text. -/
theorem getElem?_last (front back : Text) (c : Char) :
    (0 < front.length && (front ++ back)[front.length - 1]? == some c) =
      decide (front.getLast? = some c) := by
  rcases List.eq_nil_or_concat front with rfl | ⟨front, d, rfl⟩
  · simp
  · simp [Bool.beq_eq_decide_eq]

theorem cuts_below (u x r : Text) :
    Cuts (.below ⟨Position.start.after u, (Position.start.after u).after x⟩) (u ++ (x ++ r))
      (cutBelow u x (r.takeWhile (· != '\n'))) := by
  intro declaration
  have hstop : offsetOf (u ++ (x ++ r)) ((Position.start.after u).after x) =
      .ok (u ++ x).length := by
    rw [← Position.after_append, ← List.append_assoc, offsetOf_after]
  have hblank : (u ++ (x ++ r)).restIsBlank (u ++ x).length =
      lineIsBlank (r.takeWhile (· != '\n')) := by
    rw [← List.append_assoc, restIsBlank_append]
  have hend : (u ++ (x ++ r)).lineEnd (u ++ x).length =
      (u ++ x ++ r.takeWhile (· != '\n')).length := by
    rw [← List.append_assoc, lineEnd_append]
    exact List.length_append.symm
  have hlast := getElem?_last (u ++ x ++ r.takeWhile (· != '\n')) (r.dropWhile (· != '\n')) '\r'
  have htext : u ++ x ++ r.takeWhile (· != '\n') ++ r.dropWhile (· != '\n') = u ++ (x ++ r) := by
    simp
  rw [htext] at hlast
  generalize hwhole : u ++ x ++ r.takeWhile (· != '\n') = whole at hend hlast
  simp only [Placing.put, insertBelow, hstop, indentationBefore_after, Outcome.ok_bind,
    indentation?_append, hblank, hend, hlast, cutBelow, hwhole]
  cases u.indentation? u.length with
  | none => cases lineIsBlank (r.takeWhile (· != '\n')) <;> simp [insertAt]
  | some indentation =>
    cases lineIsBlank (r.takeWhile (· != '\n')) with
    | false => simp [insertAt]
    | true => by_cases hr : whole.getLast? = some '\r' <;> simp [hr, insertAt]

/-- The cut in an empty set is read off the text between its braces and the text in front of the
binding. -/
theorem cuts_inside {u k x y r : Text} {binding : KeyValue} (hx : '{' ∉ x)
    (hstart : binding.span.start = Position.start.after u)
    (hset : binding.value.span = ⟨Position.start.after (u ++ k),
      (Position.start.after (u ++ k)).after (x ++ '{' :: (y ++ ['}']))⟩) :
    Cuts (.inside binding) (u ++ (k ++ (x ++ '{' :: (y ++ '}' :: r))))
      (cutInside u (u ++ k ++ x) y (u ++ (k ++ (x ++ '{' :: (y ++ '}' :: r)))).newline) := by
  intro declaration
  have hindentation := indentationBefore_after u (k ++ (x ++ '{' :: (y ++ '}' :: r)))
    binding.span.stop
  rw [← hstart, indentation?_append] at hindentation
  obtain ⟨hoffsets, hbrace⟩ := @offsets_braces u k x y r binding hx hset
  have hslice := slice_braces (u ++ k ++ x) y r
  have htext : u ++ k ++ x ++ '{' :: (y ++ '}' :: r) =
      u ++ (k ++ (x ++ '{' :: (y ++ '}' :: r))) := by
    simp
  rw [htext] at hslice
  generalize hnew : (u ++ (k ++ (x ++ '{' :: (y ++ '}' :: r)))).newline = newline
  simp only [Placing.put, fillEmptySet, hoffsets, hbrace, hindentation, hslice, hnew,
    Outcome.ok_bind, cutInside]
  cases u.indentation? u.length with
  | none => cases y.isBlank <;> simp [insertAt]
  | some indentation => cases y.isBlank <;> simp [insertAt]

/-! ## What the rest of a line depends on -/

/-- A text whose first line ends in it, or has something on it that is neither a blank nor a line
comment. -/
def Decided (r : Text) : Prop :=
  '\n' ∈ r ∨ ∃ v d s, r = v ++ d :: s ∧ (∀ c ∈ v, isGap c = true) ∧ isInk d = true

theorem Decided.cons {c : Char} {r : Text} (h : Decided r) (hc : isGap c = true) :
    Decided (c :: r) := by
  rcases h with h | ⟨v, d, s, rfl, hv, hd⟩
  · exact .inl (List.mem_cons_of_mem _ h)
  · refine .inr ⟨c :: v, d, s, rfl, fun x hx => ?_, hd⟩
    rcases List.mem_cons.1 hx with rfl | hx
    · exact hc
    · exact hv x hx

theorem Decided.ne_nil {r : Text} (h : Decided r) : r ≠ [] := by
  rintro rfl
  rcases h with h | ⟨v, d, s, heq, -⟩
  · cases h
  · simp at heq

theorem Decided.append {r : Text} (h : Decided r) (z : Text) : Decided (r ++ z) := by
  rcases h with h | ⟨v, d, s, rfl, hv, hd⟩
  · exact .inl (List.mem_append_left z h)
  · exact .inr ⟨v, d, s ++ z, by simp, hv, hd⟩

/-- The gaps in front of a token and the token decide a line: a line comment ends with its
line. -/
theorem decided_gaps {m : List Mode} {t x : Text} {kind : TokenKind} {gs rest : List Piece}
    (hm : inString m = false) (h : pieces m t = .ok (gs ++ Piece.token kind x :: rest))
    (hgs : IsGaps gs) : Decided (textOf gs ++ x) := by
  induction gs generalizing t with
  | nil =>
    have hkind : kind ≠ .text := by
      rintro rfl
      rcases pieces_eq_ok h with ⟨-, hnil, -⟩ | ⟨s, qs, hstep, -, heq⟩
      · cases hnil
      · obtain ⟨p, hp, hne, -⟩ := hstep.bare hm
        rw [hp] at heq
        exact hne x (List.cons.inj heq).1.symm
    obtain ⟨hne, hink⟩ := isInk_of_token h List.mem_cons_self hkind
    obtain ⟨d, x, rfl⟩ := List.exists_cons_of_ne_nil hne
    exact .inr ⟨[], d, x, rfl, by simp, hink d List.mem_cons_self⟩
  | cons g gs ih =>
    obtain ⟨y, rfl⟩ := hgs g List.mem_cons_self
    have hgs' : IsGaps gs := fun p hp => hgs p (List.mem_cons_of_mem _ hp)
    rcases pieces_eq_ok h with ⟨-, hnil, -⟩ | ⟨s, qs, hstep, hqs, heq⟩
    · cases hnil
    rcases hstep.bare_cases hm with ⟨c, z, hc, -, rfl⟩ | ⟨z, -, rfl⟩ | ⟨z, body, rest', -, -, rfl⟩ |
      hdelimiter | ⟨c, z, kind', lexeme, -, -, rfl⟩
    · obtain ⟨hg, rfl⟩ := List.cons.inj heq
      obtain rfl := Piece.gap.inj hg
      exact (ih hqs hgs').cons hc
    · obtain ⟨hg, rfl⟩ := List.cons.inj heq
      obtain rfl := Piece.gap.inj hg
      -- A token follows the comment, and so does the end of the line before it.
      obtain ⟨d, w, hw⟩ := List.exists_cons_of_ne_nil (ih hqs hgs').ne_nil
      have hdrop : z.dropWhile (· != '\n') = d :: (w ++ textOf rest) := by
        refine (textOf_pieces hqs).symm.trans ?_
        rw [← List.cons_append, ← hw]
        exact (textOf_append gs _).trans (by simp)
      have hd := List.head?_dropWhile_not (· != '\n') z
      rw [hdrop] at hd
      obtain rfl : d = '\n' := by simpa using hd
      exact .inl (by simp [hw])
    · obtain ⟨hg, rfl⟩ := List.cons.inj heq
      obtain rfl := Piece.gap.inj hg
      exact .inr ⟨[], '/', _, rfl, by simp, by decide⟩
    · obtain ⟨kind', -, hp, -⟩ := delimiter?_cases hdelimiter hm
      rw [hp] at heq
      cases heq
    · cases heq

theorem cutBelow_of_not_blank {line : Text} (u x : Text) (h : lineIsBlank line = false) :
    cutBelow u x line = ⟨(u ++ x).length, (u ++ x).length, [' '], []⟩ := by
  unfold cutBelow
  rw [h]
  cases u.indentation? u.length <;> rfl

/-- The cut below a stretch removes nothing, and is behind the first character of the stretch. -/
theorem cutBelow_bounds (u line : Text) {x : Text} (hx : x ≠ []) :
    (cutBelow u x line).start = (cutBelow u x line).stop ∧ u.length ≤ (cutBelow u x line).start ∧
      (cutBelow u x line).stop ≤ (u ++ (x ++ line)).length := by
  have hlength := List.length_pos_iff.2 hx
  unfold cutBelow
  split
  · dsimp only
    split
    · simp
      omega
    · simp
  · simp

theorem lineIsBlank_ink {v s : Text} {d : Char} (hv : ∀ c ∈ v, isGap c = true) (hline : '\n' ∉ v)
    (hd : isInk d = true) : lineIsBlank (v ++ d :: s) = false := by
  have hgap : ∀ c ∈ v, (Text.isIndentChar c || c == '\r') = true := by
    intro c hc
    have hc' := hv c hc
    have hne : c ≠ '\n' := fun h => hline (h ▸ hc)
    simpa [isGap, Text.isIndentChar, hne] using hc'
  have hd' : (Text.isIndentChar d || d == '\r') = false ∧ d ≠ '#' := by
    simp_all [isInk, isGap, Text.isIndentChar]
  rw [lineIsBlank, List.dropWhile_append_of_pos hgap, List.dropWhile_cons_of_neg (by simp [hd'.1])]
  simp [hd'.2]

/-- The line that a text decides ends in it, or is not blank. -/
theorem Decided.line_cases {r : Text} (h : Decided r) :
    (∃ a b, r = a ++ '\n' :: b ∧ ∀ z, (r ++ z).takeWhile (· != '\n') = a) ∨
      ∀ z, lineIsBlank ((r ++ z).takeWhile (· != '\n')) = false := by
  by_cases hline : '\n' ∈ r
  · obtain ⟨a, b, rfl, ha⟩ := List.eq_append_cons_of_mem hline
    refine .inl ⟨a, b, rfl, fun z => ?_⟩
    have hne : ∀ c ∈ a, (c != '\n') = true := fun c hc => bne_iff_ne.2 fun h => ha (h ▸ hc)
    rw [List.append_assoc, List.takeWhile_append_of_pos hne]
    simp
  · obtain ⟨v, d, s, rfl, hv, hd⟩ := h.resolve_left hline
    refine .inr fun z => ?_
    have hne : ∀ c ∈ v ++ d :: s, (c != '\n') = true :=
      fun c hc => bne_iff_ne.2 fun h => hline (h ▸ hc)
    rw [List.takeWhile_append_of_pos hne, List.append_assoc, List.cons_append]
    exact lineIsBlank_ink hv (fun h => hline (List.mem_append_left _ h)) hd

/-- Behind a text that decides its line, nothing matters to the cut below a stretch. -/
theorem Decided.exists_cut {x r : Text} (h : Decided r) (u : Text) (hx : x ≠ []) :
    ∃ c : Cut, (∀ z, cutBelow u x ((r ++ z).takeWhile (· != '\n')) = c) ∧
      c.start = c.stop ∧ u.length ≤ c.start ∧ c.stop ≤ (u ++ (x ++ r)).length := by
  rcases h.line_cases with ⟨a, b, rfl, hline⟩ | hline
  · obtain ⟨hpoint, hstart, hstop⟩ := cutBelow_bounds u a hx
    refine ⟨cutBelow u x a, fun z => by rw [hline], hpoint, hstart, Nat.le_trans hstop ?_⟩
    simp
  · exact ⟨⟨(u ++ x).length, (u ++ x).length, [' '], []⟩,
      fun z => cutBelow_of_not_blank u x (hline z), rfl, by simp, by simp⟩

/-! ## Cuts in a stretch of text -/

/-- A place above a position is in front of a token.  If a place is below a stretch of text, then
that ends with a token, and the text behind it decides its line. -/
def Placing.Rests (place : Placing) (w x : Text) : Prop :=
  match place with
  | above start _ =>
    ∃ u d r, x = u ++ d :: r ∧ isInk d = true ∧ start = Position.start.after (w ++ u)
  | below span => ∃ u y d r, x = u ++ (y ++ [d] ++ r) ∧ isInk d = true ∧ Decided r ∧
      span = ⟨Position.start.after (w ++ u), (Position.start.after (w ++ u)).after (y ++ [d])⟩
  | inside _ => True

/-- How a place in the stretch `x` behind `w` is cut, whatever stands behind the stretch: only
the way in which lines end can matter.  The cut removes nothing but the blanks between the
braces of a set, and writes the braces again. -/
structure CutsIn (place : Placing) (w x : Text) (cut : Text → Cut) : Prop where
  cuts : ∀ r, Cuts place (w ++ (x ++ r)) (cut (w ++ (x ++ r)).newline)
  bounds : ∀ newline, w.length ≤ (cut newline).start ∧
    (cut newline).start ≤ (cut newline).stop ∧ (cut newline).stop ≤ (w ++ x).length
  removed : ∀ newline, (cut newline).start = (cut newline).stop ∨
    (∃ binding, place = .inside binding) ∧ ∃ blank lead trail, Text.isBlank blank = true ∧
      (∀ r, (w ++ (x ++ r)).slice (cut newline).start (cut newline).stop =
        '{' :: (blank ++ ['}'])) ∧
      (cut newline).lead = '{' :: lead ∧ (cut newline).trail = trail ++ ['}'] ∧
      ((∀ c ∈ newline, isGap c = true) → ∀ c ∈ lead ++ trail, isGap c = true)

theorem cutsIn_above {w x : Text} {start : Position} {blankLine : Bool}
    (h : (Placing.above start blankLine).Lies w x) :
    ∃ cut, CutsIn (.above start blankLine) w x cut := by
  obtain ⟨u, y, rfl, rfl⟩ := h
  have hpoint : ∀ newline, (cutAbove (w ++ u) newline blankLine).start = (w ++ u).length ∧
      (cutAbove (w ++ u) newline blankLine).stop = (w ++ u).length := by
    intro newline
    unfold cutAbove
    split <;> exact ⟨rfl, rfl⟩
  refine ⟨fun newline => cutAbove (w ++ u) newline blankLine, fun r => ?_, ?_, ?_⟩
  · have htext : w ++ (u ++ y ++ r) = w ++ u ++ (y ++ r) := by simp
    rw [htext]
    exact cuts_above (w ++ u) (y ++ r) blankLine
  · intro newline
    simp [hpoint newline]
  · intro newline
    exact .inl ((hpoint newline).1.trans (hpoint newline).2.symm)

theorem cutsIn_below {w x : Text} {span : Span} (h : (Placing.below span).Rests w x) :
    ∃ cut, CutsIn (.below span) w x cut := by
  obtain ⟨u, y, d, s, rfl, -, hdecided, rfl⟩ := h
  obtain ⟨c, hcut, hpoint, hstart, hstop⟩ :=
    hdecided.exists_cut (w ++ u) (List.append_ne_nil_of_right_ne_nil y (List.cons_ne_nil d []))
  refine ⟨fun _ => c, fun r => ?_, fun _ => ⟨?_, Nat.le_of_eq hpoint, ?_⟩, fun _ => .inl hpoint⟩
  · have htext : w ++ (u ++ (y ++ [d] ++ s) ++ r) = w ++ u ++ (y ++ [d] ++ (s ++ r)) := by simp
    rw [htext, ← hcut r]
    exact cuts_below (w ++ u) (y ++ [d]) (s ++ r)
  · exact Nat.le_trans (by simp) hstart
  · simpa using hstop

/-- A set is cut behind its first brace, or from one brace to the other if only blanks are between
them. -/
theorem cutInside_cases (before front inner newline : Text) :
    (cutInside before front inner newline).start = front.length + 1 ∧
        (cutInside before front inner newline).stop = front.length + 1 ∨
      inner.isBlank = true ∧ (cutInside before front inner newline).start = front.length ∧
        (cutInside before front inner newline).stop = front.length + (inner.length + 2) ∧
        ∃ lead trail, (cutInside before front inner newline).lead = '{' :: lead ∧
          (cutInside before front inner newline).trail = trail ++ ['}'] ∧
          ((∀ c ∈ newline, isGap c = true) → ∀ c ∈ lead ++ trail, isGap c = true) := by
  unfold cutInside
  cases hblank : inner.isBlank with
  | false =>
    refine .inl ?_
    split <;> exact ⟨rfl, rfl⟩
  | true =>
    refine .inr ⟨rfl, ?_⟩
    split
    · refine ⟨rfl, rfl, [' '], [' '], rfl, rfl, fun _ => ?_⟩
      exact List.all_eq_true.1 (by decide)
    · next indentation hindentation =>
      refine ⟨rfl, rfl, newline ++ indentation ++ nestedIndent, newline ++ indentation, rfl, rfl,
        fun hnewline c hc => ?_⟩
      have hindent := isGap_of_indentation hindentation c
      have hnested := (List.all_eq_true.1 (by decide) : ∀ c ∈ nestedIndent, isGap c = true) c
      simp only [List.mem_append] at hc
      rcases hc with ((hc | hc) | hc) | hc | hc
      · exact hnewline c hc
      · exact hindent hc
      · exact hnested hc
      · exact hnewline c hc
      · exact hindent hc

theorem cutsIn_inside {w x : Text} {binding : KeyValue}
    (h : (Placing.inside binding).Lies w x) : ∃ cut, CutsIn (.inside binding) w x cut := by
  obtain ⟨u, k, y, s, rfl, hstart, hset, hy⟩ := h
  -- The first brace may stand in a comment, but there is one.
  obtain ⟨y, inner, rfl, hne⟩ := List.eq_append_cons_of_mem hy
  have hset' : binding.value.span = ⟨Position.start.after (w ++ u ++ k),
      (Position.start.after (w ++ u ++ k)).after (y ++ '{' :: (inner ++ ['}']))⟩ := by
    simpa using hset
  refine ⟨cutInside (w ++ u) (w ++ u ++ k ++ y) inner, fun r => ?_, ?_, ?_⟩
  · have htext : w ++ (u ++ (k ++ (y ++ '{' :: inner ++ '}' :: s)) ++ r) =
        w ++ u ++ (k ++ (y ++ '{' :: (inner ++ '}' :: (s ++ r)))) := by
      simp
    rw [htext]
    exact cuts_inside hne hstart hset'
  · intro newline
    rcases cutInside_cases (w ++ u) (w ++ u ++ k ++ y) inner newline with
      ⟨hstart, hstop⟩ | ⟨-, hstart, hstop, -⟩
    · rw [hstart, hstop]
      refine ⟨?_, Nat.le_refl _, ?_⟩ <;>
        (simp only [List.length_append, List.length_cons]; omega)
    · rw [hstart, hstop]
      refine ⟨?_, Nat.le_add_right _ _, ?_⟩ <;> simp
      omega
  · intro newline
    rcases cutInside_cases (w ++ u) (w ++ u ++ k ++ y) inner newline with
      ⟨hstart, hstop⟩ | ⟨hblank, hstart, hstop, lead, trail, h⟩
    · exact .inl (hstart.trans hstop.symm)
    · refine .inr ⟨⟨binding, rfl⟩, inner, lead, trail, hblank, fun r => ?_, h⟩
      have hslice := slice_append (w ++ u ++ k ++ y) ('{' :: (inner ++ ['}'])) (s ++ r)
      rw [hstart, hstop]
      simpa using hslice

/-- The token behind a place decides the line of the binding above it. -/
theorem Placing.At.rests {place : Placing} {text : Text} {f g : List Token} {bar : Token}
    {ps zs rs : List Piece} (h : place.At f bar g)
    (hall : pieces [] text = .ok (ps ++ (zs ++ rs)))
    (hzs : locate (Position.start.after (textOf ps)) zs = f ++ bar :: g) (hg : g ≠ [])
    (hbar : bar.kind = .braceOpen ∨ bar.kind = .semicolon) :
    place.Rests (textOf ps) (textOf zs) := by
  cases place with
  | above start blankLine =>
    obtain ⟨t, g', rfl, hkind, rfl⟩ := h
    rw [List.append_cons] at hzs
    obtain ⟨as, qs, rfl, -, hspan, -⟩ := Token.locate_eq_append hzs
    have hmem :
        Piece.token t.kind t.lexeme ∈ ps ++ (as ++ Piece.token t.kind t.lexeme :: qs ++ rs) := by
      simp
    obtain ⟨hne, hink⟩ := isInk_of_token hall hmem hkind
    obtain ⟨d, x, hlexeme⟩ := List.exists_cons_of_ne_nil hne
    refine ⟨textOf as, d, x ++ textOf qs, ?_, hink d (hlexeme ▸ List.mem_cons_self), ?_⟩
    · rw [textOf_append, textOf_cons, Piece.text, hlexeme]
      rfl
    rw [hspan, Position.after_append]
  | inside binding => trivial
  | below span =>
    obtain ⟨f₁, t, f₂, rfl, rfl⟩ := h
    obtain ⟨next, g', rfl⟩ := List.exists_cons_of_ne_nil hg
    rw [List.append_assoc, List.cons_append] at hzs
    obtain ⟨as, qs, rfl, -, hspan, hqs⟩ := Token.locate_eq_append hzs
    obtain ⟨bs, qs, rfl, -, hspan', hqs⟩ := Token.locate_eq_append hqs
    obtain ⟨gs, qs, rfl, hgs, -⟩ := exists_gaps hqs
    have hsplit : pieces [] text = .ok ((ps ++ as ++ Piece.token t.kind t.lexeme :: bs) ++
        .token bar.kind bar.lexeme :: (gs ++ Piece.token next.kind next.lexeme :: (qs ++ rs))) := by
      simpa using hall
    have hkind : bar.kind ≠ .text ∧ bar.kind ∉ stringKinds := by
      rcases hbar with h | h <;> rw [h] <;> decide
    obtain ⟨m, hm, hbehind⟩ := exists_modes_behind hsplit hkind.1 hkind.2
    have hdecided := (decided_gaps hm hbehind hgs).append (textOf qs)
    obtain ⟨hne, hink⟩ := isInk_of_token hsplit
      (List.mem_append_right _ List.mem_cons_self) hkind.1
    have hlexeme := List.dropLast_concat_getLast hne
    refine ⟨textOf as, textOf (.token t.kind t.lexeme :: bs) ++ bar.lexeme.dropLast,
      bar.lexeme.getLast hne, textOf (gs ++ Piece.token next.kind next.lexeme :: qs), ?_,
      hink _ (List.getLast_mem hne), by simpa using hdecided, ?_⟩
    · rw [List.append_assoc (textOf _) bar.lexeme.dropLast, hlexeme]
      simp
    · rw [List.append_assoc (textOf _) bar.lexeme.dropLast, hlexeme, hspan', hspan]
      simp

theorem Placing.Among.rests {place : Placing} {text : Text} {ps zs rs : List Piece}
    (h : place.Among text ps zs rs) : place.Rests (textOf ps) (textOf zs) := by
  obtain ⟨f, bar, g, hzs, hg, hbar, hat⟩ := h.exists_at
  exact hat.rests h.pieces_eq hzs hg hbar

/-- A place among the tokens of a stretch is cut in that stretch. -/
theorem Placing.Among.exists_cutsIn {place : Placing} {text : Text} {ps zs rs : List Piece}
    (h : place.Among text ps zs rs) : ∃ cut, CutsIn place (textOf ps) (textOf zs) cut := by
  cases place with
  | above start blankLine => exact cutsIn_above h.lies
  | below span => exact cutsIn_below h.rests
  | inside binding => exact cutsIn_inside h.lies

end Edit
end FlakeInputs
