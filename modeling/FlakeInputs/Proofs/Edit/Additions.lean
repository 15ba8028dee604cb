import FlakeInputs.Edit.Insertion
import FlakeInputs.Proofs.Edit.Threading
import FlakeInputs.Proofs.Outcome

/-!
# Putting a declaration into a text

A declaration is put above a position, below a span, or into an empty set.  Whatever the
declaration is, the text in front of it and the text behind it stay as they are, and only
blanks are written around it.
-/

namespace FlakeInputs
namespace Edit

open Scan (isGap)

/-- Where a declaration is put: above a position, below a span, or into the empty set that is
the value of a binding. -/
inductive Placing
  | above (start : Position) (blankLine : Bool)
  | below (span : Span)
  | inside (binding : KeyValue)

/-- The text with a declaration put somewhere. -/
def Placing.put (place : Placing) (text declaration : Text) : Except Error Text :=
  match place with
  | above start blankLine => insertAbove text (.point start) declaration blankLine
  | below span => insertBelow text span declaration
  | inside binding => fillEmptySet text binding declaration

/-- An edit puts any declaration between `front` and `back`, with blanks around it and in the
place of blanks. -/
structure Adds (text : Text) (edit : Text → Except Error Text)
    (front removed back lead trail : Text) : Prop where
  text_eq : text = front ++ (removed ++ back)
  removed_blank : removed.isBlank = true
  lead_gap : ∀ c ∈ lead, isGap c = true
  trail_gap : ∀ c ∈ trail, isGap c = true
  result : ∀ declaration,
    edit declaration = .ok (front ++ (lead ++ (declaration ++ (trail ++ back))))

/-! ## Lines -/

theorem isGap_of_isIndentChar {c : Char} (h : Text.isIndentChar c = true) : isGap c = true := by
  simp only [Text.isIndentChar, Bool.or_eq_true, beq_iff_eq] at h
  rcases h with rfl | rfl
  all_goals decide

theorem isGap_of_indentation {text indentation : Text} {offset : Nat}
    (h : text.indentation? offset = some indentation) : ∀ c ∈ indentation, isGap c = true := by
  simp only [Text.indentation?] at h
  split at h
  · next hall =>
    obtain rfl := Option.some.inj h
    exact fun c hc => isGap_of_isIndentChar (List.all_eq_true.1 hall c hc)
  · exact absurd h (by simp)

theorem isGap_of_newline {text : Text} : ∀ c ∈ text.newline, isGap c = true := by
  unfold Text.newline
  split
  · exact List.all_eq_true.1 (by decide)
  · exact List.all_eq_true.1 (by decide)

theorem indentationBefore_after (u r : Text) (stop : Position) :
    indentationBefore (u ++ r) ⟨Position.start.after u, stop⟩ =
      .ok ((u ++ r).indentation? u.length) := by
  simp only [indentationBefore, offsetOf_after]
  rfl

/-- The rest of a line that has nothing but blanks and a comment on it. -/
structure LineRest (w r : Text) : Prop where
  ends : r = [] ∨ r.head? = some '\n'
  line : '\n' ∉ w
  blank : ∃ v comment, w = v ++ comment ∧ (∀ c ∈ v, isGap c = true) ∧
    (comment = [] ∨ comment.head? = some '#')

theorem lineEnd_append (u r : Text) :
    (u ++ r).lineEnd u.length = u.length + (r.takeWhile (· != '\n')).length := by
  rw [Text.lineEnd, List.drop_left, List.length_append, Nat.min_eq_left (by omega)]

/-- Whether nothing but blanks or a comment is in the rest of a line. -/
def lineIsBlank (line : Text) : Bool :=
  let rest := line.dropWhile fun c => Text.isIndentChar c || c == '\r'
  rest.isEmpty || rest.head? == some '#'

theorem restIsBlank_append (u r : Text) :
    (u ++ r).restIsBlank u.length = lineIsBlank (r.takeWhile (· != '\n')) := by
  have hslice : (u ++ r).slice u.length (u.length + (r.takeWhile (· != '\n')).length) =
      r.takeWhile (· != '\n') := by
    have hsplit := slice_append u (r.takeWhile (· != '\n')) (r.dropWhile (· != '\n'))
    rwa [List.takeWhile_append_dropWhile] at hsplit
  rw [Text.restIsBlank, lineEnd_append, hslice]
  rfl

theorem lineRest_of_restIsBlank {u r : Text} (h : (u ++ r).restIsBlank u.length = true) :
    LineRest (r.takeWhile (· != '\n')) (r.dropWhile (· != '\n')) := by
  rw [restIsBlank_append] at h
  refine ⟨?_, ?_, ?_⟩
  · cases hrest : r.dropWhile (· != '\n') with
    | nil => exact .inl rfl
    | cons c rest =>
      have hc := List.head?_dropWhile_not (· != '\n') r
      rw [hrest] at hc
      simp at hc
      exact .inr (by rw [List.head?_cons, hc])
  · intro hmem
    have hne := List.mem_takeWhile_imp hmem
    simp at hne
  · generalize r.takeWhile (· != '\n') = w at h
    refine ⟨_, _, (List.takeWhile_append_dropWhile
      (p := fun c => Text.isIndentChar c || c == '\r')).symm, ?_, ?_⟩
    · intro c hc
      have hblank := List.mem_takeWhile_imp hc
      rw [Bool.or_eq_true, beq_iff_eq] at hblank
      rcases hblank with hblank | rfl
      · exact isGap_of_isIndentChar hblank
      · decide
    · simpa [lineIsBlank] using h

/-! ## The three places -/

theorem adds_above (u r : Text) (blankLine : Bool) : ∃ trail,
    Adds (u ++ r) ((Placing.above (Position.start.after u) blankLine).put (u ++ r)) u [] r []
      trail := by
  cases hindentation : (u ++ r).indentation? u.length with
  | none =>
    have hput : ∀ declaration,
        (Placing.above (Position.start.after u) blankLine).put (u ++ r) declaration =
          insertAt (u ++ r) u.length (declaration ++ [' ']) := by
      intro declaration
      simp only [Placing.put, insertAbove, Span.point, offsetOf_after, indentationBefore_after,
        Outcome.ok_bind, hindentation]
    refine ⟨[' '], rfl, rfl, by simp, List.all_eq_true.1 (by decide), fun declaration => ?_⟩
    simp only [hput, insertAt_append, List.append_assoc, List.nil_append]
  | some indentation =>
    have hput : ∀ declaration,
        (Placing.above (Position.start.after u) blankLine).put (u ++ r) declaration =
          insertAt (u ++ r) u.length
            (declaration ++ (if blankLine then (u ++ r).newline ++ (u ++ r).newline
              else (u ++ r).newline) ++ indentation) := by
      intro declaration
      simp only [Placing.put, insertAbove, Span.point, offsetOf_after, indentationBefore_after,
        Outcome.ok_bind, hindentation]
    refine ⟨(if blankLine then (u ++ r).newline ++ (u ++ r).newline else (u ++ r).newline) ++
      indentation, rfl, rfl, by simp, ?_, fun declaration => ?_⟩
    · intro c hc
      rcases List.mem_append.1 hc with hc | hc
      · split at hc
        · rcases List.mem_append.1 hc with hc | hc
          all_goals exact isGap_of_newline c hc
        · exact isGap_of_newline c hc
      · exact isGap_of_indentation hindentation c hc
    · simp only [hput, insertAt_append, List.append_assoc, List.nil_append]

/-- The characters that end a line stay together: a declaration below a line goes between
them. -/
theorem adds_line (front back : Text) {indentation : Text}
    (hindentation : ∀ c ∈ indentation, isGap c = true) : ∃ trail,
    Adds (front ++ back)
      (fun declaration =>
        if 0 < front.length && (front ++ back)[front.length - 1]? == some '\r' then
          insertAt (front ++ back) (front.length - 1) ('\r' :: '\n' :: indentation ++ declaration)
        else insertAt (front ++ back) front.length ('\n' :: indentation ++ declaration))
      front [] back ('\n' :: indentation) trail := by
  have hgap : ∀ c ∈ '\n' :: indentation, isGap c = true := by
    simpa [isGap] using hindentation
  rcases List.eq_nil_or_concat front with rfl | ⟨front, c, rfl⟩
  · refine ⟨[], rfl, rfl, hgap, by simp, fun declaration => ?_⟩
    have hinsert := insertAt_append [] back ('\n' :: indentation ++ declaration)
    simpa using hinsert
  have hlast : (front ++ [c] ++ back)[(front ++ [c]).length - 1]? = some c := by
    simp
  rw [List.concat_eq_append]
  by_cases hc : c = '\r'
  · subst hc
    refine ⟨['\r'], rfl, rfl, hgap, List.all_eq_true.1 (by decide), fun declaration => ?_⟩
    have hinsert := insertAt_append front ('\r' :: back)
      ('\r' :: '\n' :: indentation ++ declaration)
    rw [if_pos (by simp)]
    simpa using hinsert
  · refine ⟨[], rfl, rfl, hgap, by simp, fun declaration => ?_⟩
    rw [if_neg (by simpa using hc), insertAt_append]
    simp

/-- The place below a span: right behind it, or on the next line. -/
theorem adds_below (u x r : Text) : ∃ w rest lead trail, r = w ++ rest ∧
    (w = [] ∨ LineRest w rest ∧ lead.head? = some '\n') ∧
    Adds (u ++ (x ++ r))
      ((Placing.below ⟨Position.start.after u, (Position.start.after u).after x⟩).put
        (u ++ (x ++ r))) (u ++ x ++ w) [] rest lead trail := by
  have hstop : offsetOf (u ++ (x ++ r)) ((Position.start.after u).after x) =
      .ok (u ++ x).length := by
    rw [← Position.after_append, ← List.append_assoc, offsetOf_after]
  by_cases hline : ((u ++ (x ++ r)).indentation? u.length).isSome ∧
      (u ++ (x ++ r)).restIsBlank (u ++ x).length = true
  · obtain ⟨hsome, hblank⟩ := hline
    obtain ⟨indentation, hindentation⟩ := Option.isSome_iff_exists.1 hsome
    obtain ⟨trail, hadds⟩ := adds_line (u ++ x ++ r.takeWhile (· != '\n'))
      (r.dropWhile (· != '\n')) (isGap_of_indentation hindentation)
    have htext : u ++ x ++ r.takeWhile (· != '\n') ++ r.dropWhile (· != '\n') =
        u ++ (x ++ r) := by
      simp
    rw [htext] at hadds
    have hend : (u ++ (x ++ r)).lineEnd (u ++ x).length =
        (u ++ x ++ r.takeWhile (· != '\n')).length := by
      rw [← List.append_assoc, lineEnd_append]
      exact List.length_append.symm
    refine ⟨_, _, '\n' :: indentation, trail, List.takeWhile_append_dropWhile.symm,
      .inr ⟨lineRest_of_restIsBlank (u := u ++ x) (by rwa [List.append_assoc]), rfl⟩, ?_⟩
    refine { hadds with result := fun declaration => ?_ }
    simp only [Placing.put, insertBelow, hstop, indentationBefore_after, Outcome.ok_bind,
      hindentation, hblank, hend]
    exact hadds.result declaration
  · have hput : ∀ declaration,
        (Placing.below ⟨Position.start.after u, (Position.start.after u).after x⟩).put
          (u ++ (x ++ r)) declaration =
          insertAt (u ++ (x ++ r)) (u ++ x).length (' ' :: declaration) := by
      intro declaration
      simp only [Placing.put, insertBelow, hstop, indentationBefore_after, Outcome.ok_bind]
      cases hindentation : (u ++ (x ++ r)).indentation? u.length with
      | none => rfl
      | some indentation =>
        cases hblank : (u ++ (x ++ r)).restIsBlank (u ++ x).length with
        | false => rfl
        | true => exact absurd ⟨by rw [hindentation]; rfl, hblank⟩ hline
    refine ⟨[], r, [' '], [], rfl, .inl rfl, by simp, rfl, List.all_eq_true.1 (by decide), by simp,
      fun declaration => ?_⟩
    have hinsert := insertAt_append (u ++ x) r (' ' :: declaration)
    rw [List.append_assoc] at hinsert
    rw [hput, hinsert]
    simp

/-! ## Empty sets -/

theorem braceFrom_append {u x r : Text} (hx : '{' ∉ x) :
    braceFrom (u ++ (x ++ '{' :: r)) u.length = .ok (u ++ x).length := by
  have hindex : (x ++ '{' :: r).findIdx? (· == '{') = some x.length := by
    rw [List.findIdx?_append, List.findIdx?_eq_none_iff.2]
    · simp [List.findIdx?_cons]
    · intro c hc
      rw [beq_eq_false_iff_ne]
      rintro rfl
      exact hx hc
  rw [braceFrom, List.drop_left, hindex, List.length_append]

/-- Blanks between two braces give way to a declaration; comments stay in front of the closing
brace. -/
theorem adds_between (f y r : Text) {before after : Text} (hbefore : ∀ c ∈ before, isGap c = true)
    (hafter : ∀ c ∈ after, isGap c = true) :
    ∃ removed kept trail, y = removed ++ kept ∧ (removed = [] ∨ kept = []) ∧
      Adds (f ++ '{' :: (y ++ '}' :: r))
        (fun declaration =>
          if y.isBlank then
            splice (f ++ '{' :: (y ++ '}' :: r)) f.length ((f.length + (y.length + 2) : Nat))
              ('{' :: (before ++ (declaration ++ (after ++ ['}']))))
          else insertAt (f ++ '{' :: (y ++ '}' :: r)) (f.length + 1) (before ++ declaration))
        (f ++ ['{']) removed (kept ++ '}' :: r) before trail := by
  by_cases hblank : y.isBlank = true
  · refine ⟨y, [], after, by simp, .inr rfl, by simp, hblank, hbefore, hafter,
      fun declaration => ?_⟩
    have hsplice := splice_append f ('{' :: (y ++ ['}'])) r
      ('{' :: (before ++ (declaration ++ (after ++ ['}']))))
    have hlength : ('{' :: (y ++ ['}'])).length = y.length + 2 := by simp
    rw [if_pos hblank, ← hlength]
    simpa using hsplice
  · refine ⟨[], y, [], rfl, .inl rfl, by simp, rfl, hbefore, by simp, fun declaration => ?_⟩
    have hinsert := insertAt_append (f ++ ['{']) (y ++ '}' :: r) (before ++ declaration)
    rw [if_neg hblank]
    simpa using hinsert

/-- What stands between the braces of a set. -/
theorem slice_braces (f y r : Text) :
    (f ++ '{' :: (y ++ '}' :: r)).slice (f.length + 1) (f.length + (y.length + 2) - 1) = y := by
  have hslice := slice_append (f ++ ['{']) y ('}' :: r)
  have hstop : f.length + (y.length + 2) - 1 = (f ++ ['{']).length + y.length := by
    simp
    omega
  rw [hstop]
  simpa using hslice

theorem adds_filling {text f y r : Text} {binding : KeyValue} {start : Nat}
    {indentation? : Option Text} (htext : text = f ++ '{' :: (y ++ '}' :: r))
    (hoffsets : offsetsOf text binding.value.span = .ok (start, f.length + (y.length + 2)))
    (hbrace : braceFrom text start = .ok f.length)
    (hindentation : indentationBefore text binding.span = .ok indentation?)
    (hgap : ∀ indentation, indentation? = some indentation → ∀ c ∈ indentation, isGap c = true) :
    ∃ removed kept lead trail, y = removed ++ kept ∧ (removed = [] ∨ kept = []) ∧
      Adds text ((Placing.inside binding).put text) (f ++ ['{']) removed (kept ++ '}' :: r) lead
        trail := by
  subst htext
  have hslice := slice_braces f y r
  cases indentation? with
  | none =>
    obtain ⟨removed, kept, trail, hy, hone, hadds⟩ :=
      @adds_between f y r [' '] [' '] (List.all_eq_true.1 (by decide))
        (List.all_eq_true.1 (by decide))
    refine ⟨removed, kept, [' '], trail, hy, hone, { hadds with result := fun declaration => ?_ }⟩
    rw [← hadds.result]
    simp only [Placing.put, fillEmptySet, hoffsets, hbrace, hindentation, hslice, Outcome.ok_bind]
    simp
  | some indentation =>
    have hindent := hgap indentation rfl
    obtain ⟨removed, kept, trail, hy, hone, hadds⟩ :=
      @adds_between f y r
        ((f ++ '{' :: (y ++ '}' :: r)).newline ++ indentation ++ nestedIndent)
        ((f ++ '{' :: (y ++ '}' :: r)).newline ++ indentation)
        (by
          intro c hc
          simp only [List.mem_append] at hc
          rcases hc with (hc | hc) | hc
          · exact isGap_of_newline c hc
          · exact hindent c hc
          · exact (List.all_eq_true.1 (by decide) : ∀ c ∈ nestedIndent, isGap c = true) c hc)
        (by
          intro c hc
          rcases List.mem_append.1 hc with hc | hc
          · exact isGap_of_newline c hc
          · exact hindent c hc)
    refine ⟨removed, kept, _, trail, hy, hone, { hadds with result := fun declaration => ?_ }⟩
    rw [← hadds.result]
    simp only [Placing.put, fillEmptySet, hoffsets, hbrace, hindentation, hslice, Outcome.ok_bind]
    simp

/-- Where an empty set and its brace stand in a text. -/
theorem offsets_braces {u k x y r : Text} {binding : KeyValue} (hx : '{' ∉ x)
    (hset : binding.value.span = ⟨Position.start.after (u ++ k),
      (Position.start.after (u ++ k)).after (x ++ '{' :: (y ++ ['}']))⟩) :
    offsetsOf (u ++ (k ++ (x ++ '{' :: (y ++ '}' :: r)))) binding.value.span =
        .ok ((u ++ k).length, (u ++ k ++ x).length + (y.length + 2)) ∧
      braceFrom (u ++ (k ++ (x ++ '{' :: (y ++ '}' :: r)))) (u ++ k).length =
        .ok (u ++ k ++ x).length := by
  have hoffsets := offsetsOf_after (u ++ k) (x ++ '{' :: (y ++ ['}'])) r
  have hbrace := braceFrom_append (u := u ++ k) (r := y ++ '}' :: r) hx
  have hlength : (u ++ k).length + (x ++ '{' :: (y ++ ['}'])).length =
      (u ++ k ++ x).length + (y.length + 2) := by
    simp
    omega
  have htext : u ++ k ++ (x ++ '{' :: (y ++ ['}']) ++ r) =
      u ++ (k ++ (x ++ '{' :: (y ++ '}' :: r))) := by
    simp
  rw [← hset, hlength, htext] at hoffsets
  rw [List.append_assoc] at hbrace
  exact ⟨hoffsets, hbrace⟩

/-- The place in the empty set that is the value of a binding. -/
theorem adds_inside {u k x y r : Text} {binding : KeyValue} (hx : '{' ∉ x)
    (hstart : binding.span.start = Position.start.after u)
    (hset : binding.value.span = ⟨Position.start.after (u ++ k),
      (Position.start.after (u ++ k)).after (x ++ '{' :: (y ++ ['}']))⟩) :
    ∃ removed kept lead trail, y = removed ++ kept ∧ (removed = [] ∨ kept = []) ∧
      Adds (u ++ (k ++ (x ++ '{' :: (y ++ '}' :: r))))
        ((Placing.inside binding).put (u ++ (k ++ (x ++ '{' :: (y ++ '}' :: r)))))
        (u ++ k ++ x ++ ['{']) removed (kept ++ '}' :: r) lead trail := by
  have hindentation := indentationBefore_after u (k ++ (x ++ '{' :: (y ++ '}' :: r)))
    binding.span.stop
  rw [← hstart] at hindentation
  obtain ⟨hoffsets, hbrace⟩ := @offsets_braces u k x y r binding hx hset
  exact adds_filling (by simp) hoffsets hbrace hindentation fun indentation =>
    isGap_of_indentation

end Edit
end FlakeInputs
