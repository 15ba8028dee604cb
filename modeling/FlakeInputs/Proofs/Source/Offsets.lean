import FlakeInputs.Edit.Splice

/-!
# Positions and offsets

Positions grow along a text, so the position behind a stretch of text leads back to
the length of that stretch.
-/

namespace FlakeInputs
namespace Position

theorem lt_iff {p q : Position} :
    p < q ↔ p.line < q.line ∨ p.line = q.line ∧ p.column < q.column :=
  Iff.rfl

theorem lt_irrefl (p : Position) : ¬p < p := by
  rw [lt_iff]
  omega

theorem lt_trans {p q r : Position} (hpq : p < q) (hqr : q < r) : p < r := by
  rw [lt_iff] at *
  omega

theorem lt_asymm {p q : Position} (hpq : p < q) : ¬q < p :=
  fun hqp => lt_irrefl p (lt_trans hpq hqp)

theorem lt_next (p : Position) (c : Char) : p < p.next c := by
  rw [lt_iff, next]
  split
  · exact .inl (Int.lt_succ _)
  · exact .inr ⟨rfl, Int.lt_succ _⟩

theorem lt_after (p : Position) {t : Text} (ht : t ≠ []) : p < p.after t := by
  induction t generalizing p with
  | nil => exact absurd rfl ht
  | cons c t ih =>
    rw [after_cons]
    by_cases hnil : t = []
    · rw [hnil]
      exact lt_next p c
    · exact lt_trans (lt_next p c) (ih (p.next c) hnil)

theorem after_ne {p : Position} {t : Text} (ht : t ≠ []) : p ≠ p.after t := by
  intro heq
  have hlt := lt_after p ht
  rw [← heq] at hlt
  exact lt_irrefl p hlt

theorem lt_of_eq_after {p q : Position} {t : Text} (h : q = p.after t) (ht : t ≠ []) : p < q := by
  rw [h]
  exact lt_after p ht

theorem not_after_lt (p : Position) (t : Text) : ¬p.after t < p := by
  by_cases ht : t = []
  · rw [ht]
    exact lt_irrefl p
  · exact lt_asymm (lt_after p ht)

theorem offsetFrom?_after (p : Position) (u r : Text) :
    offsetFrom? (p.after u) p (u ++ r) = some u.length := by
  induction u generalizing p with
  | nil => cases r <;> simp [offsetFrom?]
  | cons c u ih =>
    rw [List.cons_append, offsetFrom?, if_neg (after_ne (List.cons_ne_nil c u)), after_cons,
      ih (p.next c)]
    rfl

/-- The position behind a stretch of text has the length of that stretch as offset. -/
theorem offset?_after (u r : Text) : (start.after u).offset? (u ++ r) = some u.length :=
  offsetFrom?_after start u r

/-! ## Positions behind an exchange -/

/-- Where a position stands when a text that ended at `old` ends at `new` instead: on the line of
`old` it moves along the line, and behind it with its line. -/
def moved (old new p : Position) : Position :=
  if p.line = old.line then ⟨new.line, p.column + (new.column - old.column)⟩
  else ⟨p.line + (new.line - old.line), p.column⟩

theorem moved_self (old new : Position) : moved old new old = new := by
  have hcolumn : old.column + (new.column - old.column) = new.column := by omega
  rw [moved, if_pos rfl, hcolumn]

theorem moved_next {old p : Position} (hp : old.line ≤ p.line) (new : Position) (c : Char) :
    moved old new (p.next c) = (moved old new p).next c := by
  unfold next
  by_cases hc : c = '\n'
  · have hbelow : p.line + 1 ≠ old.line := by omega
    have hline : (moved old new p).line = p.line + (new.line - old.line) := by
      unfold moved
      split
      · next heq =>
        change new.line = p.line + (new.line - old.line)
        omega
      · rfl
    rw [if_pos hc, if_pos hc, hline, moved, if_neg hbelow, Int.add_right_comm]
  · rw [if_neg hc, if_neg hc]
    unfold moved
    split
    · rw [Int.add_right_comm]
    · rfl

theorem line_le_next (p : Position) (c : Char) : p.line ≤ (p.next c).line := by
  unfold next
  split
  · exact Int.le_of_lt (Int.lt_succ _)
  · exact Int.le_refl _

/-- What stands behind `old` stands behind `new` in the same way. -/
theorem moved_after (old new : Position) (t : Text) :
    moved old new (old.after t) = new.after t := by
  have hall : ∀ p : Position, old.line ≤ p.line →
      moved old new (p.after t) = (moved old new p).after t := by
    intro p hp
    induction t generalizing p with
    | nil => rfl
    | cons c t ih =>
      rw [after_cons, after_cons, ih _ (Int.le_trans hp (line_le_next p c)), moved_next hp]
  rw [hall old (Int.le_refl _), moved_self]

end Position

namespace Span

/-- Where the last of some spans stops, or the given position if there is none. -/
def lastStop (stop : Position) (spans : List Span) : Position :=
  spans.foldl (fun _ span => span.stop) stop

theorem lastStop_append (stop : Position) (spans spans' : List Span) :
    lastStop stop (spans ++ spans') = lastStop (lastStop stop spans) spans' :=
  List.foldl_append

theorem lastStop_of_getLast? {spans : List Span} {span : Span} (h : spans.getLast? = some span)
    (stop : Position) : lastStop stop spans = span.stop := by
  obtain ⟨front, rfl⟩ := List.getLast?_eq_some_iff.1 h
  exact lastStop_append stop front [span]

end Span

namespace Edit

theorem offsetsOf_eq_ok {text : Text} {span : Span} {start stop : Nat} :
    offsetsOf text span = .ok (start, stop) ↔
      offsetOf text span.start = .ok start ∧ offsetOf text span.stop = .ok stop := by
  rw [offsetsOf]
  cases offsetOf text span.start with
  | error error => simp [bind, Except.bind]
  | ok i =>
    cases offsetOf text span.stop with
    | error error => simp [bind, Except.bind]
    | ok j => simp [bind, Except.bind, pure, Except.pure]

theorem offsetOf_after (u r : Text) :
    offsetOf (u ++ r) (Position.start.after u) = .ok u.length := by
  rw [offsetOf, Position.offset?_after]

theorem offsetsOf_after (u x r : Text) :
    offsetsOf (u ++ (x ++ r)) ⟨Position.start.after u, (Position.start.after u).after x⟩ =
      .ok (u.length, u.length + x.length) := by
  have hstop := offsetOf_after (u ++ x) r
  rw [List.append_assoc, Position.after_append, List.length_append] at hstop
  simp only [offsetsOf, offsetOf_after, hstop]
  rfl

theorem splice_append (u x r y : Text) :
    splice (u ++ (x ++ r)) u.length (u.length + x.length : Nat) y = .ok (u ++ (y ++ r)) := by
  have hstop : ((u.length + x.length : Nat) : Int) ≤ (u ++ (x ++ r)).length := by
    simp only [List.length_append]
    omega
  have hdrop : (u ++ (x ++ r)).drop (u.length + x.length) = r := by
    rw [← List.append_assoc, ← List.length_append, List.drop_left]
  rw [splice, if_pos ⟨by omega, by omega, hstop⟩, Int.toNat_natCast, Int.toNat_natCast,
    List.take_left, hdrop, List.append_assoc]

theorem insertAt_append (u r y : Text) :
    insertAt (u ++ r) u.length y = .ok (u ++ (y ++ r)) :=
  splice_append u [] r y

end Edit
end FlakeInputs
