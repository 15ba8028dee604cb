import FlakeInputs.Proofs.Source.Offsets

/-!
# The positions of a text

A text has one position for each of its offsets, the one behind the last character included, and
they are in the same order.  What is written behind a position does not move it.
-/

namespace FlakeInputs

/-- The position behind the first `offset` characters of a text, by the count of lines and columns
that gives tokens their spans. -/
def Text.positionAt (text : Text) (offset : Nat) : Position :=
  Position.start.after (text.take offset)

namespace Position

/-- The search for a position stops behind the characters that lead to it. -/
theorem offsetFrom?_eq_some {target p : Position} {text : Text} {i : Nat} :
    offsetFrom? target p text = some i ↔ i ≤ text.length ∧ target = p.after (text.take i) := by
  induction text generalizing p i with
  | nil =>
    rw [offsetFrom?, List.take_nil, after_nil, List.length_nil, Nat.le_zero, eq_comm (a := target)]
    by_cases hp : p = target
    · simp [hp, eq_comm]
    · simp [hp]
  | cons c text ih =>
    rw [offsetFrom?]
    cases i with
    | zero => by_cases hp : p = target <;> simp [hp, eq_comm (a := target)]
    | succ i =>
      rw [List.take_succ_cons, after_cons, List.length_cons, Nat.add_le_add_iff_right]
      by_cases hp : p = target
      · -- Positions only grow, so none behind `c` is the one in front of it.
        subst hp
        have hne : p ≠ (p.next c).after (text.take i) := by
          rw [← after_cons]
          exact after_ne (List.cons_ne_nil c _)
        simp [hne]
      · simp [hp, ih]

end Position

namespace Text

variable {text : Text}

/-- A later offset is at a position further behind. -/
theorem positionAt_lt {i j : Nat} (hij : i < j) (hj : j ≤ text.length) :
    text.positionAt i < text.positionAt j := by
  have hbetween : (text.take j).drop i ≠ [] := by
    rw [ne_eq, List.drop_eq_nil_iff, List.length_take]
    omega
  have hsplit := List.take_append_drop i (text.take j)
  rw [List.take_take, Nat.min_eq_left (Nat.le_of_lt hij)] at hsplit
  rw [positionAt, positionAt, ← hsplit, Position.after_append]
  exact Position.lt_after _ hbetween

theorem positionAt_lt_iff {i j : Nat} (hi : i ≤ text.length) (hj : j ≤ text.length) :
    text.positionAt i < text.positionAt j ↔ i < j := by
  refine ⟨fun hlt => ?_, fun hij => positionAt_lt hij hj⟩
  rcases Nat.lt_trichotomy i j with hij | rfl | hji
  · exact hij
  · exact absurd hlt (Position.lt_irrefl _)
  · exact absurd hlt (Position.lt_asymm (positionAt_lt hji hi))

/-- A text that begins in the same way has the same positions there. -/
theorem positionAt_append {u : Text} {i : Nat} (hi : i ≤ u.length) (r : Text) :
    positionAt (u ++ r) i = u.positionAt i := by
  rw [positionAt, List.take_append_of_le_length hi, positionAt]

end Text

namespace Edit

variable {text : Text}

theorem offsetOf_eq_ok {q : Position} {i : Nat} :
    offsetOf text q = .ok i ↔ i ≤ text.length ∧ q = text.positionAt i := by
  rw [offsetOf, Text.positionAt, ← Position.offsetFrom?_eq_some, Position.offset?]
  cases Position.offsetFrom? q .start text <;> simp

theorem offsetOf_eq_error {q : Position} {error : Error} :
    offsetOf text q = .error error ↔
      error = .positionNotFound q ∧ ∀ i ≤ text.length, q ≠ text.positionAt i := by
  cases h : offsetOf text q with
  | ok i =>
    obtain ⟨hi, hq⟩ := offsetOf_eq_ok.1 h
    simp only [reduceCtorEq, false_iff, not_and]
    exact fun _ hnone => hnone i hi hq
  | error found =>
    have hnone : ∀ i ≤ text.length, q ≠ text.positionAt i := by
      intro i hi hq
      rw [offsetOf_eq_ok.2 ⟨hi, hq⟩] at h
      cases h
    have hfound : found = .positionNotFound q := by
      unfold offsetOf at h
      split at h
      · cases h
      · exact (Except.error.inj h).symm
    rw [hfound, Except.error.injEq, eq_comm]
    exact (and_iff_left hnone).symm

/-- A splice leaves what stands in front of it. -/
theorem take_of_splice {start stop : Int} {replacement out : Text}
    (h : splice text start stop replacement = .ok out) {i : Nat} (hi : (i : Int) ≤ start) :
    i ≤ text.length ∧ ∃ r, out = text.take i ++ r := by
  unfold splice at h
  split at h
  · next hrange =>
    refine ⟨by omega, (text.take start.toNat).drop i ++ (replacement ++ text.drop stop.toNat), ?_⟩
    have htake : text.take i = (text.take start.toNat).take i := by
      rw [List.take_take, Nat.min_eq_left (by omega)]
    rw [← Except.ok.inj h, htake, List.append_assoc, ← List.append_assoc _ (List.drop _ _),
      List.take_append_drop]
  · cases h

/-- The positions of a text and its offsets correspond: each offset is found at its position, no
other position is found, and both are in the same order.  After a splice that is not in front of
an offset, the offset is still found at its old position. -/
theorem positions_correspond (text : Text) :
    (∀ i ≤ text.length, offsetOf text (text.positionAt i) = .ok i) ∧
    (∀ q, offsetOf text q = .error (.positionNotFound q) ↔
      ∀ i ≤ text.length, q ≠ text.positionAt i) ∧
    (∀ i ≤ text.length, ∀ j ≤ text.length, text.positionAt i < text.positionAt j ↔ i < j) ∧
    ∀ (i : Nat) (start stop : Int) (replacement out : Text),
      splice text start stop replacement = .ok out → (i : Int) ≤ start →
        out.positionAt i = text.positionAt i ∧ offsetOf out (text.positionAt i) = .ok i := by
  refine ⟨fun i hi => offsetOf_eq_ok.2 ⟨hi, rfl⟩, fun q => ?_, ?_, ?_⟩
  · rw [offsetOf_eq_error, and_iff_right rfl]
  · exact fun i hi j hj => Text.positionAt_lt_iff hi hj
  · intro i start stop replacement out hsplice hi
    obtain ⟨hlength, r, rfl⟩ := take_of_splice hsplice hi
    have htake : (text.take i).length = i := by
      rw [List.length_take, Nat.min_eq_left hlength]
    have hposition : Text.positionAt (text.take i ++ r) i = text.positionAt i := by
      rw [Text.positionAt_append (Nat.le_of_eq htake.symm), Text.positionAt, List.take_take,
        Nat.min_self, Text.positionAt]
    refine ⟨hposition, offsetOf_eq_ok.2 ⟨?_, hposition.symm⟩⟩
    rw [List.length_append, htake]
    exact Nat.le_add_right i r.length

/-- In a text of two lines, the start of the second line is found where the line feed ends, and
is still there when the rest of the line is replaced. -/
theorem positions_correspond_line :
    offsetOf "a\r\nb".toList ⟨2, 1⟩ = .ok 3 ∧
      offsetOf "a\r\nb".toList ⟨1, 4⟩ = .error (.positionNotFound ⟨1, 4⟩) ∧
      (⟨1, 3⟩ : Position) < ⟨2, 1⟩ ∧
      splice "a\r\nb".toList 3 4 "\n".toList = .ok "a\r\n\n".toList ∧
      offsetOf "a\r\n\n".toList ⟨2, 1⟩ = .ok 3 := by
  obtain ⟨hfound, hmissing, horder, hsplice⟩ := positions_correspond "a\r\nb".toList
  have hsecond : Text.positionAt "a\r\nb".toList 3 = ⟨2, 1⟩ := by decide
  have hend : splice "a\r\nb".toList 3 4 "\n".toList = .ok "a\r\n\n".toList := rfl
  refine ⟨hsecond ▸ hfound 3 (by decide), (hmissing ⟨1, 4⟩).2 (by decide),
    (horder 2 (by decide) 3 (by decide)).2 (by decide), hend, ?_⟩
  exact hsecond ▸ (hsplice 3 3 4 "\n".toList _ hend (by decide)).2

end Edit
end FlakeInputs
