import FlakeInputs.Error

/-!
# Splices

Finding a place in a text and putting something there.
-/

namespace FlakeInputs
namespace Edit

/-- The offset of a position in a text. -/
def offsetOf (text : Text) (p : Position) : Except Error Nat :=
  match p.offset? text with
  | some offset => .ok offset
  | none => .error (.positionNotFound p)

/-- The offsets of the ends of a span in a text. -/
def offsetsOf (text : Text) (span : Span) : Except Error (Nat × Nat) := do
  let start ← offsetOf text span.start
  let stop ← offsetOf text span.stop
  return (start, stop)

/-- The text with what is between two offsets replaced. -/
def splice (text : Text) (start stop : Int) (replacement : Text) : Except Error Text :=
  if 0 ≤ start ∧ start ≤ stop ∧ stop ≤ text.length then
    .ok (text.take start.toNat ++ replacement ++ text.drop stop.toNat)
  else .error (.invalidRange start stop text.length)

/-- The text with something put in at an offset. -/
def insertAt (text : Text) (offset : Nat) (addition : Text) : Except Error Text :=
  splice text offset offset addition

end Edit
end FlakeInputs
