import FlakeInputs.Text.Basic

/-!
# Decimal numbers

The value of a number as it is written.
-/

namespace FlakeInputs

/-- The value of a text of decimal digits. -/
def digitsValue (t : Text) : Nat :=
  t.foldl (fun n c => 10 * n + (c.toNat - '0'.toNat)) 0

/-- The number `digits * 10 ^ exponent`. -/
structure Decimal where
  digits : Nat
  exponent : Int
deriving DecidableEq, Repr

namespace Decimal

/-- The value of an exponent behind its mark: digits, with or without a sign. -/
def exponentValue : Text → Int
  | '-' :: t => -(digitsValue t)
  | '+' :: t => digitsValue t
  | t => digitsValue t

/-- The value of a number with an optional point and an optional exponent. -/
def ofText (t : Text) : Decimal :=
  let mantissa := t.takeWhile fun c => c != 'e' && c != 'E'
  let exponent := t.drop (mantissa.length + 1)
  let whole := mantissa.takeWhile Char.isDigit
  let fraction := mantissa.drop (whole.length + 1)
  ⟨digitsValue (whole ++ fraction), exponentValue exponent - fraction.length⟩

end Decimal
end FlakeInputs
