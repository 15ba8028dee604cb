import FlakeInputs.Number.Decimal

/-!
# Double precision

The double that is nearest to a decimal number, in exact arithmetic.  A number
half-way between two doubles goes to the one with the even last bit.
-/

namespace FlakeInputs

/-- A double, as its 64 bits. -/
structure Binary64 where
  bits : UInt64
deriving DecidableEq, Repr

namespace Binary64

/-- The bits of positive infinity. -/
def infinityBits : Nat := 0x7FF0000000000000

/-- The whole number nearest to `num / den`, a tie going to the even one. -/
def roundDiv (num den : Nat) : Nat :=
  let q := num / den
  let twice := 2 * (num % den)
  if twice < den then q
  else if den < twice then q + 1
  else q + q % 2

/-- The number `num / den * 2 ^ e` as a fraction of whole numbers. -/
def scale (num den : Nat) (e : Int) : Nat × Nat :=
  if 0 ≤ e then (num <<< e.toNat, den) else (num, den <<< (-e).toNat)

/-- The largest `k` with `2 ^ k ≤ num / den`, for positive `num` and `den`. -/
def log2Div (num den : Nat) : Int :=
  let k : Int := (num.log2 : Int) - den.log2
  let (a, b) := scale num den (-k)
  if b ≤ a then k else k - 1

/-- The bits of the double nearest to `num / den`.  The last bit of a double has
the value `2 ^ q`; 53 bits are kept, fewer where `q` would fall below -1074. -/
def nearestBits (num den : Nat) : Nat :=
  if num = 0 then 0
  else
    let q := max (log2Div num den - 52) (-1074)
    let (a, b) := scale num den (-q)
    min infinityBits (((q + 1074).toNat <<< 52) + roundDiv a b)

/-- The double nearest to a decimal number.  Numbers of more than 310 places
before the point are infinite, and numbers with more than 330 zeros behind it
are zero, so no power of ten gets large. -/
def ofDecimal (d : Decimal) : Binary64 :=
  let places := (Nat.toDigits 10 d.digits).length + d.exponent
  if d.digits = 0 ∨ places < -330 then ⟨0⟩
  else if 310 < places then ⟨infinityBits.toUInt64⟩
  else if 0 ≤ d.exponent then
    ⟨(nearestBits (d.digits * Nat.pow 10 d.exponent.toNat) 1).toUInt64⟩
  else ⟨(nearestBits d.digits (Nat.pow 10 (-d.exponent).toNat)).toUInt64⟩

/-- The value of a number as it is written. -/
def ofText (t : Text) : Binary64 :=
  ofDecimal (.ofText t)

end Binary64
end FlakeInputs
