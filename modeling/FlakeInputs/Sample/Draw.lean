import FlakeInputs.Number.Binary64
import FlakeInputs.Sample.Twister

/-!
# Draws

Random choices in ranges and lists.  A choice that the words of the generator do
not divide into evenly is drawn again until it fits; if it does not fit in a given
number of attempts there is no result.
-/

namespace FlakeInputs
namespace Sample

/-- Something that depends on words drawn from a generator, and on how often a draw is
tried. -/
abbrev Draw := ReaderT Nat (StateT Twister Option)

namespace Draw
variable {α : Type}

/-- A 32-bit word. -/
def word : Draw UInt32 := fun _ g => some g.draw

/-- The first of at most `n` draws that fits. -/
def firstOf (draw : Draw (Option α)) : Nat → Draw α
  | 0 => failure
  | n + 1 => do
    match (← draw) with
    | some a => return a
    | none => firstOf draw n

/-- The first draw that fits, of as many as are tried. -/
def retry (draw : Draw (Option α)) : Draw α := do
  firstOf draw (← read)

/-- A number below `n`, for `n` up to 2^32. -/
def below (n : Nat) : Draw Nat :=
  retry do
    let bits := n.log2 + 1
    let k := (← word).toNat >>> (32 - bits)
    return if k < n then some k else none

/-- A number from `low` to `high`. -/
def between (low high : Nat) : Draw Nat := do
  return low + (← below (high - low + 1))

/-- A member of a list. -/
def choose (xs : List α) : Draw α := do
  let i ← below xs.length
  match xs[i]? with
  | some x => return x
  | none => failure

/-- A number below 2^53, as a fraction of which chances are given. -/
def fraction : Draw Nat := do
  let a := (← word).toNat >>> 5
  let b := (← word).toNat >>> 6
  return (a <<< 26) + b

/-- The value of the leading bit of a double, counted in its last bit. -/
def leadingBit : Nat := 1 <<< 52

/-- The least number below 2^53 that is not below the given share of 2^53.  The
share `num / den`, between zero and one, is taken at double precision. -/
def share (num den : Nat) : Nat :=
  let bits := Binary64.nearestBits num den
  let digits := leadingBit + bits % leadingBit
  let unit := 1 <<< (1022 - bits / leadingBit)
  (digits + unit - 1) / unit

/-- Whether something happens that has the chance `num / den`. -/
def chance (num den : Nat) : Draw Bool := do
  return (← fraction) < share num den

/-- Draws `n` times. -/
def times (n : Nat) (draw : Draw α) : Draw (List α) :=
  (List.range n).mapM fun _ => draw

end Draw
end Sample
end FlakeInputs
