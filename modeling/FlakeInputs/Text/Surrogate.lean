import FlakeInputs.Text.Basic

/-!
# Lone surrogates

The words of a command line are bytes.  A byte that is not part of any character is
read as a lone surrogate: a code point that is no character, and for which there are
no bytes in a file.

A text is made of characters.  Where a lone surrogate is in a text, it is held by a
stand-in, a character that is used for nothing else.
-/

namespace FlakeInputs

/-- The surrogates, counted from the first one. -/
abbrev Surrogate := Fin 0x800

namespace Surrogate

/-- The code point of a surrogate. -/
def code (s : Surrogate) : Nat :=
  0xD800 + s

/-- Whether a surrogate is what a byte is read as.  The name of a file can have such
a byte in it. -/
def isByte (s : Surrogate) : Bool :=
  0xDC80 ≤ s.code && s.code ≤ 0xDCFF

end Surrogate

/-- Which surrogate a character stands in for, if it stands in for any. -/
abbrev StandIns := Char → Option Surrogate

/-- Neighbouring surrogates in a text that cannot be turned into bytes, by the first
one and the offsets of the first and of the last one. -/
structure Unencodable where
  surrogate : Surrogate
  first : Nat
  last : Nat
deriving DecidableEq, Repr

namespace StandIns

/-- The first surrogates in a text that cannot be turned into bytes, which begin with
one that is `refused`.  The text begins at `offset`. -/
def unencodable? (standIns : StandIns) (refused : Surrogate → Bool) (offset : Nat) :
    Text → Option Unencodable
  | [] => none
  | c :: t =>
    match (standIns c).filter refused with
    | some s => some ⟨s, offset, offset + (t.takeWhile fun c => (standIns c).isSome).length⟩
    | none => unencodable? standIns refused (offset + 1) t

/-- The number of bytes of a name of a file. -/
def sizeOfName (standIns : StandIns) (name : Text) : Nat :=
  name.foldl (fun size c => size + if (standIns c).isSome then 1 else c.utf8Size) 0

end StandIns
end FlakeInputs
