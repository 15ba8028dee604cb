import FlakeInputs.Text.Basic
import FlakeInputs.Text.Printable

/-!
# Quoted text

The form in which messages show a piece of source text: between quotes, with
escapes for everything that would not be visible.
-/

namespace FlakeInputs
namespace Quoted

/-- The lower-case hexadecimal digits of `n`, padded with zeros to `width`. -/
def hex (width n : Nat) : Text :=
  let digits := Nat.toDigits 16 n
  List.replicate (width - digits.length) '0' ++ digits

/-- Single quotes, unless the text has a single quote and no double quote. -/
def quoteFor (t : Text) : Char :=
  if t.contains '\x27' && !t.contains '"' then '"' else '\x27'

/-- One character between quotes of the form `quote`. -/
def encodeChar (quote c : Char) : Text :=
  if c = quote ∨ c = '\\' then ['\\', c]
  else if c = '\n' then ['\\', 'n']
  else if c = '\r' then ['\\', 'r']
  else if c = '\t' then ['\\', 't']
  else if isPrintable c then [c]
  else if c.toNat < 0x100 then '\\' :: 'x' :: hex 2 c.toNat
  else if c.toNat < 0x10000 then '\\' :: 'u' :: hex 4 c.toNat
  else '\\' :: 'U' :: hex 8 c.toNat

/-- The text between quotes. -/
def encode (t : Text) : Text :=
  let quote := quoteFor t
  quote :: t.flatMap (encodeChar quote) ++ [quote]

end Quoted

/-- The quoted form of a text, for messages. -/
def Text.quoted (t : Text) : String :=
  (Quoted.encode t).display

end FlakeInputs
