import FlakeInputs.Text.Quoted

/-!
# Strings in JSON

The form of a text as a JSON string of ASCII characters.
-/

namespace FlakeInputs
namespace Json

/-- A code unit as an escape. -/
def unit (n : Nat) : Text :=
  '\\' :: 'u' :: Quoted.hex 4 n

/-- One character in a JSON string.  Beyond the first plane a character takes two
code units. -/
def encodeChar (c : Char) : Text :=
  if c = '"' then ['\\', '"']
  else if c = '\\' then ['\\', '\\']
  else if c = '\n' then ['\\', 'n']
  else if c = '\r' then ['\\', 'r']
  else if c = '\t' then ['\\', 't']
  else if c = '\x08' then ['\\', 'b']
  else if c = '\x0c' then ['\\', 'f']
  else if 0x20 ≤ c.toNat ∧ c.toNat < 0x7F then [c]
  else if c.toNat < 0x10000 then unit c.toNat
  else
    let n := c.toNat - 0x10000
    unit (0xD800 + n / 0x400) ++ unit (0xDC00 + n % 0x400)

/-- A text as a JSON string. -/
def string (t : Text) : Text :=
  '"' :: t.flatMap encodeChar ++ ['"']

end Json
end FlakeInputs
