import FlakeInputs.Text.Basic

/-!
# Blank characters

The Unicode white space, information separators included.  Zero-width
characters are not blank.
-/

namespace FlakeInputs

/-- The blank characters as closed ranges of code points. -/
def blankRanges : List (Nat × Nat) :=
  [(0x09, 0x0D), (0x1C, 0x20), (0x85, 0x85), (0xA0, 0xA0), (0x1680, 0x1680),
   (0x2000, 0x200A), (0x2028, 0x2029), (0x202F, 0x202F), (0x205F, 0x205F),
   (0x3000, 0x3000)]

/-- Whether a character is white space. -/
def isBlank (c : Char) : Bool :=
  blankRanges.any fun (lo, hi) => lo ≤ c.toNat && c.toNat ≤ hi

namespace Text

/-- The text without blanks at either end. -/
def strip (t : Text) : Text :=
  t.trim isBlank

/-- Whether nothing but blanks is in the text. -/
def isBlank (t : Text) : Bool :=
  t.all FlakeInputs.isBlank

end Text
end FlakeInputs
