import FlakeInputs.Text.Basic

/-!
# Positions

A position is a line and a column, both counted from one.  Columns count
characters, and a line ends at a newline character alone, so a carriage return
takes a column like any other character.

A caller may ask for a position that no text has, so lines and columns are
integers.
-/

namespace FlakeInputs

/-- A line and a column in a text. -/
structure Position where
  line : Int
  column : Int
deriving DecidableEq, Repr

namespace Position

/-- The position of the first character of a text. -/
def start : Position := ⟨1, 1⟩

/-- The position behind the character `c` that stands at `p`. -/
def next (p : Position) (c : Char) : Position :=
  if c = '\n' then ⟨p.line + 1, 1⟩ else ⟨p.line, p.column + 1⟩

/-- The position behind the text `t` that starts at `p`. -/
def after (p : Position) (t : Text) : Position :=
  t.foldl next p

/-- Positions are ordered by line, then by column. -/
def lt (p q : Position) : Prop :=
  p.line < q.line ∨ p.line = q.line ∧ p.column < q.column

instance : LT Position := ⟨lt⟩

instance (p q : Position) : Decidable (p < q) :=
  inferInstanceAs (Decidable (_ ∨ _))

/-- The number of characters before `target` in a text that starts at `p`, if
the text has that position.  The position behind the last character counts. -/
def offsetFrom? (target p : Position) : Text → Option Nat
  | [] => if p = target then some 0 else none
  | c :: t =>
    if p = target then some 0
    else (offsetFrom? target (p.next c) t).map (· + 1)

/-- The offset of a position in a text, if the text has that position. -/
def offset? (p : Position) (text : Text) : Option Nat :=
  offsetFrom? p start text

end Position

@[simp]
theorem Position.after_nil (p : Position) : p.after [] = p := rfl

@[simp]
theorem Position.after_cons (p : Position) (c : Char) (t : Text) :
    p.after (c :: t) = (p.next c).after t := rfl

@[simp]
theorem Position.after_append (p : Position) (s t : Text) :
    p.after (s ++ t) = (p.after s).after t := by
  simp [Position.after]

end FlakeInputs
