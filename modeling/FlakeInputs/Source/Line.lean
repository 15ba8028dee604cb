import FlakeInputs.Text.Basic

/-!
# Lines

The line around an offset of a text.  A line ends at a newline character, and a
carriage return before it belongs to the line.
-/

namespace FlakeInputs
namespace Text

/-- Offset of the first character of the line that contains `offset`. -/
def lineStart (t : Text) (offset : Nat) : Nat :=
  let before := t.take offset
  before.length - (before.reverse.takeWhile (· != '\n')).length

/-- Offset of the newline that ends the line that contains `offset`, or of the end
of the text. -/
def lineEnd (t : Text) (offset : Nat) : Nat :=
  min offset t.length + ((t.drop offset).takeWhile (· != '\n')).length

/-- Whether a character is used to indent a line. -/
def isIndentChar (c : Char) : Bool :=
  c == ' ' || c == '\t'

/-- The spaces and tabs between the start of the line and `offset`, or `none` if
anything else stands there. -/
def indentation? (t : Text) (offset : Nat) : Option Text :=
  let before := t.slice (t.lineStart offset) offset
  if before.all isIndentChar then some before else none

/-- Whether nothing but blanks or a line comment stands between `offset` and the end
of the line. -/
def restIsBlank (t : Text) (offset : Nat) : Bool :=
  let rest := (t.slice offset (t.lineEnd offset)).dropWhile fun c => isIndentChar c || c == '\r'
  rest.isEmpty || rest.head? == some '#'

/-- How lines end in a text: in both characters if that occurs anywhere. -/
def newline (t : Text) : Text :=
  if occurs ['\r', '\n'] t then ['\r', '\n'] else ['\n']

end Text
end FlakeInputs
