import FlakeInputs.Text.Blank

/-!
# Version requirements

A requirement is one comparator, such as `>=1.0` or `0.2405.*`, or several with
commas between them.
-/

namespace FlakeInputs
namespace Version

/-- The text behind the relation of a comparator, if it has one. -/
def dropRelation : Text → Text
  | '~' :: t => t
  | '^' :: t => t
  | '<' :: '=' :: t => t
  | '>' :: '=' :: t => t
  | '<' :: t => t
  | '>' :: t => t
  | '=' :: t => t
  | t => t

/-- The text behind a number or a wildcard. -/
def dropNumber? (t : Text) : Option Text :=
  match t with
  | [] => none
  | c :: rest =>
    if c.isDigit then some (rest.dropWhile Char.isDigit)
    else if c == '*' || c == 'x' || c == 'X' then some rest
    else none

/-- The text behind at most `n` numbers with a dot before each. -/
def dropNumbers : Nat → Text → Text
  | n + 1, '.' :: t =>
    match dropNumber? t with
    | some rest => dropNumbers n rest
    | none => '.' :: t
  | _, t => t

/-- Characters of a pre-release or of build metadata. -/
def isLabelChar (c : Char) : Bool :=
  c.isDigit || c.isAlpha || c == '.' || c == '-'

/-- The text behind a mark with a label, if it begins with one. -/
def dropLabel (mark : Char) : Text → Text
  | c :: d :: t => if c = mark && isLabelChar d then t.dropWhile isLabelChar else c :: d :: t
  | t => t

/-- Whether a text is one comparator: a relation or none, blanks, one to three
numbers, a pre-release or none, and build metadata or none. -/
def isComparator (t : Text) : Bool :=
  match dropNumber? ((dropRelation t).dropWhile isBlank) with
  | none => false
  | some rest => (dropLabel '+' (dropLabel '-' (dropNumbers 2 rest))).isEmpty

/-- Whether a text and those that follow it are comparators, apart from blanks
around the commas between them. -/
def areComparators (t : Text) : List Text → Bool
  | [] => isComparator t
  | next :: rest =>
    isComparator (t.trimEnd isBlank) && areComparators (next.dropWhile isBlank) rest

/-- Whether a text is a version requirement. -/
def isRequirement (t : Text) : Bool :=
  match Text.splitOn ',' t with
  | [] => false
  | first :: rest => areComparators first rest

end Version
end FlakeInputs
