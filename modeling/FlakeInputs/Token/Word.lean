import FlakeInputs.Token.Basic

/-!
# Words

Identifiers, numbers, paths and urls overlap, so a word is the longest text
that any class of words takes, and the first class among equals.

A class is a function that gives the longest member of the class with which a
text begins, or the empty text if there is none.
-/

namespace FlakeInputs
namespace Word

/-- ASCII letters. -/
def isLetter (c : Char) : Bool :=
  c.isAlpha

/-- ASCII digits. -/
def isDigit (c : Char) : Bool :=
  c.isDigit

/-- Characters that can begin an identifier. -/
def isIdentStart (c : Char) : Bool :=
  isLetter c || c == '_'

/-- Characters that can go on in an identifier. -/
def isIdentChar (c : Char) : Bool :=
  isLetter c || isDigit c || c == '_' || c == '\x27' || c == '-'

/-- Characters of a path segment. -/
def isPathChar (c : Char) : Bool :=
  isLetter c || isDigit c || c == '.' || c == '_' || c == '-' || c == '+'

/-- Characters that can go on in the scheme of a url. -/
def isSchemeChar (c : Char) : Bool :=
  isLetter c || isDigit c || c == '+' || c == '-' || c == '.'

/-- Characters of a url behind the scheme. -/
def isUriChar (c : Char) : Bool :=
  isLetter c || isDigit c || "%/?:@&=+$,-_.!~*'".toList.contains c

/-- A letter or underscore, then identifier characters. -/
def identifier : Text → Text
  | [] => []
  | c :: t => if isIdentStart c then c :: t.takeWhile isIdentChar else []

/-- Digits. -/
def integer (t : Text) : Text :=
  t.takeWhile isDigit

/-- The part of a decimal number in front of an exponent.  Leading zeros are not
part of it, apart from a single one right before the point. -/
def mantissa : Text → Text
  | '.' :: t =>
    let digits := t.takeWhile isDigit
    if digits.isEmpty then [] else '.' :: digits
  | '0' :: '.' :: t =>
    let digits := t.takeWhile isDigit
    if digits.isEmpty then [] else '0' :: '.' :: digits
  | c :: t =>
    if isDigit c && c != '0' then
      match t.dropWhile isDigit with
      | '.' :: r => c :: t.takeWhile isDigit ++ '.' :: r.takeWhile isDigit
      | _ => []
    else []
  | [] => []

/-- A sign, or nothing. -/
def sign : Text → Text
  | '+' :: _ => ['+']
  | '-' :: _ => ['-']
  | _ => []

/-- An exponent mark, an optional sign and digits. -/
def exponent : Text → Text
  | [] => []
  | e :: t =>
    if e == 'e' || e == 'E' then
      let s := sign t
      let digits := (t.drop s.length).takeWhile isDigit
      if digits.isEmpty then [] else e :: s ++ digits
    else []

/-- A decimal number with a point, with or without an exponent. -/
def float (t : Text) : Text :=
  match mantissa t with
  | [] => []
  | m => m ++ exponent (t.drop m.length)

/-- Path characters, and slashes that a path character follows. -/
def segments : Text → Text
  | '/' :: c :: t => if isPathChar c then '/' :: c :: segments t else []
  | c :: t => if isPathChar c then c :: segments t else []
  | [] => []

/-- The slash at the start of a text, if there is one. -/
def slash : Text → Text
  | '/' :: _ => ['/']
  | _ => []

/-- A path with at least one slash that a segment follows.  A tilde can stand in
place of the first segment.  One more slash at the end is taken along, so that
it can be refused. -/
def path : Text → Text
  | '~' :: t =>
    match segments t with
    | '/' :: body => '~' :: '/' :: body ++ slash (t.drop (body.length + 1))
    | _ => []
  | t =>
    let body := segments t
    if body.contains '/' then body ++ slash (t.drop body.length) else []

/-- A path between angle brackets. -/
def searchPath : Text → Text
  | '<' :: t =>
    match segments t with
    | [] => []
    | c :: body =>
      match t.drop (body.length + 1) with
      | '>' :: _ => if c == '/' then [] else '<' :: c :: body ++ ['>']
      | _ => []
  | _ => []

/-- A scheme, a colon and at least one more character. -/
def uri : Text → Text
  | [] => []
  | c :: t =>
    if isLetter c then
      match t.dropWhile isSchemeChar with
      | ':' :: r =>
        let rest := r.takeWhile isUriChar
        if rest.isEmpty then [] else c :: t.takeWhile isSchemeChar ++ ':' :: rest
      | _ => []
    else []

/-- The classes of words; the earlier class wins when two take the same text. -/
def classes : List (TokenKind × (Text → Text)) :=
  [(.identifier, identifier), (.integer, integer), (.float, float), (.path, path),
   (.searchPath, searchPath), (.uri, uri)]

/-- The longer of the best word so far and the member of one more class. -/
def longer (t : Text) (best : Option (TokenKind × Text)) (entry : TokenKind × (Text → Text)) :
    Option (TokenKind × Text) :=
  let lexeme := entry.2 t
  let record := best.elim 0 fun word => word.2.length
  if record < lexeme.length then some (entry.1, lexeme) else best

/-- The longest word with which a text begins, with its class. -/
def longest? (t : Text) : Option (TokenKind × Text) :=
  classes.foldl (longer t) none

theorem longest?_ne_nil {t lexeme : Text} {kind : TokenKind}
    (h : longest? t = some (kind, lexeme)) : lexeme ≠ [] := by
  have keep : ∀ (entries : List (TokenKind × (Text → Text))) (best : Option (TokenKind × Text)),
      (∀ w ∈ best, w.2 ≠ []) → ∀ w ∈ entries.foldl (longer t) best, w.2 ≠ [] := by
    intro entries
    induction entries with
    | nil => exact fun best hbest => hbest
    | cons entry entries ih =>
      intro best hbest
      refine ih _ ?_
      dsimp only [longer]
      split
      · next hlt =>
        intro w hw
        obtain rfl := Option.some.inj hw
        exact List.ne_nil_of_length_pos (Nat.zero_lt_of_lt hlt)
      · exact hbest
  exact keep classes none (by simp) (kind, lexeme) h

end Word
end FlakeInputs
