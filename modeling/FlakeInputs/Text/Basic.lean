/-!
# Text

Manifests, lexemes, attribute names and urls are lists of characters.  Offsets
and lengths count characters.

A string is used only where text is shown to a person, in messages and log
lines.
-/

namespace FlakeInputs

/-- Text as the list of its characters. -/
abbrev Text := List Char

namespace Text

/-- Whether `pattern` occurs somewhere in the text. -/
def occurs (pattern : Text) : Text → Bool
  | [] => pattern.isEmpty
  | c :: t => pattern.isPrefixOf (c :: t) || occurs pattern t

/-- The pieces between the occurrences of `sep`; there is always at least one. -/
def splitOn (sep : Char) : Text → List Text
  | [] => [[]]
  | c :: t =>
    if c = sep then [] :: splitOn sep t
    else
      match splitOn sep t with
      | [] => [[c]]
      | w :: ws => (c :: w) :: ws

/-- The text without the characters at its end that satisfy `p`. -/
def trimEnd (p : Char → Bool) (t : Text) : Text :=
  (t.reverse.dropWhile p).reverse

/-- The text without the characters at either end that satisfy `p`. -/
def trim (p : Char → Bool) (t : Text) : Text :=
  trimEnd p (t.dropWhile p)

/-- The characters from offset `start` up to, not including, offset `stop`. -/
def slice (t : Text) (start stop : Nat) : Text :=
  (t.take stop).drop start

/-- Lower-case form of the ASCII letters; other characters stay. -/
def lower (t : Text) : Text :=
  t.map Char.toLower

/-- The characters outside of ASCII whose upper-case forms are ASCII letters, with these
forms. -/
def upperForms : List (Char × String) :=
  [('ß', "SS"), ('ı', "I"), ('ſ', "S"), ('ﬀ', "FF"), ('ﬁ', "FI"), ('ﬂ', "FL"), ('ﬃ', "FFI"),
   ('ﬄ', "FFL"), ('ﬅ', "ST"), ('ﬆ', "ST")]

/-- Upper-case form of the characters that have one in ASCII letters; other characters
stay. -/
def upper (t : Text) : Text :=
  t.flatMap fun c => (upperForms.lookup c).elim [c.toUpper] String.toList

/-- The text as a string, for display. -/
def display (t : Text) : String :=
  String.ofList t

end Text
end FlakeInputs
