import FlakeInputs.Token.Word

/-!
# Written forms

How names, strings and input declarations are written in a manifest.
-/

namespace FlakeInputs
namespace Edit

/-- A text as it is written between double quotes. -/
def escape : Text → Text
  | [] => []
  | '\\' :: t => '\\' :: '\\' :: escape t
  | '"' :: t => '\\' :: '"' :: escape t
  | '$' :: '{' :: t => '\\' :: '$' :: '{' :: escape t
  | c :: t => c :: escape t

/-- A text as it is written in an indented string. -/
def escapeIndented : Text → Text
  | [] => []
  | '\x27' :: '\x27' :: t => '\x27' :: '\x27' :: '\x27' :: escapeIndented t
  | '$' :: '{' :: t => '\x27' :: '\x27' :: '$' :: '{' :: escapeIndented t
  | c :: t => c :: escapeIndented t

/-- A text as a string literal. -/
def stringLiteral (t : Text) : Text :=
  '"' :: escape t ++ ['"']

/-- Whether a name can be written bare wherever an identifier can stand. -/
def isIdentifier (name : Text) : Bool :=
  !name.isEmpty && Word.identifier name == name && (Keyword.ofText? name).isNone

/-- A name as an attribute key: quoted if it cannot be written bare.  The word `or`
is reserved, but not as a key. -/
def attrName (name : Text) : Text :=
  if isIdentifier name || name == "or".toList then name else stringLiteral name

/-- The declaration of an input's url.  At the top level of the manifest it is
qualified by the `inputs` attribute. -/
def declaration (name url : Text) (qualified : Bool) : Text :=
  (if qualified then "inputs.".toList else []) ++ attrName name ++ ".url = ".toList ++
    stringLiteral url ++ [';']

end Edit
end FlakeInputs
