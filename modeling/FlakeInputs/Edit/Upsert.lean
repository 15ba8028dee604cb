import FlakeInputs.Edit.Insertion
import FlakeInputs.Grammar.Parse

/-!
# Setting the url of an input

If the input is declared, its url is replaced in place; otherwise it is declared.
-/

namespace FlakeInputs
namespace Edit

/-- Puts a url in the place of a value that is a url literal or a string without
interpolations. -/
def replaceValue (value : Expr) (url text : Text) : Except Error Text :=
  match value.node with
  | .string [.text span _] => replace span (escape url)
  | .indentedString [.text span _] => replace span (escapeIndented url)
  | .string _ | .indentedString _ => .error (.interpolatedValue value.span)
  | .uri _ => replace value.span (stringLiteral url)
  | node => .error (.unsupportedValue node.kind value.span)
where
  /-- Puts a text in the place of a span. -/
  replace (span : Span) (replacement : Text) : Except Error Text := do
    let (start, stop) ← offsetsOf text span
    splice text start stop replacement

/-- Sets the url at a path to `url`, or declares the input if the path leads
nowhere. -/
def upsertInput (e : Expr) (name url text : Text) (path : List Text)
    (location? : Option Location) : Logged Text := do
  match (← e.findFirst (some path)) with
  | some binding =>
    Logged.note (.urlFound path binding.span)
    Logged.note (.urlReplaced name)
    replaceValue binding.value url text
  | none =>
    Logged.note (.urlMissing path location?)
    insertInput e name url text location?

/-- Sets the url of an input in the text of a manifest. -/
def addInput (text name url : Text) (location? : Option Location) : Logged Text := do
  let e ← Expr.parse text
  upsertInput e name url text (Manifest.urlPath name) location?

end Edit
end FlakeInputs
