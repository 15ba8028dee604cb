import FlakeInputs.Logged
import FlakeInputs.Manifest.Lookup
import FlakeInputs.Text.Blank

/-!
# Declared inputs

The inputs that a manifest declares, in whatever shape: in one `inputs` set or in
several, in keys with dots or in nested sets.
-/

namespace FlakeInputs

namespace Manifest

/-- The name of the attribute that holds the inputs. -/
def inputsName : Text := "inputs".toList

/-- The name of the attribute that holds the outputs. -/
def outputsName : Text := "outputs".toList

/-- The name of the attribute of an input that holds its url. -/
def urlName : Text := "url".toList

/-- The path of an input's url. -/
def urlPath (name : Text) : List Text :=
  [inputsName, name, urlName]

/-- The text of a url literal or of a string without interpolations, without blanks
around it. -/
def literalText? (e : Expr) : Option Text :=
  match e.node with
  | .uri text => some text
  | .string parts => (Part.soleText? parts).map Text.strip
  | .indentedString parts => (Part.soleText? parts).map Text.strip
  | _ => none

/-- The url at a path below an attribute set, if the path leads to one. -/
def urlAt (e : Expr) (path : List Text) : Except Error (Option Text) := do
  let found ← e.findFirst (some path)
  return found.bind fun b => literalText? b.value

/-- The binding that declares an input.  `nested` tells that it stands in an
`inputs` set, so that its key does not begin with `inputs`; `direct` that its key
goes on to the url. -/
structure Declared where
  name : Text
  binding : KeyValue
  nested : Bool
  direct : Bool

/-- Reads a key relative to the inputs: a name, or a name and `url`.  The flag tells
which. -/
def inputKey? : List (Option Text) → Option (Text × Bool)
  | [some name] => some (name, false)
  | [some name, some last] => if last = urlName then some (name, true) else none
  | _ => none

/-- The input that a binding declares, by the given names relative to the inputs.
A binding that declares none is noted and passed over. -/
def declare (b : KeyValue) (nested : Bool) (names : List (Option Text)) :
    Logged (List Declared) :=
  match inputKey? names with
  | some (name, direct) => return [⟨name, b, nested, direct⟩]
  | none => do
    Logged.note (.skippedBinding b.span)
    return []

/-- The input that a binding in an `inputs` set declares. -/
def declaredByChild : Binding → Logged (List Declared)
  | .inherited span _ _ => .fail (.inheritUnsupported span)
  | .keyValue child => declare child true child.names

/-- The inputs that a binding at the top level declares: those in its value if its
key is `inputs`, and otherwise the one that the rest of its key names. -/
def declaredBy (b : KeyValue) : Logged (List Declared) :=
  if b.names = [some inputsName] then
    match b.value.node with
    | .map children _ => do return (← children.mapM declaredByChild).flatten
    | node => .fail (.unsupportedExpression (some .inputs) node.kind b.value.span)
  else if b.names.head? = some (some inputsName) then declare b false b.names.tail
  else declare b false []

/-- The inputs that some bindings at the top level declare, in source order. -/
def collect (bs : List KeyValue) : Logged (List Declared) := do
  return (← bs.mapM declaredBy).flatten

/-- The url of a declared input, if it is a literal. -/
def Declared.url (d : Declared) : Except Error (Option Text) :=
  if d.direct then .ok (literalText? d.binding.value)
  else
    match d.binding.value.node with
    | .map _ _ => urlAt d.binding.value [urlName]
    | _ => .ok none

/-- An input as it is listed: under its first declaration, with the first url that
is given. -/
structure Entry where
  name : Text
  url? : Option Text
  binding : KeyValue

/-- The entries with one more declaration taken into account. -/
def record (e : Entry) : List Entry → List Entry
  | [] => [e]
  | seen :: rest =>
    if seen.name = e.name then { seen with url? := seen.url? <|> e.url? } :: rest
    else seen :: record e rest

/-- One entry per declared input, in source order. -/
def listInputs (e : Expr) : Logged (List Entry) := do
  let declared ← collect (← e.findAll (some [inputsName]))
  let entries ← declared.mapM fun d => do return ⟨d.name, ← d.url, d.binding⟩
  return entries.foldl (fun entries e => record e entries) []

end Manifest
end FlakeInputs
