import FlakeInputs.Edit.Parameters
import FlakeInputs.Manifest.Inputs
import FlakeInputs.Source.Line

/-!
# Declaring new inputs

A new input is declared next to those that the manifest has, and its name is
threaded into the outputs function.

Both edits are planned from the spans of one tree.  The edit that is later in the
text is made first, because a splice moves only the text behind it.

The declaration goes above the first input or below the last one.  If neither
location is asked for, it goes below the first `inputs` binding, or below the last
binding in it.
-/

namespace FlakeInputs
namespace Edit

/-- What a manifest has, and so what there is to do.  `hasInputs` comes with the
binding next to which the declaration goes, and with the side of it; `nested` tells
that this binding stands in an `inputs` set. -/
inductive Finding
  | hasInputs (binding : KeyValue) (location : Location) (nested : Bool)
  | hasOutputs (binding : KeyValue)
  | missingInputs (context : Span)
  | missingOutputs (context : Span)
  | missingBoth (root : Span)

/-- The task that a finding asks for. -/
def Finding.task : Finding → Task
  | hasInputs _ _ _ => .hasInputs
  | hasOutputs _ => .hasOutputs
  | missingInputs _ => .missingInputs
  | missingOutputs _ => .missingOutputs
  | missingBoth _ => .missingBoth

/-! ## Finding out what to do -/

/-- The binding next to which a declaration goes, and whether it is nested: the
first `inputs` binding, or the last input that is declared. -/
def anchor? (e : Expr) (location? : Option Location) :
    Logged (Option (KeyValue × Bool)) := do
  match (← e.findFirst (some [Manifest.inputsName])) with
  | none => return none
  | some first =>
    match location? with
    | some .bottom =>
      let declared ← Manifest.collect (← e.findAll (some [Manifest.inputsName]))
      return match declared.getLast? with
        | some last => some (last.binding, last.nested)
        | none => some (first, false)
    | _ => return some (first, false)

/-- What there is to do, in the order in which it has to be done. -/
def classify (e : Expr) (location? : Option Location) : Logged (List Finding) := do
  let inputs ← anchor? e location?
  let outputs ← e.findFirst (some [Manifest.outputsName])
  let side := location?.getD .bottom
  match inputs, outputs with
  | some (binding, nested), some outputs =>
    if binding.span.start < outputs.span.start then
      return [.hasOutputs outputs, .hasInputs binding side nested]
    return [.hasInputs binding side nested, .hasOutputs outputs]
  | some (binding, nested), none =>
    return [.hasInputs binding side nested, .missingOutputs binding.span]
  | none, some outputs => return [.hasOutputs outputs, .missingInputs outputs.span]
  | none, none => return [.missingBoth e.span]

/-! ## Putting a declaration somewhere -/

/-- The indentation of the line on which a span starts, if nothing else stands
before the span. -/
def indentationBefore (text : Text) (span : Span) : Except Error (Option Text) := do
  return text.indentation? (← offsetOf text span.start)

/-- Puts a declaration on a line of its own above a span, or in front of it if the
span does not begin its line. -/
def insertAbove (text : Text) (span : Span) (declaration : Text) (blankLine : Bool) :
    Except Error Text := do
  let start ← offsetOf text span.start
  match (← indentationBefore text span) with
  | none => insertAt text start (declaration ++ [' '])
  | some indentation =>
    let newline := text.newline
    let separator := if blankLine then newline ++ newline else newline
    insertAt text start (declaration ++ separator ++ indentation)

/-- Puts a declaration on a line of its own below a span, or right behind it if the
span shares its line with something else. -/
def insertBelow (text : Text) (span : Span) (declaration : Text) : Except Error Text := do
  let stop ← offsetOf text span.stop
  match (← indentationBefore text span), text.restIsBlank stop with
  | some indentation, true =>
    let lineEnd := text.lineEnd stop
    if 0 < lineEnd && text[lineEnd - 1]? == some '\r' then
      insertAt text (lineEnd - 1) ('\r' :: '\n' :: indentation ++ declaration)
    else insertAt text lineEnd ('\n' :: indentation ++ declaration)
  | _, _ => insertAt text stop (' ' :: declaration)

/-- The offset of the first opening brace at or behind an offset. -/
def braceFrom (text : Text) (offset : Nat) : Except Error Nat :=
  match (text.drop offset).findIdx? (· == '{') with
  | some index => .ok (offset + index)
  | none => .error .braceNotFound

/-- Indentation of a declaration in a set that holds none yet, relative to the
set. -/
def nestedIndent : Text := [' ', ' ']

/-- Puts a declaration into the empty set that is the value of a binding.  If there
are comments in the set, they stay. -/
def fillEmptySet (text : Text) (binding : KeyValue) (declaration : Text) :
    Except Error Text := do
  let (start, stop) ← offsetsOf text binding.value.span
  let brace ← braceFrom text start
  let blank := (text.slice (brace + 1) (stop - 1)).isBlank
  match (← indentationBefore text binding.span) with
  | none =>
    if blank then splice text brace stop (['{', ' '] ++ declaration ++ [' ', '}'])
    else insertAt text (brace + 1) (' ' :: declaration)
  | some indentation =>
    let newline := text.newline
    let line := newline ++ indentation ++ nestedIndent ++ declaration
    if blank then splice text brace stop (['{'] ++ line ++ newline ++ indentation ++ ['}'])
    else insertAt text (brace + 1) line

/-! ## Doing it -/

/-- Puts a declaration next to the binding at a span. -/
def insertBeside (location : Location) (name : Text) (anchor : Span) (text declaration : Text) :
    Logged Text := do
  Logged.note (.inserting name location anchor)
  match location with
  | .top => insertAbove text anchor declaration false
  | .bottom => insertBelow text anchor declaration

/-- Declares an input next to a binding.  A binding of `inputs` to a set stands for
the bindings in that set. -/
def declareInput (binding : KeyValue) (location : Location) (nested : Bool)
    (name url text : Text) : Logged Text := do
  if binding.names = [some Manifest.inputsName] ∧ nested = false then
    let inner := declaration name url false
    let children ← binding.value.findAll none
    let anchor? := match location with
      | .top => children.head?
      | .bottom => children.getLast?
    match anchor? with
    | none => fillEmptySet text binding inner
    | some anchor => insertBeside location name anchor.span text inner
  else insertBeside location name binding.span text (declaration name url !nested)

/-- Threads an input into the outputs function. -/
def threadOutputs (binding : KeyValue) (name text : Text) : Logged Text :=
  match binding.value.node with
  | .function (.destructured list) _ => addParameter list name text
  | .function (.simple _ _) _ => return text
  | node => .fail (.unsupportedExpression (some .outputs) node.kind binding.value.span)

/-- Does what a finding asks for. -/
def Finding.apply (f : Finding) (name url text : Text) : Logged Text :=
  match f with
  | hasInputs binding location nested => declareInput binding location nested name url text
  | hasOutputs binding => threadOutputs binding name text
  | missingInputs context => insertAbove text context (declaration name url true) true
  | missingOutputs _ => .fail .missingOutputs
  | missingBoth _ => .fail .missingInputsAndOutputs

/-- Declares a new input in the text that a tree was read from. -/
def insertInput (e : Expr) (name url text : Text) (location? : Option Location) :
    Logged Text := do
  let findings ← classify e location?
  findings.foldlM
    (fun text f => do
      Logged.note (.working f.task)
      f.apply name url text)
    text

end Edit
end FlakeInputs
