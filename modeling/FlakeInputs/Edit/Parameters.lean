import FlakeInputs.Edit.Splice
import FlakeInputs.Edit.Written
import FlakeInputs.Logged
import FlakeInputs.Token.Scan

/-!
# The parameters of the outputs function

A new input is threaded into the function that computes the outputs: its name is
added to the function's parameter list.  The text of the list is cut into entries
on its own, so that blanks, comments and defaults stay as they are.
-/

namespace FlakeInputs
namespace Edit

/-- A token with the offsets of its ends. -/
structure Placed where
  kind : TokenKind
  lexeme : Text
  start : Nat
  stop : Nat
deriving DecidableEq, Repr

/-- The tokens among some pieces, the first of which stands at `offset`. -/
def place (offset : Nat) : List Scan.Piece → List Placed
  | [] => []
  | .gap t :: ps => place (offset + t.length) ps
  | .token kind lexeme :: ps =>
    ⟨kind, lexeme, offset, offset + lexeme.length⟩ :: place (offset + lexeme.length) ps

/-- One entry of a parameter list.  `stop` is behind the default, if there is one.
The ellipsis has no name. -/
structure Formal where
  name? : Option Text
  start : Nat
  stop : Nat
  ellipsis : Bool
deriving DecidableEq, Repr

/-- Kinds of tokens that open a nested stretch of tokens. -/
def isOpening (kind : TokenKind) : Bool :=
  kind ∈ [.braceOpen, .bracketOpen, .parenOpen, .interpolation]

/-- Kinds of tokens that close a nested stretch of tokens. -/
def isClosing (kind : TokenKind) : Bool :=
  kind ∈ [.braceClose, .bracketClose, .parenClose]

/-- The first and the last token of the entry that is being read, if any. -/
abbrev Pending := Option (Placed × Placed)

/-- The entry with one more token. -/
def Pending.push (p : Pending) (t : Placed) : Pending :=
  match p with
  | none => some (t, t)
  | some (first, _) => some (first, t)

/-- The entry that has been read, if any. -/
def Pending.formals : Pending → List Formal
  | none => []
  | some (first, last) =>
    [⟨if first.kind = .identifier then some first.lexeme else none, first.start, last.stop,
      first.kind = .ellipsis⟩]

/-- The entries in some tokens, read at a given depth of nesting.  The list itself
is at depth one, and ends where that depth ends. -/
def formalsAt (depth : Int) (pending : Pending) : List Placed → List Formal
  | [] => []
  | t :: ts =>
    if isOpening t.kind then
      formalsAt (depth + 1) (if 1 ≤ depth then pending.push t else pending) ts
    else if isClosing t.kind then
      if depth = 1 then pending.formals
      else formalsAt (depth - 1) (if 2 ≤ depth then pending.push t else pending) ts
    else if depth = 1 ∧ t.kind = .comma then pending.formals ++ formalsAt depth none ts
    else formalsAt depth (if 1 ≤ depth then pending.push t else pending) ts

/-- The entries of the text of a parameter list, with offsets in that text. -/
def scanFormals (text : Text) : Except Error (List Formal) :=
  match Scan.pieces [] text with
  | .ok ps => .ok (formalsAt 0 none (place 0 ps))
  | .error fault => .error (.malformedParameters ⟨fault.span, fault.problem⟩)

/-- Puts a name behind the parameter `last`, which is the last one of a list. -/
def appendParameter (list : ParameterList) (last name : Text) (start : Nat)
    (formals : List Formal) (text : Text) : Logged Text :=
  match formals.reverse.find? fun f => f.name? = some last with
  | none => .fail (.parameterNotFound last list.span)
  | some entry => do
    Logged.note (.parameterAddedAfter name last)
    insertAt text (start + entry.stop) (", ".toList ++ name)

/-- Puts a name before the ellipsis of a list without parameters. -/
def prependParameter (list : ParameterList) (name : Text) (start : Nat)
    (formals : List Formal) (text : Text) : Logged Text :=
  match formals.find? Formal.ellipsis with
  | none => .fail (.parameterNotFound "...".toList list.span)
  | some entry => do
    Logged.note (.parameterAddedFirst name)
    insertAt text (start + entry.start) (name ++ ", ".toList)

/-- Adds a name that is no parameter yet to a parameter list. -/
def insertParameter (list : ParameterList) (name text : Text) : Logged Text := do
  let (start, stop) ← offsetsOf text list.span
  let formals ← scanFormals (text.slice start stop)
  match list.parameters.getLast? with
  | some last => appendParameter list last.name name start formals text
  | none =>
    if list.ellipsis then prependParameter list name start formals text
    else Logged.fail (.emptyParameterList list.span)

/-- Adds a name to a parameter list, unless the function can reach the input
already or the name cannot be a parameter. -/
def addParameter (list : ParameterList) (name text : Text) : Logged Text :=
  if list.parameters.any fun p => p.name = name then do
    Logged.note (.parameterListed name)
    return text
  else if list.whole? = some name then do
    Logged.note (.parameterIsWhole name)
    return text
  else if isIdentifier name then insertParameter list name text
  else do
    Logged.note (.parameterInvalid name)
    return text

end Edit
end FlakeInputs
