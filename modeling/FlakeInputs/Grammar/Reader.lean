import FlakeInputs.Expr.Basic
import FlakeInputs.SyntaxError

/-!
# Readers

A reader takes tokens off the front of a token list and makes something of them,
or refuses.
-/

namespace FlakeInputs
namespace Grammar

/-- Why a reader refuses.  In `unexpected`, the absence of a token means that
the tokens have run out. -/
inductive Fault
  | unexpected (found : Option Token) (expected : Expected)
  | legacyLet (span : Span)
  | integerTooLong (digits : Nat)
deriving DecidableEq, Repr

/-- A reader of something from the front of a token list. -/
abbrev Reader := StateT (List Token) (Except Fault)

/-- The kind of the next token. -/
def peek : Reader (Option TokenKind) := fun ts =>
  .ok (ts.head?.map Token.kind, ts)

/-- Refuses the next token. -/
def refuse {α : Type} (expected : Expected) : Reader α := fun ts =>
  .error (.unexpected ts.head? expected)

/-- Takes the next token, which has to be of the given kind. -/
def require (kind : TokenKind) (expected : Expected) : Reader Token := fun ts =>
  match ts with
  | [] => .error (.unexpected none expected)
  | t :: rest =>
    if t.kind = kind then .ok (t, rest) else .error (.unexpected (some t) expected)

/-- Takes the next token, which has to be of the given kind; there is no better
advice than to name that kind. -/
def expect (kind : TokenKind) : Reader Token :=
  require kind (.token kind)

/-- Takes the tokens in front that are of the given kind. -/
def run (kind : TokenKind) : Reader (List Token) := fun ts =>
  .ok (ts.takeWhile fun t => t.kind = kind, ts.dropWhile fun t => t.kind = kind)

/-- The outcome of one round of a loop: nothing and the end, an item and the end,
or an item after which the loop goes on. -/
inductive Round (α : Type)
  | stop
  | last (item : α)
  | more (item : α)

/-- The items of as many rounds as there are.  A round that goes on without having
taken a token would go on for ever, so it ends the loop. -/
def loop {α : Type} (round : Reader (Round α)) (ts : List Token) :
    Except Fault (List α × List Token) :=
  match round ts with
  | .error fault => .error fault
  | .ok (.stop, rest) => .ok ([], rest)
  | .ok (.last item, rest) => .ok ([item], rest)
  | .ok (.more item, rest) =>
    if rest.length < ts.length then
      match loop round rest with
      | .error fault => .error fault
      | .ok (items, rest) => .ok (item :: items, rest)
    else .ok ([item], rest)
termination_by ts.length

/-- The items read as long as the next token satisfies `more`. -/
def whileNext {α : Type} (more : Option TokenKind → Bool) (item : Reader α) :
    Reader (List α) :=
  loop do
    if more (← peek) then return .more (← item)
    return .stop

end Grammar
end FlakeInputs
