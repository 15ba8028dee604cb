import FlakeInputs.Number.Binary64
import FlakeInputs.Token.Basic

/-!
# Expressions

The syntax tree of a Nix expression.  Every node knows the span that it was read
from.  Parentheses leave no node: an expression in parentheses is the expression
itself, with its own span.

String text is kept as it is written, with its escapes.
-/

namespace FlakeInputs

mutual

/-- An expression and the span that it was read from. -/
structure Expr where
  span : Span
  node : Node

/-- The forms of an expression. -/
inductive Node
  | string (parts : List Part)
  | indentedString (parts : List Part)
  | uri (text : Text)
  | map (bindings : List Binding) (recursive : Bool)
  | function (head : Head) (body : Expr)
  | identifier (name : Text)
  | integer (value : Nat)
  | float (value : Binary64)
  | path (text : Text)
  | searchPath (text : Text)
  | list (elements : List Expr)
  | apply (function argument : Expr)
  | select (source : Expr) (path : List Key) (default? : Option Expr)
  | hasAttr (source : Expr) (path : List Key)
  | binary (op : Operator) (left right : Expr)
  | negate (operand : Expr)
  | complement (operand : Expr)
  | ifThenElse (condition yes no : Expr)
  | letIn (bindings : List Binding) (target : Expr)
  | withScope (scope target : Expr)
  | assertion (condition target : Expr)

/-- A part of a string literal.  The span of an interpolation includes its
delimiters. -/
inductive Part
  | text (span : Span) (content : Text)
  | interpolation (span : Span) (value : Expr)

/-- One step of an attribute path: a bare name, a quoted name, or a name that is
computed. -/
inductive Key
  | bare (span : Span) (name : Text)
  | quoted (span : Span) (parts : List Part)
  | computed (span : Span) (value : Expr)

/-- A binding `a.b.c = value;`.  The span runs from the first key to behind the
semicolon. -/
structure KeyValue where
  span : Span
  path : List Key
  value : Expr

/-- A binding of an attribute set or a `let`. -/
inductive Binding
  | keyValue (binding : KeyValue)
  | inherited (span : Span) (names : List Key) (source? : Option Expr)

/-- A parameter of a function that takes a set apart, with its default. -/
structure Parameter where
  span : Span
  name : Text
  default? : Option Expr

/-- What stands before the colon of a function: a name, or a parameter list with
the name that may stand beside it.  The span of a parameter list covers its
braces only. -/
inductive Head
  | simple (span : Span) (name : Text)
  | destructured (list : ParameterList)

/-- A parameter list `{ a, b ? c, ... }` and the name for the whole argument. -/
structure ParameterList where
  span : Span
  parameters : List Parameter
  ellipsis : Bool
  whole? : Option Text

end

/-- The span of a string part. -/
def Part.span : Part → Span
  | text span _ => span
  | interpolation span _ => span

/-- The span of a key. -/
def Key.span : Key → Span
  | bare span _ => span
  | quoted span _ => span
  | computed span _ => span

/-- The span of a binding. -/
def Binding.span : Binding → Span
  | keyValue b => b.span
  | inherited span _ _ => span

/-- The span of a function head. -/
def Head.span : Head → Span
  | simple span _ => span
  | destructured list => list.span

end FlakeInputs
