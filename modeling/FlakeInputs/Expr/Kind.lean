import FlakeInputs.Expr.Basic

/-!
# Kinds of expressions

The outermost form of an expression, for messages.
-/

namespace FlakeInputs

/-- The outermost form of an expression. -/
inductive Kind
  | map
  | string
  | indentedString
  | uri
  | function
  | identifier
  | integer
  | float
  | path
  | searchPath
  | list
  | apply
  | select
  | hasAttr
  | binaryOp
  | unaryOp
  | ifThenElse
  | letIn
  | withScope
  | assertion
deriving DecidableEq, Repr

namespace Kind

/-- How messages name a kind. -/
def name : Kind → String
  | map => "Map"
  | string => "String"
  | indentedString => "IndentedString"
  | uri => "Uri"
  | function => "Function"
  | identifier => "Identifier"
  | integer => "Integer"
  | float => "Float"
  | path => "Path"
  | searchPath => "SearchPath"
  | list => "List"
  | apply => "Apply"
  | select => "Select"
  | hasAttr => "HasAttr"
  | binaryOp => "BinaryOp"
  | unaryOp => "UnaryOp"
  | ifThenElse => "IfThenElse"
  | letIn => "LetIn"
  | withScope => "With"
  | assertion => "Assert"

end Kind

/-- The kind of a node. -/
def Node.kind : Node → Kind
  | string _ => .string
  | indentedString _ => .indentedString
  | uri _ => .uri
  | map _ _ => .map
  | function _ _ => .function
  | identifier _ => .identifier
  | integer _ => .integer
  | float _ => .float
  | path _ => .path
  | searchPath _ => .searchPath
  | list _ => .list
  | apply _ _ => .apply
  | select _ _ _ => .select
  | hasAttr _ _ => .hasAttr
  | binary _ _ _ => .binaryOp
  | negate _ => .unaryOp
  | complement _ => .unaryOp
  | ifThenElse _ _ _ => .ifThenElse
  | letIn _ _ => .letIn
  | withScope _ _ => .withScope
  | assertion _ _ => .assertion

/-- The kind of an expression. -/
def Expr.kind (e : Expr) : Kind :=
  e.node.kind

end FlakeInputs
