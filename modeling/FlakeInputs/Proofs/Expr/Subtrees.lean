import Mathlib.Logic.Relation
import FlakeInputs.Expr.Basic

/-!
# Subtrees

A syntax tree has nodes of several types: expressions, string parts, keys, bindings, function
heads and parameters.  A subtree is a node of any of them, with the nodes below it.
-/

namespace FlakeInputs

/-- A node of a syntax tree. -/
inductive Subtree
  | expr (e : Expr)
  | part (p : Part)
  | key (k : Key)
  | binding (b : Binding)
  | head (h : Head)
  | parameter (x : Parameter)

namespace Subtree

/-- The span of a node. -/
def span : Subtree → Span
  | expr e => e.span
  | part p => p.span
  | key k => k.span
  | binding b => b.span
  | head h => h.span
  | parameter x => x.span

/-- The nodes right below a form of an expression, in the order in which they are written. -/
def ofNode : Node → List Subtree
  | .string parts | .indentedString parts => parts.map part
  | .uri _ | .identifier _ | .integer _ | .float _ | .path _ | .searchPath _ => []
  | .map bindings _ => bindings.map binding
  | .function h body => [head h, expr body]
  | .list elements => elements.map expr
  | .apply function argument => [expr function, expr argument]
  | .select source path default? => expr source :: path.map key ++ default?.toList.map expr
  | .hasAttr source path => expr source :: path.map key
  | .binary _ left right => [expr left, expr right]
  | .negate operand | .complement operand => [expr operand]
  | .ifThenElse condition yes no => [expr condition, expr yes, expr no]
  | .letIn bindings target => bindings.map binding ++ [expr target]
  | .withScope scope target => [expr scope, expr target]
  | .assertion condition target => [expr condition, expr target]

/-- The nodes right below a node, in the order in which they are written. -/
def children : Subtree → List Subtree
  | expr e => ofNode e.node
  | part (.text _ _) => []
  | part (.interpolation _ value) => [expr value]
  | key (.bare _ _) => []
  | key (.quoted _ parts) => parts.map part
  | key (.computed _ value) => [expr value]
  | binding (.keyValue b) => b.path.map key ++ [expr b.value]
  | binding (.inherited _ names source?) => source?.toList.map expr ++ names.map key
  | head (.simple _ _) => []
  | head (.destructured list) => list.parameters.map parameter
  | parameter x => x.default?.toList.map expr

/-- The node `y` is the node `x` or stands somewhere below it. -/
def Contains (x y : Subtree) : Prop :=
  Relation.ReflTransGen (fun x y => y ∈ x.children) x y

/-- A property that every child has with its parent holds of all nodes of a tree whose root has
it. -/
theorem Contains.induct {P : Subtree → Prop} {x y : Subtree} (h : x.Contains y) (hx : P x)
    (hchild : ∀ {y z : Subtree}, P y → z ∈ y.children → P z) : P y := by
  induction h with
  | refl => exact hx
  | tail _ hmem ih => exact hchild ih hmem

end Subtree
end FlakeInputs
