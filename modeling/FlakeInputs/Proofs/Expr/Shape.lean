import FlakeInputs.Expr.Basic

/-!
# Shapes

The shape of a syntax tree is what is left of it without its spans.  Two trees are
the same modulo spans if they have the same shape.
-/

namespace FlakeInputs

/-- The span that stands for all spans in a shape. -/
def Span.blank : Span := .point .start

mutual

/-- An expression without its spans. -/
def Expr.shape : Expr → Expr
  | ⟨_, node⟩ => ⟨.blank, node.shape⟩

/-- A form of an expression without the spans in it. -/
def Node.shape : Node → Node
  | .string parts => .string (Part.shapes parts)
  | .indentedString parts => .indentedString (Part.shapes parts)
  | .uri text => .uri text
  | .map bindings recursive => .map (Binding.shapes bindings) recursive
  | .function head body => .function head.shape body.shape
  | .identifier name => .identifier name
  | .integer value => .integer value
  | .float value => .float value
  | .path text => .path text
  | .searchPath text => .searchPath text
  | .list elements => .list (Expr.shapes elements)
  | .apply function argument => .apply function.shape argument.shape
  | .select source path default? => .select source.shape (Key.shapes path) (Expr.shape? default?)
  | .hasAttr source path => .hasAttr source.shape (Key.shapes path)
  | .binary op left right => .binary op left.shape right.shape
  | .negate operand => .negate operand.shape
  | .complement operand => .complement operand.shape
  | .ifThenElse condition yes no => .ifThenElse condition.shape yes.shape no.shape
  | .letIn bindings target => .letIn (Binding.shapes bindings) target.shape
  | .withScope scope target => .withScope scope.shape target.shape
  | .assertion condition target => .assertion condition.shape target.shape

/-- A part of a string without its spans. -/
def Part.shape : Part → Part
  | .text _ content => .text .blank content
  | .interpolation _ value => .interpolation .blank value.shape

/-- A key without its spans. -/
def Key.shape : Key → Key
  | .bare _ name => .bare .blank name
  | .quoted _ parts => .quoted .blank (Part.shapes parts)
  | .computed _ value => .computed .blank value.shape

/-- A binding of a key to a value without its spans. -/
def KeyValue.shape : KeyValue → KeyValue
  | ⟨_, path, value⟩ => ⟨.blank, Key.shapes path, value.shape⟩

/-- A binding without its spans. -/
def Binding.shape : Binding → Binding
  | .keyValue b => .keyValue b.shape
  | .inherited _ names source? => .inherited .blank (Key.shapes names) (Expr.shape? source?)

/-- A parameter without its spans. -/
def Parameter.shape : Parameter → Parameter
  | ⟨_, name, default?⟩ => ⟨.blank, name, Expr.shape? default?⟩

/-- A function head without its spans. -/
def Head.shape : Head → Head
  | .simple _ name => .simple .blank name
  | .destructured list => .destructured list.shape

/-- A parameter list without its spans. -/
def ParameterList.shape : ParameterList → ParameterList
  | ⟨_, parameters, ellipsis, whole?⟩ => ⟨.blank, Parameter.shapes parameters, ellipsis, whole?⟩

/-- Expressions without their spans. -/
def Expr.shapes : List Expr → List Expr
  | [] => []
  | e :: es => e.shape :: Expr.shapes es

/-- An expression, if there is one, without its spans. -/
def Expr.shape? : Option Expr → Option Expr
  | none => none
  | some e => some e.shape

/-- Parts of a string without their spans. -/
def Part.shapes : List Part → List Part
  | [] => []
  | p :: ps => p.shape :: Part.shapes ps

/-- Keys without their spans. -/
def Key.shapes : List Key → List Key
  | [] => []
  | k :: ks => k.shape :: Key.shapes ks

/-- Bindings without their spans. -/
def Binding.shapes : List Binding → List Binding
  | [] => []
  | b :: bs => b.shape :: Binding.shapes bs

/-- Parameters without their spans. -/
def Parameter.shapes : List Parameter → List Parameter
  | [] => []
  | x :: xs => x.shape :: Parameter.shapes xs

end

theorem Expr.eta (e : Expr) : e = ⟨e.span, e.node⟩ := by
  cases e
  rfl

@[simp]
theorem Expr.shapes_eq_map (es : List Expr) : Expr.shapes es = es.map Expr.shape := by
  induction es with
  | nil => rfl
  | cons e es ih => rw [Expr.shapes, ih, List.map_cons]

@[simp]
theorem Expr.shape?_eq_map (e? : Option Expr) : Expr.shape? e? = e?.map Expr.shape := by
  cases e? <;> rfl

@[simp]
theorem Part.shapes_eq_map (ps : List Part) : Part.shapes ps = ps.map Part.shape := by
  induction ps with
  | nil => rfl
  | cons p ps ih => rw [Part.shapes, ih, List.map_cons]

@[simp]
theorem Key.shapes_eq_map (ks : List Key) : Key.shapes ks = ks.map Key.shape := by
  induction ks with
  | nil => rfl
  | cons k ks ih => rw [Key.shapes, ih, List.map_cons]

@[simp]
theorem Binding.shapes_eq_map (bs : List Binding) :
    Binding.shapes bs = bs.map Binding.shape := by
  induction bs with
  | nil => rfl
  | cons b bs ih => rw [Binding.shapes, ih, List.map_cons]

@[simp]
theorem Parameter.shapes_eq_map (xs : List Parameter) :
    Parameter.shapes xs = xs.map Parameter.shape := by
  induction xs with
  | nil => rfl
  | cons x xs ih => rw [Parameter.shapes, ih, List.map_cons]

end FlakeInputs
