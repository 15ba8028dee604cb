import FlakeInputs.Proofs.Expr.Subtrees

/-!
# Contents of strings

The text of the string literals in a syntax tree can be exchanged, with everything else left as
it is.  What a part of a string becomes may depend on where the part stands.  Since an exchange
makes a text longer or shorter, it also moves what stands in the text.
-/

namespace FlakeInputs

/-- An exchange of string text: where a stretch of the text starts and stops after the exchange,
and what becomes of string text at a span.  String text may be empty, so the other positions do
not tell where it stands. -/
structure Retext where
  start : Position → Position
  stop : Position → Position
  place : Span → Span
  text : Span → Text → Text

/-- Where a span is after an exchange. -/
def Retext.span (f : Retext) (s : Span) : Span :=
  ⟨f.start s.start, f.stop s.stop⟩

@[simp]
theorem Retext.span_join (f : Retext) (s t : Span) :
    f.span (s.join t) = (f.span s).join (f.span t) := rfl

mutual

/-- An expression with the text of its strings exchanged. -/
def Expr.retext (f : Retext) : Expr → Expr
  | ⟨span, node⟩ => ⟨f.span span, node.retext f⟩

/-- A form of an expression with the text of the strings in it exchanged. -/
def Node.retext (f : Retext) : Node → Node
  | .string parts => .string (Part.retexts f parts)
  | .indentedString parts => .indentedString (Part.retexts f parts)
  | .uri text => .uri text
  | .map bindings recursive => .map (Binding.retexts f bindings) recursive
  | .function head body => .function (head.retext f) (body.retext f)
  | .identifier name => .identifier name
  | .integer value => .integer value
  | .float value => .float value
  | .path text => .path text
  | .searchPath text => .searchPath text
  | .list elements => .list (Expr.retexts f elements)
  | .apply function argument => .apply (function.retext f) (argument.retext f)
  | .select source path default? =>
    .select (source.retext f) (Key.retexts f path) (Expr.retext? f default?)
  | .hasAttr source path => .hasAttr (source.retext f) (Key.retexts f path)
  | .binary op left right => .binary op (left.retext f) (right.retext f)
  | .negate operand => .negate (operand.retext f)
  | .complement operand => .complement (operand.retext f)
  | .ifThenElse condition yes no => .ifThenElse (condition.retext f) (yes.retext f) (no.retext f)
  | .letIn bindings target => .letIn (Binding.retexts f bindings) (target.retext f)
  | .withScope scope target => .withScope (scope.retext f) (target.retext f)
  | .assertion condition target => .assertion (condition.retext f) (target.retext f)

/-- A part of a string with its text exchanged. -/
def Part.retext (f : Retext) : Part → Part
  | .text span content => .text (f.place span) (f.text span content)
  | .interpolation span value => .interpolation (f.span span) (value.retext f)

/-- A key with the text of the strings in it exchanged. -/
def Key.retext (f : Retext) : Key → Key
  | .bare span name => .bare (f.span span) name
  | .quoted span parts => .quoted (f.span span) (Part.retexts f parts)
  | .computed span value => .computed (f.span span) (value.retext f)

/-- A binding of a key to a value with the text of the strings in it exchanged. -/
def KeyValue.retext (f : Retext) : KeyValue → KeyValue
  | ⟨span, path, value⟩ => ⟨f.span span, Key.retexts f path, value.retext f⟩

/-- A binding with the text of the strings in it exchanged. -/
def Binding.retext (f : Retext) : Binding → Binding
  | .keyValue b => .keyValue (b.retext f)
  | .inherited span names source? =>
    .inherited (f.span span) (Key.retexts f names) (Expr.retext? f source?)

/-- A parameter with the text of the strings in it exchanged. -/
def Parameter.retext (f : Retext) : Parameter → Parameter
  | ⟨span, name, default?⟩ => ⟨f.span span, name, Expr.retext? f default?⟩

/-- A function head with the text of the strings in it exchanged. -/
def Head.retext (f : Retext) : Head → Head
  | .simple span name => .simple (f.span span) name
  | .destructured list => .destructured (list.retext f)

/-- A parameter list with the text of the strings in it exchanged. -/
def ParameterList.retext (f : Retext) : ParameterList → ParameterList
  | ⟨span, parameters, ellipsis, whole?⟩ =>
    ⟨f.span span, Parameter.retexts f parameters, ellipsis, whole?⟩

/-- Expressions with the text of their strings exchanged. -/
def Expr.retexts (f : Retext) : List Expr → List Expr
  | [] => []
  | e :: es => e.retext f :: Expr.retexts f es

/-- An expression, if there is one, with the text of its strings exchanged. -/
def Expr.retext? (f : Retext) : Option Expr → Option Expr
  | none => none
  | some e => some (e.retext f)

/-- Parts of a string with their text exchanged. -/
def Part.retexts (f : Retext) : List Part → List Part
  | [] => []
  | p :: ps => p.retext f :: Part.retexts f ps

/-- Keys with the text of the strings in them exchanged. -/
def Key.retexts (f : Retext) : List Key → List Key
  | [] => []
  | k :: ks => k.retext f :: Key.retexts f ks

/-- Bindings with the text of the strings in them exchanged. -/
def Binding.retexts (f : Retext) : List Binding → List Binding
  | [] => []
  | b :: bs => b.retext f :: Binding.retexts f bs

/-- Parameters with the text of the strings in them exchanged. -/
def Parameter.retexts (f : Retext) : List Parameter → List Parameter
  | [] => []
  | x :: xs => x.retext f :: Parameter.retexts f xs

end

section
variable (f : Retext)

@[simp]
theorem Expr.retexts_eq_map (es : List Expr) : Expr.retexts f es = es.map (Expr.retext f) := by
  induction es with
  | nil => rfl
  | cons e es ih => rw [Expr.retexts, ih, List.map_cons]

@[simp]
theorem Expr.retext?_eq_map (e? : Option Expr) : Expr.retext? f e? = e?.map (Expr.retext f) := by
  cases e? <;> rfl

@[simp]
theorem Part.retexts_eq_map (ps : List Part) : Part.retexts f ps = ps.map (Part.retext f) := by
  induction ps with
  | nil => rfl
  | cons p ps ih => rw [Part.retexts, ih, List.map_cons]

@[simp]
theorem Key.retexts_eq_map (ks : List Key) : Key.retexts f ks = ks.map (Key.retext f) := by
  induction ks with
  | nil => rfl
  | cons k ks ih => rw [Key.retexts, ih, List.map_cons]

@[simp]
theorem Binding.retexts_eq_map (bs : List Binding) :
    Binding.retexts f bs = bs.map (Binding.retext f) := by
  induction bs with
  | nil => rfl
  | cons b bs ih => rw [Binding.retexts, ih, List.map_cons]

@[simp]
theorem Parameter.retexts_eq_map (xs : List Parameter) :
    Parameter.retexts f xs = xs.map (Parameter.retext f) := by
  induction xs with
  | nil => rfl
  | cons x xs ih => rw [Parameter.retexts, ih, List.map_cons]

/-! ## Spans -/

@[simp]
theorem Expr.span_retext (e : Expr) : (e.retext f).span = f.span e.span := by
  cases e
  rfl

theorem Expr.node_retext (e : Expr) : (e.retext f).node = e.node.retext f := by
  cases e
  rfl

@[simp]
theorem Key.span_retext (k : Key) : (k.retext f).span = f.span k.span := by
  cases k <;> rfl

@[simp]
theorem ParameterList.span_retext (list : ParameterList) :
    (list.retext f).span = f.span list.span := by
  cases list
  rfl

end

/-! ## Subtrees -/

/-- A node with the text of the strings in it exchanged. -/
def Subtree.retext (f : Retext) : Subtree → Subtree
  | expr e => expr (e.retext f)
  | part p => part (p.retext f)
  | key k => key (k.retext f)
  | binding b => binding (b.retext f)
  | head h => head (h.retext f)
  | parameter x => parameter (x.retext f)

theorem Subtree.ofNode_retext (f : Retext) (node : Node) :
    ofNode (node.retext f) = (ofNode node).map (Subtree.retext f) := by
  cases node <;> simp [ofNode, Node.retext, Subtree.retext, Function.comp_def]
  case select source path default? => cases default? <;> simp

theorem Subtree.children_retext (f : Retext) (x : Subtree) :
    (x.retext f).children = x.children.map (Subtree.retext f) := by
  cases x with
  | expr e =>
    rw [retext, children, Expr.node_retext, ofNode_retext]
    rfl
  | part p => cases p <;> rfl
  | key k =>
    cases k <;> simp [Subtree.retext, children, Key.retext, Function.comp_def]
  | binding b =>
    cases b with
    | keyValue b =>
      cases b
      simp [Subtree.retext, children, Binding.retext, KeyValue.retext, Function.comp_def]
    | inherited span names source? =>
      cases source? <;> simp [Subtree.retext, children, Binding.retext, Function.comp_def]
  | head h =>
    cases h with
    | simple span name => rfl
    | destructured list =>
      cases list
      simp [Subtree.retext, children, Head.retext, ParameterList.retext, Function.comp_def]
  | parameter x =>
    obtain ⟨span, name, default?⟩ := x
    cases default? <;> rfl

/-- What a tree contains stays in it. -/
theorem Subtree.Contains.retext {x y : Subtree} (h : x.Contains y) (f : Retext) :
    (x.retext f).Contains (y.retext f) := by
  induction h with
  | refl => exact .refl
  | tail _ hmem ih =>
    refine .tail ih ?_
    rw [Subtree.children_retext]
    exact List.mem_map_of_mem hmem

end FlakeInputs
