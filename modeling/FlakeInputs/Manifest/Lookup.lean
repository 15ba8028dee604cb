import FlakeInputs.Error

/-!
# Looking up attribute paths

A path such as `inputs.nixpkgs.url` may be split over nested sets in any way.  The
search follows a binding whose key begins the path into the binding's value.  A key
may also be longer than the path, so that a search for `inputs` finds
`inputs.nixpkgs.url = …`.
-/

namespace FlakeInputs

/-- The text of a literal that has no interpolation. -/
def Part.soleText? : List Part → Option Text
  | [.text _ content] => some content
  | _ => none

/-- The name that a key spells; none if it is computed.  Escapes in a quoted name
are not decoded. -/
def Key.name? : Key → Option Text
  | bare _ name => some name
  | quoted _ parts => Part.soleText? parts
  | computed _ _ => none

/-- The names that the key of a binding spells. -/
def KeyValue.names (b : KeyValue) : List (Option Text) :=
  b.path.map Key.name?

namespace Lookup

/-- How the key of a binding stands to a path: it leads elsewhere, it reaches the
end of the path, or it ends where some of the path is left. -/
inductive Match
  | apart
  | reached
  | within (rest : List Text)
deriving DecidableEq, Repr

/-- Compares what is left of a key and of a path whose beginnings agree. -/
def compareRest : List (Option Text) → List Text → Match
  | _, [] => .reached
  | [], rest => .within rest
  | name :: names, segment :: rest =>
    if name = some segment then compareRest names rest else .apart

/-- Compares a key with a path. -/
def comparePath : List (Option Text) → List Text → Match
  | name :: names, segment :: rest =>
    if name = some segment then compareRest names rest else .apart
  | _, _ => .apart

/-- Compares a key with what is looked for: a path, or any binding at all. -/
def compare (names : List (Option Text)) : Option (List Text) → Match
  | none => .reached
  | some path => comparePath names path

/-- How much of a path a search has left. -/
def size (query : Option (List Text)) : Nat :=
  query.elim 0 List.length

theorem length_compareRest_within {names : List (Option Text)} {path rest : List Text}
    (h : compareRest names path = .within rest) : rest.length ≤ path.length := by
  induction names generalizing path with
  | nil => cases path <;> simp_all [compareRest]
  | cons name names ih =>
    cases path with
    | nil => simp [compareRest] at h
    | cons segment path =>
      simp only [compareRest] at h
      split at h
      · have := ih h
        simp
        omega
      · simp at h

theorem size_within_lt {names : List (Option Text)} {query : Option (List Text)}
    {rest : List Text} (h : compare names query = .within rest) :
    size (some rest) < size query := by
  cases query with
  | none => simp [compare] at h
  | some path =>
    cases names with
    | nil => simp [compare, comparePath] at h
    | cons name names =>
      cases path with
      | nil => simp [compare, comparePath] at h
      | cons segment path =>
        simp only [compare, comparePath] at h
        split at h
        · have := length_compareRest_within h
          simp [size]
          omega
        · simp at h

/-- The bindings of an attribute set. -/
def bindings (e : Expr) : Except Error (List Binding) :=
  match e.node with
  | .map bindings _ => .ok bindings
  | node => .error (.unsupportedExpression none node.kind e.span)

end Lookup

/-- The first binding below an attribute set, in source order, that a path leads
to; without a path, the first binding of the set.  The search stops at an
`inherit` and at a value on the way that is no attribute set. -/
def Expr.findFirst (e : Expr) (query : Option (List Text)) :
    Except Error (Option KeyValue) := do
  (← Lookup.bindings e).findSomeM? fun
    | .inherited span _ _ => .error (.inheritUnsupported span)
    | .keyValue b =>
      match _h : Lookup.compare b.names query with
      | .apart => .ok none
      | .reached => .ok (some b)
      | .within rest => b.value.findFirst (some rest)
termination_by Lookup.size query
decreasing_by exact Lookup.size_within_lt _h

/-- All bindings below an attribute set, in source order, that a path leads to;
without a path, all bindings of the set. -/
def Expr.findAll (e : Expr) (query : Option (List Text)) :
    Except Error (List KeyValue) := do
  let found ← (← Lookup.bindings e).mapM fun
    | .inherited span _ _ => .error (.inheritUnsupported span)
    | .keyValue b =>
      match _h : Lookup.compare b.names query with
      | .apart => .ok []
      | .reached => .ok [b]
      | .within rest => b.value.findAll (some rest)
  return found.flatten
termination_by Lookup.size query
decreasing_by exact Lookup.size_within_lt _h

end FlakeInputs
