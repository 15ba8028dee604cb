import FlakeInputs.Manifest.Lookup
import FlakeInputs.Proofs.Expr.Shape

/-!
# Searching for bindings

What a search finds in a set is what it finds in the first of its bindings in which it
finds anything.  A search does not depend on spans, and a binding whose key leads elsewhere
does not matter to it.
-/

namespace FlakeInputs

namespace Lookup

/-- The outcome of a search. -/
abbrev Answer := Except Error (Option KeyValue)

/-- What a search finds in one binding. -/
def found (query : Option (List Text)) : Binding → Answer
  | .inherited span _ _ => .error (.inheritUnsupported span)
  | .keyValue b =>
    match compare b.names query with
    | .apart => .ok none
    | .reached => .ok (some b)
    | .within rest => b.value.findFirst (some rest)

theorem findFirst_eq (e : Expr) (query : Option (List Text)) :
    e.findFirst query = bindings e >>= fun bs => bs.findSomeM? (found query) := by
  rw [Expr.findFirst]
  congr 1
  funext bs
  congr 1
  funext b
  cases b with
  | inherited span names source? => rfl
  | keyValue b =>
    simp only [found]
    split <;> simp_all

theorem bindings_eq_ok {e : Expr} {bs : List Binding} :
    bindings e = .ok bs ↔ ∃ recursive, e.node = .map bs recursive := by
  constructor
  · intro h
    unfold bindings at h
    split at h
    · next bs' recursive hnode => exact ⟨recursive, by rw [hnode, Except.ok.inj h]⟩
    · cases h
  · rintro ⟨recursive, hnode⟩
    simp only [bindings, hnode]

theorem findFirst_map {e : Expr} {bs : List Binding} {recursive : Bool}
    (h : e.node = .map bs recursive) (query : Option (List Text)) :
    e.findFirst query = bs.findSomeM? (found query) := by
  rw [findFirst_eq, bindings, h]
  rfl

/-- A search that does not fail was made in an attribute set. -/
theorem exists_map_of_findFirst {e : Expr} {query : Option (List Text)} {b? : Option KeyValue}
    (h : e.findFirst query = .ok b?) : ∃ bs recursive, e.node = .map bs recursive := by
  rw [findFirst_eq, bindings] at h
  split at h
  · next bs recursive hnode => exact ⟨bs, recursive, hnode⟩
  · simp [bind, Except.bind] at h

/-! ## Searching a list -/

section
variable {f : Binding → Answer} {bs cs : List Binding}

theorem findSomeM?_append_of_none (h : ∀ x ∈ bs, f x = .ok none) :
    (bs ++ cs).findSomeM? f = cs.findSomeM? f := by
  induction bs with
  | nil => rfl
  | cons x bs ih =>
    rw [List.cons_append, List.findSomeM?_cons, h x List.mem_cons_self]
    exact ih fun y hy => h y (List.mem_cons_of_mem _ hy)

theorem findSomeM?_append_of_some {b : KeyValue} (h : bs.findSomeM? f = .ok (some b)) :
    (bs ++ cs).findSomeM? f = .ok (some b) := by
  induction bs with
  | nil => simp [pure, Except.pure] at h
  | cons x bs ih =>
    rw [List.findSomeM?_cons] at h
    rw [List.cons_append, List.findSomeM?_cons]
    cases hx : f x with
    | error error => simp [hx, bind, Except.bind] at h
    | ok b? =>
      rw [hx] at h
      cases b? with
      | none => exact ih h
      | some b' => exact h

theorem findSomeM?_cons_of_none {x : Binding} (h : f x = .ok none) :
    (x :: cs).findSomeM? f = cs.findSomeM? f := by
  rw [List.findSomeM?_cons, h]
  rfl

theorem findSomeM?_cons_of_some {x : Binding} {b : KeyValue} (h : f x = .ok (some b)) :
    (x :: cs).findSomeM? f = .ok (some b) := by
  rw [List.findSomeM?_cons, h]
  rfl

theorem findSomeM?_append_congr {ds : List Binding} (h : cs.findSomeM? f = ds.findSomeM? f) :
    (bs ++ cs).findSomeM? f = (bs ++ ds).findSomeM? f := by
  induction bs with
  | nil => exact h
  | cons x bs ih =>
    rw [List.cons_append, List.cons_append, List.findSomeM?_cons, List.findSomeM?_cons, ih]

theorem findSomeM?_exchange {x y : Binding} (h : f x = f y) :
    (bs ++ x :: cs).findSomeM? f = (bs ++ y :: cs).findSomeM? f := by
  refine findSomeM?_append_congr ?_
  rw [List.findSomeM?_cons, List.findSomeM?_cons, h]

theorem findSomeM?_eq_none : bs.findSomeM? f = .ok none ↔ ∀ x ∈ bs, f x = .ok none := by
  induction bs with
  | nil => simp [pure, Except.pure]
  | cons x bs ih =>
    rw [List.findSomeM?_cons, List.forall_mem_cons]
    cases hx : f x with
    | error error => simp [bind, Except.bind]
    | ok b? =>
      cases b? with
      | none => simpa [bind, Except.bind] using ih
      | some b => simp [bind, Except.bind, pure, Except.pure]

theorem findSomeM?_eq_some {b : KeyValue} : bs.findSomeM? f = .ok (some b) ↔
    ∃ before x behind, bs = before ++ x :: behind ∧ (∀ y ∈ before, f y = .ok none) ∧
      f x = .ok (some b) := by
  constructor
  · intro h
    induction bs with
    | nil => simp [pure, Except.pure] at h
    | cons x bs ih =>
      rw [List.findSomeM?_cons] at h
      cases hx : f x with
      | error error => simp [hx, bind, Except.bind] at h
      | ok b? =>
        cases b? with
        | some b' =>
          simp only [hx, bind, Except.bind, pure, Except.pure, Except.ok.injEq,
            Option.some.injEq] at h
          exact ⟨[], x, bs, rfl, by simp, by rw [hx, h]⟩
        | none =>
          simp only [hx, bind, Except.bind] at h
          obtain ⟨before, y, behind, rfl, hbefore, hy⟩ := ih h
          exact ⟨x :: before, y, behind, rfl, by simpa [hx] using hbefore, hy⟩
  · rintro ⟨before, x, behind, rfl, hbefore, hx⟩
    rw [findSomeM?_append_of_none hbefore, findSomeM?_cons_of_some hx]

end

/-! ## Spans -/

end Lookup

/-- An error of a search without its span. -/
def Error.shape : Error → Error
  | .inheritUnsupported _ => .inheritUnsupported .blank
  | .unsupportedExpression role kind _ => .unsupportedExpression role kind .blank
  | e => e

/-- The outcome of a search without its spans. -/
def Lookup.shapeOf : Lookup.Answer → Lookup.Answer
  | .ok b? => .ok (b?.map KeyValue.shape)
  | .error error => .error error.shape

theorem Part.soleText?_shapes (parts : List Part) :
    Part.soleText? (parts.map Part.shape) = Part.soleText? parts := by
  rcases parts with _ | ⟨part, _ | ⟨next, parts⟩⟩
  · rfl
  · cases part <;> rfl
  · cases part <;> rfl

theorem Key.name?_shape (k : Key) : k.shape.name? = k.name? := by
  cases k with
  | bare span name => rfl
  | computed span value => rfl
  | quoted span parts =>
    simp only [Key.shape, Key.name?, Part.shapes_eq_map, Part.soleText?_shapes]

theorem Key.map_name?_shapes (ks : List Key) :
    (ks.map Key.shape).map Key.name? = ks.map Key.name? := by
  rw [List.map_map]
  exact List.map_congr_left fun k _ => Key.name?_shape k

theorem KeyValue.names_eq_of_shape {b b' : KeyValue}
    (h : b'.path.map Key.shape = b.path.map Key.shape) : b'.names = b.names := by
  rw [KeyValue.names, ← Key.map_name?_shapes, h, Key.map_name?_shapes]
  rfl

theorem KeyValue.path_shape (b : KeyValue) : b.shape.path = b.path.map Key.shape := by
  obtain ⟨span, path, value⟩ := b
  simp [KeyValue.shape]

theorem KeyValue.value_shape (b : KeyValue) : b.shape.value = b.value.shape := by
  obtain ⟨span, path, value⟩ := b
  rfl

theorem KeyValue.shape_node_of_shape {b b' : KeyValue} (h : b'.shape = b.shape) :
    b'.value.node.shape = b.value.node.shape := by
  obtain ⟨span, path, ⟨valueSpan, node⟩⟩ := b
  obtain ⟨span', path', ⟨valueSpan', node'⟩⟩ := b'
  exact congrArg (fun b => b.value.node) h

theorem KeyValue.names_shape (b : KeyValue) : b.shape.names = b.names := by
  rw [KeyValue.names, KeyValue.path_shape, Key.map_name?_shapes]
  rfl

namespace Lookup

theorem bindings_shape (e : Expr) :
    bindings e.shape = match bindings e with
      | .ok bs => .ok (bs.map Binding.shape)
      | .error error => .error error.shape := by
  obtain ⟨span, node⟩ := e
  cases node with
  | map bs recursive => simp [Expr.shape, Node.shape, bindings]
  | _ => rfl

theorem findSomeM?_shape {f : Binding → Answer} {bs : List Binding}
    (h : ∀ x ∈ bs, f x.shape = shapeOf (f x)) :
    (bs.map Binding.shape).findSomeM? f = shapeOf (bs.findSomeM? f) := by
  induction bs with
  | nil => rfl
  | cons x bs ih =>
    have ih := ih fun y hy => h y (List.mem_cons_of_mem _ hy)
    rw [List.map_cons, List.findSomeM?_cons, List.findSomeM?_cons, h x List.mem_cons_self]
    cases f x with
    | error error => rfl
    | ok b? =>
      cases b? with
      | none => exact ih
      | some b => rfl

/-- A search does not depend on spans. -/
theorem findFirst_shape (e : Expr) (query : Option (List Text)) :
    e.shape.findFirst query = shapeOf (e.findFirst query) := by
  induction hn : size query using Nat.strongRecOn generalizing e query with
  | _ n ih =>
    subst hn
    rw [findFirst_eq, findFirst_eq, bindings_shape]
    cases bindings e with
    | error error => rfl
    | ok bs =>
      refine findSomeM?_shape fun x _ => ?_
      cases x with
      | inherited span names source? => rfl
      | keyValue b =>
        simp only [Binding.shape, found, KeyValue.names_shape]
        cases hcompare : compare b.names query with
        | apart => rfl
        | reached => rfl
        | within rest =>
          rw [KeyValue.value_shape]
          exact ih _ (size_within_lt hcompare) b.value (some rest) rfl

theorem found_shape (query : Option (List Text)) (x : Binding) :
    found query x.shape = shapeOf (found query x) := by
  cases x with
  | inherited span names source? => rfl
  | keyValue b =>
    simp only [Binding.shape, found, KeyValue.names_shape]
    cases compare b.names query with
    | apart => rfl
    | reached => rfl
    | within rest =>
      rw [KeyValue.value_shape]
      exact findFirst_shape b.value (some rest)

theorem shapeOf_eq_none {a : Answer} : shapeOf a = .ok none ↔ a = .ok none := by
  rcases a with error | _ | b <;> simp [shapeOf]

theorem exists_of_shapeOf_some {a : Answer} {b : KeyValue}
    (h : shapeOf a = shapeOf (.ok (some b))) : ∃ b', a = .ok (some b') ∧ b'.shape = b.shape := by
  rcases a with error | _ | b'
  · simp [shapeOf] at h
  · simp [shapeOf] at h
  · exact ⟨b', rfl, by simpa [shapeOf] using h⟩

/-- What is not found in some bindings is not found in others of the same shape. -/
theorem found_eq_none_of_shape {query : Option (List Text)} {bs bs' : List Binding}
    (h : bs'.map Binding.shape = bs.map Binding.shape) (hbs : ∀ x ∈ bs, found query x = .ok none) :
    ∀ x ∈ bs', found query x = .ok none := by
  intro x hx
  have hmem : x.shape ∈ bs.map Binding.shape := by
    rw [← h]
    exact List.mem_map_of_mem hx
  obtain ⟨y, hy, hshape⟩ := List.mem_map.1 hmem
  rw [← shapeOf_eq_none, ← found_shape, ← hshape, found_shape, shapeOf_eq_none]
  exact hbs y hy

theorem findFirst_eq_of_shape {e e' : Expr} (h : e'.shape = e.shape) (query : Option (List Text)) :
    shapeOf (e'.findFirst query) = shapeOf (e.findFirst query) := by
  rw [← findFirst_shape, h, findFirst_shape]

/-! ## Exchanging a binding -/

/-- The second expression is the first one with the first binding `b` that a path leads to
exchanged for `b'`. -/
inductive Exchanges (b b' : KeyValue) : List Text → Expr → Expr → Prop
  | reached {path : List Text} {span : Span} {before behind : List Binding} {recursive : Bool}
      (hbefore : ∀ x ∈ before, found (some path) x = .ok none)
      (hb : compare b.names (some path) = .reached) :
      Exchanges b b' path ⟨span, .map (before ++ .keyValue b :: behind) recursive⟩
        ⟨span, .map (before ++ .keyValue b' :: behind) recursive⟩
  | within {path rest : List Text} {span : Span} {before behind : List Binding}
      {recursive : Bool} {c : KeyValue} {value' : Expr}
      (hbefore : ∀ x ∈ before, found (some path) x = .ok none)
      (hc : compare c.names (some path) = .within rest)
      (hvalue : Exchanges b b' rest c.value value') :
      Exchanges b b' path ⟨span, .map (before ++ .keyValue c :: behind) recursive⟩
        ⟨span, .map (before ++ .keyValue { c with value := value' } :: behind) recursive⟩

/-- What takes the place of a binding does not matter to the rest. -/
theorem Exchanges.exists_other {b b' : KeyValue} {path : List Text} {e e' : Expr}
    (h : Exchanges b b' path e e') (b'' : KeyValue) :
    ∃ e'', Exchanges b b'' path e e'' ∧ (b''.shape = b'.shape → e''.shape = e'.shape) := by
  induction h with
  | reached hbefore hb =>
    refine ⟨_, .reached hbefore hb, fun hshape => ?_⟩
    simp [Expr.shape, Node.shape, Binding.shape, hshape]
  | @within path rest span before behind recursive c value' hbefore hc _ ih =>
    obtain ⟨value'', hvalue'', hsame⟩ := ih
    refine ⟨_, .within hbefore hc hvalue'', fun hshape => ?_⟩
    simp [Expr.shape, Node.shape, Binding.shape, KeyValue.shape, hsame hshape]

theorem Exchanges.exists_mem {b b' : KeyValue} {path : List Text} {e e' : Expr}
    (h : Exchanges b b' path e e') : ∃ bs recursive x, e'.node = .map bs recursive ∧ x ∈ bs := by
  cases h with
  | reached => exact ⟨_, _, _, rfl, List.mem_append_right _ List.mem_cons_self⟩
  | within => exact ⟨_, _, _, rfl, List.mem_append_right _ List.mem_cons_self⟩

/-- An exchange among some bindings is one among more of them. -/
theorem Exchanges.among {b b' : KeyValue} {path : List Text} {span : Span}
    {bs bs' before : List Binding} {recursive : Bool}
    (h : Exchanges b b' path ⟨span, .map bs recursive⟩ ⟨span, .map bs' recursive⟩)
    (hbefore : ∀ x ∈ before, found (some path) x = .ok none) (behind : List Binding) :
    Exchanges b b' path ⟨span, .map (before ++ (bs ++ behind)) recursive⟩
      ⟨span, .map (before ++ (bs' ++ behind)) recursive⟩ := by
  have hnone : ∀ {cs : List Binding}, (∀ x ∈ cs, found (some path) x = .ok none) →
      ∀ x ∈ before ++ cs, found (some path) x = .ok none := by
    intro cs hcs x hx
    exact (List.mem_append.1 hx).elim (hbefore x) (hcs x)
  cases h with
  | reached hcs hb => simpa using @reached b b' path span _ (_ ++ behind) recursive (hnone hcs) hb
  | within hcs hc hvalue =>
    simpa using @within b b' path _ span _ (_ ++ behind) recursive _ _ (hnone hcs) hc hvalue

/-- Two paths that part at some segment. -/
inductive Parts : List Text → List Text → Prop
  | here {x y : Text} {s t : List Text} (h : x ≠ y) : Parts (x :: s) (y :: t)
  | later {x : Text} {s t : List Text} (h : Parts s t) : Parts (x :: s) (x :: t)

theorem compareRest_parts {s t : List Text} (h : Parts s t) (names : List (Option Text)) :
    (compareRest names s = .apart ∨ compareRest names t = .apart) ∨
      ∃ s' t', compareRest names s = .within s' ∧ compareRest names t = .within t' ∧
        Parts s' t' := by
  induction h generalizing names with
  | @here x y s t hne =>
    cases names with
    | nil => exact .inr ⟨_, _, rfl, rfl, .here hne⟩
    | cons name names =>
      refine .inl ?_
      rw [compareRest, compareRest]
      by_cases heq : name = some x
      · refine .inr (if_neg ?_)
        rintro rfl
        exact hne (Option.some.inj heq).symm
      · exact .inl (if_neg heq)
  | @later x s t hparts ih =>
    cases names with
    | nil => exact .inr ⟨_, _, rfl, rfl, .later hparts⟩
    | cons name names =>
      rw [compareRest, compareRest]
      by_cases heq : name = some x
      · rw [if_pos heq, if_pos heq]
        exact ih names
      · exact .inl (.inl (if_neg heq))

theorem compare_parts {s t : List Text} (h : Parts s t) (names : List (Option Text)) :
    (compare names (some s) = .apart ∨ compare names (some t) = .apart) ∨
      ∃ s' t', compare names (some s) = .within s' ∧ compare names (some t) = .within t' ∧
        Parts s' t' := by
  cases names with
  | nil => exact .inl (.inl rfl)
  | cons name names =>
    have hrest := compareRest_parts h (name :: names)
    cases h with
    | here hne => exact hrest
    | later h => exact hrest

/-- A key does not begin with two names. -/
theorem compare_apart_of_ne {x y : Text} {s : List Text} {names : List (Option Text)} (hne : x ≠ y)
    (h : compare names (some (x :: s)) ≠ .apart) (t : List Text) :
    compare names (some (y :: t)) = .apart := by
  cases names with
  | nil => rfl
  | cons name names =>
    simp only [compare, comparePath] at h ⊢
    by_cases hname : name = some x
    · rw [if_neg (by simpa [hname] using hne)]
    · exact absurd (if_neg hname) h

theorem found_of_apart {query : List Text} {b : KeyValue}
    (h : compare b.names (some query) = .apart) : found (some query) (.keyValue b) = .ok none := by
  rw [found, h]

theorem found_of_reached {query : List Text} {b : KeyValue}
    (h : compare b.names (some query) = .reached) :
    found (some query) (.keyValue b) = .ok (some b) := by
  rw [found, h]

theorem found_of_within {query rest : List Text} {b : KeyValue}
    (h : compare b.names (some query) = .within rest) :
    found (some query) (.keyValue b) = b.value.findFirst (some rest) := by
  rw [found, h]

/-- Searches along other paths do not see an exchange. -/
theorem Exchanges.findFirst_of_parts {b b' : KeyValue} {path query : List Text} {e e' : Expr}
    (h : Exchanges b b' path e e') (hnames : b'.names = b.names) (hparts : Parts path query) :
    e'.findFirst (some query) = e.findFirst (some query) := by
  induction h generalizing query with
  | @reached path span before behind recursive _ hb =>
    have hapart : compare b.names (some query) = .apart := by
      rcases compare_parts hparts b.names with (h | h) | ⟨_, _, h, -⟩
      · rw [h] at hb
        exact Match.noConfusion hb
      · exact h
      · rw [h] at hb
        exact Match.noConfusion hb
    have hold := found_of_apart hapart
    have hnew : found (some query) (.keyValue b') = .ok none :=
      found_of_apart (by rw [hnames, hapart])
    rw [findFirst_map rfl, findFirst_map rfl]
    exact findSomeM?_exchange (hnew.trans hold.symm)
  | @within path rest span before behind recursive c value' _ hc _ ih =>
    rw [findFirst_map rfl, findFirst_map rfl]
    refine findSomeM?_exchange ?_
    rcases compare_parts hparts c.names with (h | h) | ⟨rest', query', h, hquery, hparts'⟩
    · rw [h] at hc
      exact Match.noConfusion hc
    · rw [found_of_apart (b := { c with value := value' }) h, found_of_apart h]
    · obtain rfl := Match.within.inj (h.symm.trans hc)
      rw [found_of_within (b := { c with value := value' }) hquery, found_of_within hquery]
      exact ih hparts'

end Lookup
end FlakeInputs
