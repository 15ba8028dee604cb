import FlakeInputs.Proofs.Manifest.Declared

/-!
# All matches of a search

A search for all bindings gathers what it finds in one binding of a set after the other.  The
search for the first one stops where that search finds something for the first time, or where it
fails.
-/

namespace FlakeInputs
namespace Lookup

/-! ## Keys and paths -/

/-- A key leaves some of a path if the path goes on behind it. -/
theorem compareRest_within_iff {names : List (Option Text)} {path rest : List Text} :
    compareRest names path = .within rest ↔ path.map some = names ++ rest.map some ∧ rest ≠ [] := by
  induction names generalizing path with
  | nil =>
    cases path with
    | nil =>
      constructor
      · intro h
        cases h
      · rintro ⟨h, hne⟩
        exact absurd (List.map_eq_nil_iff.1 h.symm) hne
    | cons segment path =>
      have hsome : ∀ x y : Text, some x = some y → x = y := fun _ _ => Option.some.inj
      rw [compareRest, Match.within.injEq, List.nil_append, List.map_inj_right hsome]
      · constructor
        · rintro rfl
          exact ⟨rfl, List.cons_ne_nil _ _⟩
        · exact fun h => h.1
      · exact List.cons_ne_nil _ _
  | cons name names ih =>
    cases path with
    | nil => simp [compareRest]
    | cons segment path =>
      by_cases hname : name = some segment
      · rw [compareRest, if_pos hname, ih, hname]
        simp
      · rw [compareRest, if_neg hname]
        simp [Ne.symm hname]

/-- A key reaches the end of a path if it begins with it. -/
theorem compareRest_reached_iff {names : List (Option Text)} {path : List Text} :
    compareRest names path = .reached ↔ path.map some <+: names := by
  induction names generalizing path with
  | nil =>
    cases path with
    | nil => simp [compareRest]
    | cons segment path => simp [compareRest]
  | cons name names ih =>
    cases path with
    | nil => simp [compareRest]
    | cons segment path =>
      by_cases hname : name = some segment
      · rw [compareRest, if_pos hname, ih, hname, List.map_cons, List.cons_prefix_cons]
        simp
      · rw [compareRest, if_neg hname, List.map_cons, List.cons_prefix_cons]
        simp [Ne.symm hname]

theorem compare_eq_compareRest {names : List (Option Text)} {path : List Text}
    (hnames : names ≠ []) (hpath : path ≠ []) :
    compare names (some path) = compareRest names path := by
  obtain ⟨name, names, rfl⟩ := List.exists_cons_of_ne_nil hnames
  obtain ⟨segment, path, rfl⟩ := List.exists_cons_of_ne_nil hpath
  rfl

theorem compare_of_ne_apart {names : List (Option Text)} {path : List Text}
    (h : compare names (some path) ≠ .apart) :
    compare names (some path) = compareRest names path := by
  cases names with
  | nil => exact absurd rfl h
  | cons name names =>
    cases path with
    | nil => exact absurd rfl h
    | cons segment path => rfl

theorem eq_append_of_within {names : List (Option Text)} {path rest : List Text}
    (h : compare names (some path) = .within rest) :
    path.map some = names ++ rest.map some ∧ rest ≠ [] := by
  have hrest : compare names (some path) = compareRest names path :=
    compare_of_ne_apart (by simp [h])
  rwa [h, eq_comm, compareRest_within_iff] at hrest

theorem prefix_of_reached {names : List (Option Text)} {path : List Text}
    (h : compare names (some path) = .reached) : path.map some <+: names := by
  have hrest : compare names (some path) = compareRest names path :=
    compare_of_ne_apart (by simp [h])
  rwa [h, eq_comm, compareRest_reached_iff] at hrest

/-! ## All bindings of a set -/

/-- What a search gathers in some bindings of a set. -/
def gatherAll (query : Option (List Text)) (bs : List Binding) : Except Error (List KeyValue) :=
  bs.mapM (gathered query) >>= fun found => .ok found.flatten

section
variable {query : Option (List Text)} {bs : List Binding}

theorem gatherAll_cons (query : Option (List Text)) (x : Binding) (bs : List Binding) :
    gatherAll query (x :: bs) = gathered query x >>= fun found =>
      gatherAll query bs >>= fun rest => .ok (found ++ rest) := by
  rw [gatherAll, gatherAll, List.mapM_cons]
  cases gathered query x with
  | error error => rfl
  | ok found =>
    cases bs.mapM (gathered query) with
    | error error => rfl
    | ok rest => rfl

theorem findAll_map {e : Expr} {recursive : Bool} (h : e.node = .map bs recursive)
    (query : Option (List Text)) : e.findAll query = gatherAll query bs := by
  rw [findAll_eq, bindings, h]
  rfl

theorem exists_gathered {found : List KeyValue} (h : gatherAll query bs = .ok found) {x : Binding}
    (hx : x ∈ bs) : ∃ part, gathered query x = .ok part ∧ part.Sublist found := by
  obtain ⟨parts, hparts, hfound⟩ := Outcome.bind_eq_ok.1 h
  obtain ⟨part, hpart⟩ := Outcome.exists_of_mapM hparts x hx
  refine ⟨part, hpart, ?_⟩
  rw [← Except.ok.inj hfound]
  apply List.sublist_flatten_of_mem
  rw [Outcome.mem_of_mapM hparts]
  exact ⟨x, hx, hpart⟩

theorem exists_of_mem_gatherAll {found : List KeyValue} (h : gatherAll query bs = .ok found)
    {b : KeyValue} (hb : b ∈ found) : ∃ x ∈ bs, ∃ part, gathered query x = .ok part ∧ b ∈ part := by
  obtain ⟨parts, hparts, hfound⟩ := Outcome.bind_eq_ok.1 h
  rw [← Except.ok.inj hfound] at hb
  obtain ⟨part, hpart, hb⟩ := List.mem_flatten.1 hb
  obtain ⟨x, hx, hresult⟩ := (Outcome.mem_of_mapM hparts).1 hpart
  exact ⟨x, hx, part, hresult, hb⟩

end

/-! ## Where a search comes -/

/-- A search along a path in a set comes to the binding `b`.  The keys on the way to it and its own
key go together to `names`, and `found` tells how its own key stands to the rest of the path. -/
inductive Visits : List Text → Expr → List (Option Text) → KeyValue → Match → Prop
  | here {path : List Text} {e : Expr} {bs : List Binding} {recursive : Bool} {b : KeyValue}
      (hnode : e.node = .map bs recursive) (hb : .keyValue b ∈ bs) :
      Visits path e b.names b (compare b.names (some path))
  | within {path rest : List Text} {e : Expr} {bs : List Binding} {recursive : Bool}
      {c b : KeyValue} {names : List (Option Text)} {found : Match}
      (hnode : e.node = .map bs recursive) (hc : .keyValue c ∈ bs)
      (hrest : compare c.names (some path) = .within rest)
      (hvalue : Visits rest c.value names b found) : Visits path e (c.names ++ names) b found

/-- What a search gathers in a binding that it comes to. -/
def gatheredAt (b : KeyValue) : Match → Except Error (List KeyValue)
  | .apart => .ok []
  | .reached => .ok [b]
  | .within rest => b.value.findAll (some rest)

theorem gathered_keyValue (path : List Text) (b : KeyValue) :
    gathered (some path) (.keyValue b) = gatheredAt b (compare b.names (some path)) := by
  rw [gathered]
  cases compare b.names (some path) with
  | apart => rfl
  | reached => rfl
  | within rest => rfl

/-- A search that does not fail gathers something, or nothing, wherever it comes. -/
theorem Visits.exists_part {path : List Text} {e : Expr} {names : List (Option Text)} {b : KeyValue}
    {m : Match} (h : Visits path e names b m) {found : List KeyValue}
    (hfound : e.findAll (some path) = .ok found) :
    ∃ part, gatheredAt b m = .ok part ∧ part.Sublist found := by
  induction h generalizing found with
  | here hnode hb =>
    rw [findAll_map hnode] at hfound
    rw [← gathered_keyValue]
    exact exists_gathered hfound hb
  | within hnode hc hrest _ ih =>
    rw [findAll_map hnode] at hfound
    obtain ⟨part, hpart, hsublist⟩ := exists_gathered hfound hc
    rw [gathered_keyValue, hrest] at hpart
    obtain ⟨part', hpart', hsublist'⟩ := ih hpart
    exact ⟨part', hpart', hsublist'.trans hsublist⟩

/-- A search gathers the bindings that it comes to with nothing left of its path. -/
theorem mem_findAll_iff {path : List Text} {e : Expr} {found : List KeyValue}
    (hfound : e.findAll (some path) = .ok found) {b : KeyValue} :
    b ∈ found ↔ ∃ names, Visits path e names b .reached := by
  constructor
  · intro hb
    induction hn : path.length using Nat.strongRecOn generalizing path e found with
    | _ n ih =>
      subst hn
      obtain ⟨cs, recursive, hnode⟩ := exists_keyValues_of_findAll hfound
      rw [findAll_map hnode] at hfound
      obtain ⟨x, hx, part, hpart, hb⟩ := exists_of_mem_gatherAll hfound hb
      obtain ⟨c, -, rfl⟩ := List.mem_map.1 hx
      rw [gathered_keyValue] at hpart
      cases hcompare : compare c.names (some path) with
      | apart =>
        rw [hcompare, gatheredAt, Except.ok.injEq] at hpart
        rw [← hpart] at hb
        cases hb
      | reached =>
        rw [hcompare, gatheredAt, Except.ok.injEq] at hpart
        rw [← hpart, List.mem_singleton] at hb
        subst hb
        refine ⟨b.names, ?_⟩
        rw [← hcompare]
        exact .here hnode hx
      | within rest =>
        rw [hcompare, gatheredAt] at hpart
        obtain ⟨names, hvisits⟩ := ih rest.length (size_within_lt hcompare) hpart hb rfl
        exact ⟨c.names ++ names, .within hnode hx hcompare hvisits⟩
  · rintro ⟨names, hvisits⟩
    obtain ⟨part, hpart, hsublist⟩ := hvisits.exists_part hfound
    rw [gatheredAt, Except.ok.injEq] at hpart
    apply hsublist.subset
    rw [← hpart]
    exact List.mem_singleton_self b

/-! ## The first of all matches -/

/-- The answer of a search that goes on where nothing was found. -/
def goOn (next : Answer) : Answer → Answer
  | .ok none => next
  | answer => answer

theorem findSomeM?_cons_eq (f : Binding → Answer) (x : Binding) (bs : List Binding) :
    (x :: bs).findSomeM? f = goOn (bs.findSomeM? f) (f x) := by
  rw [List.findSomeM?_cons]
  rcases f x with error | _ | b
  · rfl
  · rfl
  · rfl

/-- How the answer to a search for the first binding stands to that for all of them: it is the
first one that there is, and an error in the search for the first one is the error in the search
for all. -/
structure Agrees (first : Answer) (all : Except Error (List KeyValue)) : Prop where
  head_eq : ∀ found, all = .ok found → first = .ok found.head?
  error_eq : ∀ error, first = .error error → all = .error error
  nil_eq : first = .ok none → all = .ok []

theorem agrees_error (error : Error) : Agrees (.error error) (.error error) where
  head_eq := by simp
  error_eq := by simp
  nil_eq := by simp

theorem agrees_none : Agrees (.ok none) (.ok []) where
  head_eq := by simp
  error_eq := by simp
  nil_eq := by simp

theorem agrees_some (b : KeyValue) : Agrees (.ok (some b)) (.ok [b]) where
  head_eq := by simp
  error_eq := by simp
  nil_eq := by simp

/-- A search in one more binding, in front of the others. -/
theorem Agrees.cons {first next : Answer} {all more : Except Error (List KeyValue)}
    (h : Agrees first all) (hnext : Agrees next more) :
    Agrees (goOn next first)
      (all >>= fun found => more >>= fun rest => .ok (found ++ rest)) := by
  rcases first with error | _ | b
  · rw [h.error_eq error rfl]
    exact agrees_error error
  · have hmore : (more >>= fun rest => .ok ([] ++ rest)) = more := by
      cases more with
      | error error => rfl
      | ok rest => rfl
    rw [h.nil_eq rfl, Outcome.ok_bind, hmore]
    exact hnext
  · -- The search stops here, whatever happens to the search for all behind this binding.
    constructor
    · intro found hfound
      obtain ⟨found, hall, hfound⟩ := Outcome.bind_eq_ok.1 hfound
      obtain ⟨rest, -, hrest⟩ := Outcome.bind_eq_ok.1 hfound
      have hhead : some b = found.head? := Except.ok.inj (h.head_eq found hall)
      rw [← Except.ok.inj hrest, List.head?_append, ← hhead]
      rfl
    · simp [goOn]
    · simp [goOn]

theorem agrees_gatherAll {query : Option (List Text)} {bs : List Binding}
    (h : ∀ x ∈ bs, Agrees (found query x) (gathered query x)) :
    Agrees (bs.findSomeM? (found query)) (gatherAll query bs) := by
  induction bs with
  | nil => exact agrees_none
  | cons x bs ih =>
    rw [findSomeM?_cons_eq, gatherAll_cons]
    apply (h x List.mem_cons_self).cons
    apply ih
    intro y hy
    exact h y (List.mem_cons_of_mem x hy)

/-- The search for the first binding and the search for all of them agree, errors included: the
induction is on the part of the path that is left. -/
theorem findFirst_agrees (e : Expr) (query : Option (List Text)) :
    Agrees (e.findFirst query) (e.findAll query) := by
  induction hn : size query using Nat.strongRecOn generalizing e query with
  | _ n ih =>
    subst hn
    rw [findFirst_eq, findAll_eq]
    cases bindings e with
    | error error => exact agrees_error error
    | ok bs =>
      apply agrees_gatherAll
      intro x _
      cases x with
      | inherited span names source? => exact agrees_error _
      | keyValue b =>
        rw [found, gathered]
        cases hcompare : compare b.names query with
        | apart => exact agrees_none
        | reached => exact agrees_some b
        | within rest => exact ih _ (size_within_lt hcompare) b.value (some rest) rfl

end Lookup
end FlakeInputs
