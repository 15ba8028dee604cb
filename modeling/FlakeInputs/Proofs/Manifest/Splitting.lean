import FlakeInputs.Proofs.Manifest.Matches

/-!
# Splitting a key

A path can be split over nested sets in any way: a binding `a.b.c = v;` and the binding
`a.b = { c = v; };` lead along the same paths to the same values.  This holds wherever the binding
stands, and whatever stands around it, as long as the path goes on behind the first part of the
split key.
-/

namespace FlakeInputs

/-- The binding with the rest of its key, behind the first `j` parts, in a set of its own.  The
spans of what is new are given. -/
def KeyValue.split (b : KeyValue) (j : Nat) (outer set inner : Span) : KeyValue :=
  ⟨outer, b.path.take j,
    ⟨set, .map [.keyValue ⟨inner, b.path.drop j, b.value⟩] false⟩⟩

/-- The second set is the first one with a binding `b` exchanged for `b'`.  The binding stands in
the set itself or somewhere below it, behind keys with `depth` parts altogether. -/
inductive Expr.Replaces (b b' : KeyValue) : Nat → Expr → Expr → Prop
  | here {span : Span} {before behind : List Binding} {recursive : Bool} :
      Replaces b b' 0 ⟨span, .map (before ++ .keyValue b :: behind) recursive⟩
        ⟨span, .map (before ++ .keyValue b' :: behind) recursive⟩
  | within {depth : Nat} {span : Span} {before behind : List Binding} {recursive : Bool}
      {c : KeyValue} {value' : Expr} (hvalue : Replaces b b' depth c.value value') :
      Replaces b b' (c.path.length + depth)
        ⟨span, .map (before ++ .keyValue c :: behind) recursive⟩
        ⟨span, .map (before ++ .keyValue { c with value := value' } :: behind) recursive⟩

/-- The names of a split key, and those of the rest of the key. -/
theorem KeyValue.names_eq_append (b : KeyValue) (j : Nat) :
    b.names = (b.path.take j).map Key.name? ++ (b.path.drop j).map Key.name? := by
  rw [← List.map_append, List.take_append_drop]
  rfl

namespace Lookup

/-- The value that a search for the first binding finds. -/
def value? (first : Answer) : Except Error (Option Expr) :=
  first.map (Option.map KeyValue.value)

/-- The values that a search for all bindings finds. -/
def values (all : Except Error (List KeyValue)) : Except Error (List Expr) :=
  all.map (List.map KeyValue.value)

/-! ## Comparing a key in two steps -/

/-- A key is compared with a path by its first parts, and then by the others. -/
theorem compareRest_append (names names' : List (Option Text)) (path : List Text) :
    compareRest (names ++ names') path =
      match compareRest names path with
      | .within rest => compareRest names' rest
      | answer => answer := by
  induction names generalizing path with
  | nil =>
    cases path with
    | nil =>
      cases names' with
      | nil => rfl
      | cons name names' => rfl
    | cons segment path => rfl
  | cons name names ih =>
    cases path with
    | nil => rfl
    | cons segment path =>
      rw [List.cons_append, compareRest, compareRest]
      by_cases hname : name = some segment
      · rw [if_pos hname, if_pos hname]
        exact ih path
      · rw [if_neg hname, if_neg hname]

/-! ## Bindings with the same values -/

/-- Along a path, the same values are found in two bindings, or the search fails for the same
reason. -/
structure SameValues (path : List Text) (x y : Binding) : Prop where
  first : value? (found (some path) x) = value? (found (some path) y)
  all : values (gathered (some path) x) = values (gathered (some path) y)

/-- The same for two sets. -/
structure SameValuesIn (path : List Text) (e e' : Expr) : Prop where
  first : value? (e.findFirst (some path)) = value? (e'.findFirst (some path))
  all : values (e.findAll (some path)) = values (e'.findAll (some path))

theorem value?_goOn (next first : Answer) :
    value? (goOn next first) =
      match value? first with
      | .ok none => value? next
      | answer => answer := by
  rcases first with error | _ | b
  · rfl
  · rfl
  · rfl

theorem values_append (all more : Except Error (List KeyValue)) :
    values (all >>= fun found => more >>= fun rest => .ok (found ++ rest)) =
      values all >>= fun found => values more >>= fun rest => .ok (found ++ rest) := by
  cases all with
  | error error => rfl
  | ok found =>
    cases more with
    | error error => rfl
    | ok rest => exact congrArg Except.ok List.map_append

/-- Where one binding of a set is exchanged, the others answer as before. -/
theorem SameValues.exchange {path : List Text} {x y : Binding} (h : SameValues path x y)
    (span : Span) (before behind : List Binding) (recursive : Bool) :
    SameValuesIn path ⟨span, .map (before ++ x :: behind) recursive⟩
      ⟨span, .map (before ++ y :: behind) recursive⟩ := by
  constructor
  · rw [findFirst_map rfl, findFirst_map rfl]
    induction before with
    | nil =>
      rw [List.nil_append, List.nil_append, findSomeM?_cons_eq, findSomeM?_cons_eq, value?_goOn,
        value?_goOn, h.first]
    | cons z before ih =>
      rw [List.cons_append, List.cons_append, findSomeM?_cons_eq, findSomeM?_cons_eq, value?_goOn,
        value?_goOn, ih]
  · rw [findAll_map rfl, findAll_map rfl]
    induction before with
    | nil =>
      rw [List.nil_append, List.nil_append, gatherAll_cons, gatherAll_cons, values_append,
        values_append, h.all]
    | cons z before ih =>
      rw [List.cons_append, List.cons_append, gatherAll_cons, gatherAll_cons, values_append,
        values_append, ih]

/-! ## Splitting -/

theorem findFirst_singleton {e : Expr} {x : Binding} {recursive : Bool}
    (h : e.node = .map [x] recursive) (query : Option (List Text)) :
    e.findFirst query = found query x := by
  rw [findFirst_map h, findSomeM?_cons_eq]
  rcases found query x with error | _ | b
  · rfl
  · rfl
  · rfl

theorem findAll_singleton {e : Expr} {x : Binding} {recursive : Bool}
    (h : e.node = .map [x] recursive) (query : Option (List Text)) :
    e.findAll query = gathered query x := by
  rw [findAll_map h, gatherAll_cons]
  cases gathered query x with
  | error error => rfl
  | ok found => exact congrArg Except.ok (List.append_nil found)

/-- Two bindings with the same value are found alike by keys that stand to the path alike. -/
theorem sameValues_of_compare {path path' : List Text} (b b' : KeyValue)
    (hvalue : b.value = b'.value)
    (h : compare b.names (some path) = compare b'.names (some path')) :
    value? (found (some path) (.keyValue b)) = value? (found (some path') (.keyValue b')) ∧
      values (gathered (some path) (.keyValue b)) =
        values (gathered (some path') (.keyValue b')) := by
  simp only [found, gathered, h]
  cases compare b'.names (some path') with
  | apart => exact ⟨rfl, rfl⟩
  | reached => simp [value?, values, Except.map, hvalue]
  | within rest => simp [hvalue]

/-- A binding with a split key is found along the paths that go on behind the first part of the
key, with the same value. -/
theorem sameValues_split {path : List Text} {b : KeyValue} {j : Nat} (hj : 0 < j)
    (hlt : j < b.path.length) (hpath : j < path.length) (outer set inner : Span) :
    SameValues path (.keyValue (b.split j outer set inner)) (.keyValue b) := by
  generalize hnames : (b.path.take j).map Key.name? = names
  generalize hnames' : (b.path.drop j).map Key.name? = names'
  have hlength : names.length = j := by
    rw [← hnames, List.length_map, List.length_take]
    omega
  have hne : names ≠ [] := List.ne_nil_of_length_pos (by omega)
  have hne' : names' ≠ [] := by
    apply List.ne_nil_of_length_pos
    rw [← hnames', List.length_map, List.length_drop]
    omega
  have hpath_ne : path ≠ [] := List.ne_nil_of_length_pos (by omega)
  have hold : compare b.names (some path) = compareRest (names ++ names') path := by
    rw [b.names_eq_append j, hnames, hnames']
    exact compare_eq_compareRest (by simp [hne]) hpath_ne
  have hnew : compare (b.split j outer set inner).names (some path) = compareRest names path := by
    rw [KeyValue.names, KeyValue.split, hnames]
    exact compare_eq_compareRest hne hpath_ne
  rw [compareRest_append] at hold
  cases hfirst : compareRest names path with
  | apart =>
    rw [hfirst] at hold hnew
    constructor
    · rw [found_of_apart hold, found_of_apart hnew]
    · simp only [gathered, hold, hnew]
  | reached =>
    -- The path is longer than the first part of the key.
    have hle := (compareRest_reached_iff.1 hfirst).length_le
    rw [List.length_map] at hle
    omega
  | within rest =>
    rw [hfirst] at hold hnew
    have hrest : rest ≠ [] := (compareRest_within_iff.1 hfirst).2
    have hinner : compare (⟨inner, b.path.drop j, b.value⟩ : KeyValue).names (some rest) =
        compare b.names (some path) := by
      rw [hold, KeyValue.names, hnames']
      exact compare_eq_compareRest hne' hrest
    obtain ⟨hvalue, hvalues⟩ :=
      sameValues_of_compare ⟨inner, b.path.drop j, b.value⟩ b rfl hinner
    constructor
    · rw [found_of_within hnew, findFirst_singleton rfl]
      exact hvalue
    · simp only [gathered, hnew]
      rw [KeyValue.split, findAll_singleton rfl]
      exact hvalues

/-- A key that does not come to the end of a path leads into the value, where the search goes on. -/
theorem SameValuesIn.within {path : List Text} {c c' : KeyValue} (hnames : c'.names = c.names)
    (hlength : c.path.length < path.length)
    (h : ∀ rest : List Text, c.path.length + rest.length = path.length →
      SameValuesIn rest c'.value c.value) :
    SameValues path (.keyValue c') (.keyValue c) := by
  cases hcompare : compare c.names (some path) with
  | apart =>
    constructor
    · rw [found_of_apart hcompare, found_of_apart (by rw [hnames, hcompare])]
    · simp only [gathered, hnames, hcompare]
  | reached =>
    have hle := (prefix_of_reached hcompare).length_le
    rw [List.length_map, KeyValue.names, List.length_map] at hle
    omega
  | within rest =>
    have hsplit := congrArg List.length (eq_append_of_within hcompare).1
    rw [List.length_append, List.length_map, List.length_map, KeyValue.names,
      List.length_map] at hsplit
    have hrest : SameValuesIn rest c'.value c.value := h rest hsplit.symm
    constructor
    · rw [found_of_within hcompare, found_of_within (by rw [hnames, hcompare])]
      exact hrest.first
    · simp only [gathered, hnames, hcompare]
      exact hrest.all

/-- A search that does not tell two bindings apart does not tell the sets around them apart
either, if no key on the way to them comes to the end of its path. -/
theorem sameValuesIn_of_replaces {b b' : KeyValue} {j depth : Nat} {e e' : Expr}
    (hb : ∀ path : List Text, j < path.length → SameValues path (.keyValue b') (.keyValue b))
    (h : e.Replaces b b' depth e') {path : List Text} (hpath : depth + j < path.length) :
    SameValuesIn path e' e := by
  induction h generalizing path with
  | here =>
    apply SameValues.exchange
    apply hb
    omega
  | @within depth span before behind recursive c value' hvalue ih =>
    apply SameValues.exchange
    have hnames : ({ c with value := value' } : KeyValue).names = c.names := rfl
    apply SameValuesIn.within hnames (by omega)
    intro rest hrest
    apply ih
    omega

/-- How a path is split over nested sets does not matter: along every path that goes on behind the
first part of a split key, a search for the first binding and a search for all of them find the same
values as before, or fail with the same error. -/
theorem searches_split {e e' : Expr} {b : KeyValue} {depth j : Nat} {outer set inner : Span}
    {path : List Text} (h : e.Replaces b (b.split j outer set inner) depth e') (hj : 1 ≤ j)
    (hlt : j < b.path.length) (hpath : depth + j < path.length) :
    value? (e'.findFirst (some path)) = value? (e.findFirst (some path)) ∧
      values (e'.findAll (some path)) = values (e.findAll (some path)) := by
  have hsame : SameValuesIn path e' e := by
    apply sameValuesIn_of_replaces _ h hpath
    intro path hpath
    exact sameValues_split hj hlt hpath outer set inner
  exact ⟨hsame.first, hsame.all⟩

theorem searches_split_nested :
    ∃ (b other : KeyValue) (e e' : Expr) (path : List Text),
      b.names = [some "nixpkgs".toList, some "url".toList, none] ∧
      other.names = [some "nixpkgs".toList] ∧
      e.node = .map [.keyValue other, .keyValue ⟨.blank, [.bare .blank "inputs".toList],
        ⟨.blank, .map [.keyValue other, .keyValue b] true⟩⟩] false ∧
      path = ["inputs".toList, "nixpkgs".toList, "url".toList] ∧
      e.Replaces b (b.split 1 .blank .blank .blank) 1 e' ∧
      value? (e'.findFirst (some path)) = value? (e.findFirst (some path)) ∧
      values (e'.findAll (some path)) = values (e.findAll (some path)) := by
  have hreplaces : ∀ b other : KeyValue, ∃ e', Expr.Replaces b (b.split 1 .blank .blank .blank) 1
      ⟨.blank, .map ([.keyValue other] ++ Binding.keyValue ⟨.blank, [.bare .blank "inputs".toList],
        ⟨.blank, .map ([.keyValue other] ++ [Binding.keyValue b]) true⟩⟩ :: []) false⟩ e' := by
    intro b other
    exact ⟨_, @Expr.Replaces.within b _ 0 .blank [.keyValue other] [] false
      ⟨.blank, [.bare .blank "inputs".toList], _⟩ _ .here⟩
  obtain ⟨e', he'⟩ := hreplaces
    ⟨.blank, [.bare .blank "nixpkgs".toList, .bare .blank "url".toList,
      .computed .blank ⟨.blank, .identifier "x".toList⟩], ⟨.blank, .uri "a:b".toList⟩⟩
    ⟨.blank, [.quoted .blank [.text .blank "nixpkgs".toList]], ⟨.blank, .map [] false⟩⟩
  exact ⟨_, _, _, e', _, rfl, rfl, rfl, rfl, he',
    searches_split he' (by decide) (by decide) (by decide)⟩

end Lookup
end FlakeInputs
