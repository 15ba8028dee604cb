import FlakeInputs.Manifest.Inputs
import FlakeInputs.Proofs.Manifest.Lookup
import FlakeInputs.Proofs.Outcome

/-!
# The inputs of a manifest

When a search for the url of an input comes to the end of a manifest without an error, no
`inherit` stands in its way.  Then all declared inputs can be collected, and each of them is
declared at the top level of the manifest or in an `inputs` set.
-/

namespace FlakeInputs

namespace Lookup

theorem exists_map_keyValue {bs : List Binding} (h : ∀ x ∈ bs, ∃ b, x = .keyValue b) :
    ∃ cs : List KeyValue, bs = cs.map .keyValue := by
  induction bs with
  | nil => exact ⟨[], rfl⟩
  | cons x bs ih =>
    obtain ⟨cs, rfl⟩ := ih fun y hy => h y (List.mem_cons_of_mem _ hy)
    obtain ⟨b, rfl⟩ := h x List.mem_cons_self
    exact ⟨b :: cs, rfl⟩

theorem exists_keyValues {query : Option (List Text)} {bs : List Binding}
    (h : ∀ x ∈ bs, found query x = .ok none) : ∃ cs : List KeyValue, bs = cs.map .keyValue := by
  refine exists_map_keyValue fun x hx => ?_
  cases x with
  | inherited span names source? => exact absurd (h _ hx) (by simp [found])
  | keyValue b => exact ⟨b, rfl⟩

/-- Whether the key of a binding begins with a name. -/
def startsWith (segment : Text) (b : KeyValue) : Bool :=
  b.names.head? == some (some segment)

theorem compare_not_startsWith {segment : Text} {rest : List Text} {b : KeyValue}
    (h : startsWith segment b = false) : compare b.names (some (segment :: rest)) = .apart := by
  rw [startsWith, beq_eq_false_iff_ne] at h
  cases hnames : b.names with
  | nil => rfl
  | cons name names =>
    rw [hnames, List.head?_cons, ne_eq, Option.some.injEq] at h
    simp only [compare, comparePath, if_neg h]

theorem compare_startsWith {segment : Text} {b : KeyValue} (h : startsWith segment b = true) :
    compare b.names (some [segment]) = .reached := by
  obtain ⟨names, hnames⟩ := List.head?_eq_some_iff.1 (beq_iff_eq.1 h)
  simp only [hnames, compare, comparePath, if_true]
  cases names <;> rfl

theorem findFirst_segment {e : Expr} {cs : List KeyValue} {recursive : Bool}
    (h : e.node = .map (cs.map .keyValue) recursive) (segment : Text) :
    e.findFirst (some [segment]) = .ok (cs.find? (startsWith segment)) := by
  rw [findFirst_map h]
  clear h
  induction cs with
  | nil => rfl
  | cons c cs ih =>
    cases hc : startsWith segment c with
    | true =>
      rw [List.map_cons, findSomeM?_cons_of_some (found_of_reached (compare_startsWith hc)),
        List.find?_cons_of_pos hc]
    | false =>
      rw [List.map_cons, findSomeM?_cons_of_none (found_of_apart (compare_not_startsWith hc)), ih,
        List.find?_cons_of_neg (by simp [hc])]

/-- What a search for all bindings gathers in one binding. -/
def gathered (query : Option (List Text)) : Binding → Except Error (List KeyValue)
  | .inherited span _ _ => .error (.inheritUnsupported span)
  | .keyValue b =>
    match compare b.names query with
    | .apart => .ok []
    | .reached => .ok [b]
    | .within rest => b.value.findAll (some rest)

theorem findAll_eq (e : Expr) (query : Option (List Text)) :
    e.findAll query = bindings e >>= fun bs => bs.mapM (gathered query) >>= fun found =>
      .ok found.flatten := by
  rw [Expr.findAll]
  congr 1
  funext bs
  congr 2
  funext b
  cases b with
  | inherited span names source? => rfl
  | keyValue b =>
    simp only [gathered]
    split <;> simp_all

theorem flatten_filter {α : Type} (keep : α → Bool) (l : List α) :
    (l.map fun a => if keep a then [a] else []).flatten = l.filter keep := by
  induction l with
  | nil => rfl
  | cons a l ih => cases ha : keep a <;> simpa [ha] using ih

/-- A search that takes each binding or leaves it. -/
theorem findAll_eq_filter {e : Expr} {cs : List KeyValue} {recursive : Bool}
    (h : e.node = .map (cs.map .keyValue) recursive) {query : Option (List Text)}
    {keep : KeyValue → Bool}
    (hkeep : ∀ b, gathered query (.keyValue b) = .ok (if keep b then [b] else [])) :
    e.findAll query = .ok (cs.filter keep) := by
  have hgathered : ∀ b ∈ cs, (gathered query ∘ Binding.keyValue) b =
      .ok (if keep b then [b] else []) := fun b _ => hkeep b
  rw [findAll_eq, bindings, h, Outcome.ok_bind, List.mapM_map, Outcome.mapM_eq_map hgathered,
    Outcome.ok_bind, flatten_filter]

theorem findAll_keyValues {e : Expr} {cs : List KeyValue} {recursive : Bool}
    (h : e.node = .map (cs.map .keyValue) recursive) : e.findAll none = .ok cs := by
  rw [@findAll_eq_filter e cs recursive h none (fun _ => true) fun b => rfl,
    List.filter_eq_self.2 fun _ _ => rfl]

theorem findAll_segment {e : Expr} {cs : List KeyValue} {recursive : Bool}
    (h : e.node = .map (cs.map .keyValue) recursive) (segment : Text) :
    e.findAll (some [segment]) = .ok (cs.filter (startsWith segment)) := by
  refine findAll_eq_filter h fun b => ?_
  cases hb : startsWith segment b with
  | true => simp only [gathered, compare_startsWith hb, if_true]
  | false => simp [gathered, compare_not_startsWith hb]

/-- A search for all bindings does not get past an `inherit`. -/
theorem exists_keyValues_of_findAll {e : Expr} {query : Option (List Text)} {cs : List KeyValue}
    (h : e.findAll query = .ok cs) :
    ∃ (ks : List KeyValue) (recursive : Bool), e.node = .map (ks.map .keyValue) recursive := by
  rw [findAll_eq, Outcome.bind_eq_ok] at h
  obtain ⟨bs, hbs, h⟩ := h
  obtain ⟨r, hr, -⟩ := Outcome.bind_eq_ok.1 h
  obtain ⟨recursive, hnode⟩ := bindings_eq_ok.1 hbs
  obtain ⟨ks, rfl⟩ : ∃ ks : List KeyValue, bs = ks.map .keyValue := by
    refine exists_map_keyValue fun x hx => ?_
    obtain ⟨found, hfound⟩ := Outcome.exists_of_mapM hr x hx
    cases x with
    | inherited span names source? => cases hfound
    | keyValue b => exact ⟨b, rfl⟩
  exact ⟨ks, recursive, hnode⟩

end Lookup

namespace Manifest

/-- Bindings whose `inputs` sets have no `inherit` in them. -/
def AreSets (cs : List KeyValue) : Prop :=
  ∀ c ∈ cs, c.names = [some inputsName] →
    ∃ (ks : List KeyValue) (recursive : Bool), c.value.node = .map (ks.map .keyValue) recursive

/-- A manifest in which a search for a url comes to the end has no `inherit` among its inputs. -/
theorem exists_areSets {name : Text} {bs : List Binding}
    (h : ∀ x ∈ bs, Lookup.found (some (urlPath name)) x = .ok none) :
    ∃ cs : List KeyValue, bs = cs.map .keyValue ∧ AreSets cs := by
  obtain ⟨cs, rfl⟩ := Lookup.exists_keyValues h
  refine ⟨cs, rfl, fun c hc hnames => ?_⟩
  have hnone := h _ (List.mem_map_of_mem hc)
  have hwithin : Lookup.compare c.names (some (urlPath name)) = .within [name, urlName] := by
    rw [hnames]
    rfl
  rw [Lookup.found_of_within hwithin] at hnone
  obtain ⟨children, recursive, hnode⟩ := Lookup.exists_map_of_findFirst hnone
  rw [Lookup.findFirst_map hnode, Lookup.findSomeM?_eq_none] at hnone
  obtain ⟨ks, rfl⟩ := Lookup.exists_keyValues hnone
  exact ⟨ks, recursive, hnode⟩

theorem exists_declare (b : KeyValue) (nested : Bool) (names : List (Option Text)) :
    ∃ ds, (declare b nested names).result = .ok ds ∧
      ∀ d ∈ ds, d.binding = b ∧ d.nested = nested := by
  unfold declare
  split
  · exact ⟨_, rfl, by simp⟩
  · exact ⟨[], rfl, by simp⟩

/-- Where a declared input stands: at the top level, or in an `inputs` set. -/
def Declared.IsIn (cs : List KeyValue) (d : Declared) : Prop :=
  match d.nested with
  | false => d.binding ∈ cs ∧ d.binding.names ≠ [some inputsName]
  | true => ∃ c ∈ cs, c.names = [some inputsName] ∧ ∃ (ks : List KeyValue) (recursive : Bool),
      c.value.node = .map (ks.map .keyValue) recursive ∧ d.binding ∈ ks

theorem exists_declaredBy {cs : List KeyValue} (hsets : AreSets cs) {c : KeyValue} (hc : c ∈ cs) :
    ∃ ds, (declaredBy c).result = .ok ds ∧ ∀ d ∈ ds, d.IsIn cs := by
  by_cases hnames : c.names = [some inputsName]
  · obtain ⟨ks, recursive, hnode⟩ := hsets c hc hnames
    have hchild : ∀ x ∈ ks.map Binding.keyValue, ∃ ds, (declaredByChild x).result = .ok ds := by
      intro x hx
      obtain ⟨k, -, rfl⟩ := List.mem_map.1 hx
      obtain ⟨ds, hds, -⟩ := exists_declare k true k.names
      exact ⟨ds, hds⟩
    obtain ⟨r, hr, hmem⟩ := Outcome.exists_mapM hchild
    refine ⟨r.flatten, ?_, ?_⟩
    · simp only [declaredBy, hnames, if_true, hnode, Logged.result_bind, Outcome.result_mapM, hr]
      rfl
    · intro d hd
      obtain ⟨ds, hds, hd⟩ := List.mem_flatten.1 hd
      obtain ⟨x, hx, hresult⟩ := hmem ds hds
      obtain ⟨k, hk, rfl⟩ := List.mem_map.1 hx
      obtain ⟨ds', hds', hall⟩ := exists_declare k true k.names
      obtain rfl := Except.ok.inj (hresult.symm.trans hds')
      obtain ⟨hbinding, hnested⟩ := hall d hd
      simp only [Declared.IsIn, hnested, hbinding]
      exact ⟨c, hc, hnames, ks, recursive, hnode, hk⟩
  · have htop : ∀ names, ∃ ds, (declare c false names).result = .ok ds ∧ ∀ d ∈ ds, d.IsIn cs := by
      intro names
      obtain ⟨ds, hds, hall⟩ := exists_declare c false names
      refine ⟨ds, hds, fun d hd => ?_⟩
      obtain ⟨hbinding, hnested⟩ := hall d hd
      simp only [Declared.IsIn, hnested, hbinding]
      exact ⟨hc, hnames⟩
    rw [declaredBy, if_neg hnames]
    split
    · exact htop _
    · exact htop _

/-- The inputs of a manifest without `inherit` can be collected. -/
theorem exists_collect {cs : List KeyValue} (hsets : AreSets cs) :
    ∃ ds, (collect cs).result = .ok ds ∧ ∀ d ∈ ds, d.IsIn cs := by
  obtain ⟨r, hr, hmem⟩ := Outcome.exists_mapM (f := fun c => (declaredBy c).result)
    fun c hc => (exists_declaredBy hsets hc).imp fun _ h => h.1
  refine ⟨r.flatten, ?_, fun d hd => ?_⟩
  · simp only [collect, Logged.result_bind, Outcome.result_mapM, hr]
    rfl
  · obtain ⟨ds, hds, hd⟩ := List.mem_flatten.1 hd
    obtain ⟨c, hc, hresult⟩ := hmem ds hds
    obtain ⟨ds', hds', hall⟩ := exists_declaredBy hsets hc
    obtain rfl := Except.ok.inj (hresult.symm.trans hds')
    exact hall d hd

/-- Inputs that can be collected have no `inherit` among them. -/
theorem areSets_of_collect {cs : List KeyValue} {ds : List Declared}
    (h : (collect cs).result = .ok ds) : AreSets cs := by
  intro c hc hnames
  simp only [collect, Logged.result_bind, Outcome.result_mapM] at h
  obtain ⟨r, hr, -⟩ := Outcome.bind_eq_ok.1 h
  obtain ⟨found, hfound⟩ := Outcome.exists_of_mapM hr c hc
  rw [declaredBy, if_pos hnames] at hfound
  split at hfound
  · next children recursive hnode =>
    rw [Logged.result_bind, Outcome.result_mapM, Outcome.bind_eq_ok] at hfound
    obtain ⟨r', hr', -⟩ := hfound
    obtain ⟨ks, rfl⟩ := Lookup.exists_map_keyValue fun x hx => by
      obtain ⟨d, hd⟩ := Outcome.exists_of_mapM hr' x hx
      cases x with
      | inherited span names source? => cases hd
      | keyValue b => exact ⟨b, rfl⟩
    exact ⟨ks, recursive, hnode⟩
  · cases hfound

end Manifest
end FlakeInputs
