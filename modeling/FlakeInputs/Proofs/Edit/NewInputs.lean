import FlakeInputs.Proofs.Edit.Insertion

/-!
# New inputs

Adding an input that a manifest does not have yet declares it in the place that is asked for
and threads its name into the outputs function.  Nothing else changes but spans.  The input is
found again under its name, if the name is written without escapes, and then adding it once
more replaces its url.
-/

namespace FlakeInputs
namespace Edit

open Lookup (Exchanges startsWith found shapeOf)
open Manifest (inputsName outputsName urlName urlPath)

/-- The outputs `o` on either side of a place have become `o'`. -/
inductive Swaps (o o' : KeyValue) : Spot → Spot → Prop
  | right {hole : Hole} {left middle behind : List Binding} {recursive : Bool}
      (hbefore : ∀ x ∈ left ++ middle, found (some [outputsName]) x = .ok none) :
      Swaps o o' ⟨hole, left, middle ++ .keyValue o :: behind, recursive⟩
        ⟨hole, left, middle ++ .keyValue o' :: behind, recursive⟩
  | left {hole : Hole} {before middle right : List Binding} {recursive : Bool}
      (hbefore : ∀ x ∈ before, found (some [outputsName]) x = .ok none) :
      Swaps o o' ⟨hole, before ++ .keyValue o :: middle, right, recursive⟩
        ⟨hole, before ++ .keyValue o' :: middle, right, recursive⟩

/-- Adding an input to a manifest: whatever the url is, its declaration is written in the same
place, and the outputs `o` become `o₁`. -/
structure Insertion (text name : Text) (location? : Option Location) (T : Expr) (o o₁ : KeyValue)
    (spot spot' : Spot) (w : Writing) : Prop where
  outputs : T.findFirst (some [outputsName]) = .ok (some o)
  node_eq : T.node = spot.node spot.hole.bindings
  isPlace : spot.hole.IsPlace
  takes : Takes spot.hole w.qualified
  turns : TurnsInto text name o o₁
  swaps : Swaps o o₁ spot spot'
  declares : ∀ url, Declares location? name url T
    ⟨T.span, spot.node (spot.hole.fill (declared name url w.qualified))⟩
  result : ∀ url, (insertInput T name url text location?).result = .ok (w.text name url)
  inserted : ∀ url, ∃ T' d, Inserted text o name url spot' w T' d

theorem Swaps.hole_eq {o o' : KeyValue} {spot spot' : Spot} (h : Swaps o o' spot spot') :
    spot.hole = spot'.hole := by
  cases h <;> rfl

section
variable {text out name url : Text} {location? : Option Location} {T : Expr}

theorem startsWith_inputs_of_outputs {o : KeyValue}
    (h : T.findFirst (some [outputsName]) = .ok (some o)) : startsWith inputsName o = false := by
  rw [startsWith, Lookup.head?_names_of_findFirst h]
  decide

theorem Slot.startsWith_of_mem {b : KeyValue} {place : Placing} {qualified : Bool} {spot : Spot}
    (h : Slot T location? b place qualified spot) :
    ∀ c, .keyValue c ∈ spot.hole.bindings → startsWith inputsName c = true := by
  intro c hc
  have htakes := h.takes
  cases hhole : spot.hole with
  | between => simp [hhole, Hole.bindings] at hc
  | within c' left' right' recursive' =>
    rw [hhole] at hc htakes
    obtain rfl := Binding.keyValue.inj (List.mem_singleton.1 hc)
    rw [startsWith, htakes.2]
    decide

/-- The declaration above the outputs of a manifest without inputs. -/
theorem exists_insertion_aboveOutputs {o : KeyValue}
    (hparse : Expr.parse text = .ok T)
    (hinputs : T.findFirst (some [inputsName]) = .ok none)
    (hanchor : (anchor? T location?).result = .ok none)
    (houtputs : T.findFirst (some [outputsName]) = .ok (some o))
    (hout : (insertInput T name url text location?).result = .ok out) :
    ∃ o₁ spot spot' w, Insertion text name location? T o o₁ spot spot' w := by
  obtain ⟨before, behind, recursive, hsplit, hbefore, hnames⟩ := Lookup.exists_split houtputs
  have ho : startsWith outputsName o = true := beq_iff_eq.2 hnames
  rw [result_insertInput_missingInputs hanchor houtputs] at hout
  obtain ⟨text', hthread, -⟩ := Outcome.bind_eq_ok.1 hout
  have hmeets :
      Meets o (.above o.span.start true) .between before ([] ++ Binding.keyValue o :: behind) :=
    .above
  have hnode' : T.node =
      .map (before ++ (Hole.between.bindings ++ ([] ++ Binding.keyValue o :: behind))) recursive :=
    hsplit
  obtain ⟨o₁, u, v, hturns, hput, hinserted⟩ := exists_inserted_ahead hparse hnode' trivial hmeets
    (by simp) (by simpa using hbefore) ho hthread
  refine ⟨o₁, ⟨.between, before, [] ++ .keyValue o :: behind, recursive⟩,
    ⟨.between, before, [] ++ .keyValue o₁ :: behind, recursive⟩, ⟨true, u, v⟩,
    { outputs := houtputs
      node_eq := hnode'
      isPlace := trivial
      takes := rfl
      turns := hturns
      swaps := .right (by simpa using hbefore)
      declares := fun url => .aboveOutputs hsplit hinputs houtputs
      result := fun url => ?_
      inserted := fun url => hinserted url true rfl }⟩
  rw [result_insertInput_missingInputs hanchor houtputs, hthread, Outcome.ok_bind, hput]
  rfl

/-- The declaration next to the anchor of a location. -/
theorem exists_insertion_beside {cs : List KeyValue} {recursive nested : Bool} {b o : KeyValue}
    (hparse : Expr.parse text = .ok T) (hnode : T.node = .map (cs.map .keyValue) recursive)
    (hsets : Manifest.AreSets cs) (hanchored : Anchored T cs b location? nested)
    (hanchor : (anchor? T location?).result = .ok (some (b, nested)))
    (hbrace : ∀ b, (anchor? T location?).result = .ok (some (b, false)) →
      b.names = [some inputsName] → b.value.node = .map [] true →
        braceIsToken text b.value.span = true)
    (houtputs : T.findFirst (some [outputsName]) = .ok (some o))
    (hout : (insertInput T name url text location?).result = .ok out) :
    ∃ o₁ spot spot' w, Insertion text name location? T o o₁ spot spot' w := by
  obtain ⟨place, qualified, ⟨hole, left, right, recursive⟩, hplacing, hslot, hstarts⟩ :=
    exists_slot hnode hsets hanchor hanchored
  have ho : startsWith outputsName o = true :=
    beq_iff_eq.2 (Lookup.head?_names_of_findFirst houtputs)
  have hother := startsWith_inputs_of_outputs houtputs
  have hplace : ∀ c, place = .inside c → c.value.node = .map [] true →
      braceIsToken text c.value.span = true :=
    fun c hc => hbrace c (hslot.empty c hc).1 (hslot.empty c hc).2
  have hdeclare : ∀ url text,
      (declareInput b (location?.getD .bottom) nested name url text).result =
      place.put text (declaration name url qualified) := by
    intro url text
    rw [result_declareInput, hplacing, Outcome.ok_bind]
  have hresult := fun url => result_insertInput_beside hanchor houtputs name url text
  rcases exists_sides hslot.node_eq houtputs hslot.startsWith_of_mem with
    ⟨middle, behind, rfl, hbefore⟩ | ⟨before, middle, rfl, hbefore⟩
  · have hlt := start_lt_of_ahead hparse hslot.node_eq hslot.isPlace
      (hslot.meets.trim_right hstarts hother)
    simp only [if_pos hlt, hdeclare] at hresult
    rw [hresult] at hout
    obtain ⟨text', hthread, -⟩ := Outcome.bind_eq_ok.1 hout
    obtain ⟨o₁, u, v, hturns, hput, hinserted⟩ := exists_inserted_ahead hparse hslot.node_eq
      hslot.isPlace hslot.meets hplace hbefore ho hthread
    refine ⟨o₁, _, _, ⟨qualified, u, v⟩,
      { outputs := houtputs
        node_eq := hslot.node_eq
        isPlace := hslot.isPlace
        takes := hslot.takes
        turns := hturns
        swaps := .right hbefore
        declares := hslot.declares name
        result := fun url => ?_
        inserted := fun url => hinserted url qualified hslot.takes }⟩
    rw [hresult, hthread, Outcome.ok_bind, hput]
    rfl
  · have hlt := not_start_lt_of_after hparse hslot.node_eq hslot.isPlace
      (hslot.meets.trim_left hother)
    simp only [if_neg hlt, hdeclare] at hresult
    obtain ⟨u₀, v, hput, hthread⟩ := exists_inserted_after hparse hslot.node_eq hslot.isPlace
      hslot.meets hplace hbefore ho name
    simp only [hput, Outcome.ok_bind] at hresult
    rcases hthread with ⟨e, herror⟩ | ⟨o₁, u, hturns, hthread, hinserted⟩
    · rw [hresult, herror] at hout
      cases hout
    · refine ⟨o₁, _, _, ⟨qualified, u, v⟩,
        { outputs := houtputs
          node_eq := hslot.node_eq
          isPlace := hslot.isPlace
          takes := hslot.takes
          turns := hturns
          swaps := .left hbefore
          declares := hslot.declares name
          result := fun url => ?_
          inserted := fun url => hinserted url qualified hslot.takes }⟩
      rw [hresult, hthread]
      rfl

/-- Adding an input that is not declared yet writes one declaration, in a place that does not
depend on the url. -/
theorem exists_insertion (hparse : Expr.parse text = .ok T)
    (hnone : T.findFirst (some (urlPath name)) = .ok none)
    (hbrace : ∀ b, (anchor? T location?).result = .ok (some (b, false)) →
      b.names = [some inputsName] → b.value.node = .map [] true →
        braceIsToken text b.value.span = true)
    (hout : (insertInput T name url text location?).result = .ok out) :
    ∃ o o₁ spot spot' w, Insertion text name location? T o o₁ spot spot' w := by
  obtain ⟨bs, recursive, hnode⟩ := Lookup.exists_map_of_findFirst hnone
  rw [Lookup.findFirst_map hnode, Lookup.findSomeM?_eq_none] at hnone
  obtain ⟨cs, rfl, hsets⟩ := Manifest.exists_areSets hnone
  cases houtputs : cs.find? (startsWith outputsName) with
  | none =>
    have hmissing := Lookup.findFirst_segment hnode outputsName
    rw [houtputs] at hmissing
    rcases exists_anchor hnode hsets location? with ⟨-, hanchor⟩ | ⟨b, nested, hanchor, -⟩
    · rw [result_insertInput_missingBoth hanchor hmissing] at hout
      cases hout
    · rw [result_insertInput_missingOutputs hanchor hmissing] at hout
      obtain ⟨_, -, herror⟩ := Outcome.bind_eq_ok.1 hout
      cases herror
  | some o =>
    have hfind := Lookup.findFirst_segment hnode outputsName
    rw [houtputs] at hfind
    refine ⟨o, ?_⟩
    rcases exists_anchor hnode hsets location? with
      ⟨hinputs, hanchor⟩ | ⟨b, nested, hanchor, hanchored⟩
    · exact exists_insertion_aboveOutputs hparse hinputs hanchor hfind hout
    · exact exists_insertion_beside hparse hnode hsets hanchored hanchor hbrace hfind hout

/-- Where the first binding of inputs is to no empty recursive set, none is filled. -/
theorem braceIsToken_of_first (hnone : T.findFirst (some (urlPath name)) = .ok none)
    (hempty : ∀ first, T.findFirst (some [inputsName]) = .ok (some first) →
      first.names = [some inputsName] → first.value.node ≠ .map [] true) :
    ∀ b, (anchor? T location?).result = .ok (some (b, false)) → b.names = [some inputsName] →
      b.value.node = .map [] true → braceIsToken text b.value.span = true := by
  obtain ⟨bs, recursive, hnode⟩ := Lookup.exists_map_of_findFirst hnone
  rw [Lookup.findFirst_map hnode, Lookup.findSomeM?_eq_none] at hnone
  obtain ⟨cs, rfl, hsets⟩ := Manifest.exists_areSets hnone
  intro b hanchor hnames hrec
  exact absurd hrec (hempty b (findFirst_of_anchor hnode hsets hanchor hnames) hnames)

end

/-! ## Manifests that can be edited -/

/-- Whether a binding is that of the inputs to an empty recursive set. -/
def bindsEmptyRec (b : KeyValue) : Bool :=
  b.names == [some inputsName] && match b.value.node with
    | .map [] true => true
    | _ => false

theorem bindsEmptyRec_eq_true {b : KeyValue} :
    bindsEmptyRec b = true ↔ b.names = [some inputsName] ∧ b.value.node = .map [] true := by
  rw [bindsEmptyRec, Bool.and_eq_true, beq_iff_eq]
  refine and_congr_right fun _ => ?_
  split
  · next hnode => simp [hnode]
  · next hne => simpa using hne

/-- No binding of a manifest is that of the inputs to an empty recursive set. -/
def NoEmptyRec (T : Expr) : Prop :=
  ∀ bs recursive b, T.node = .map bs recursive → .keyValue b ∈ bs → bindsEmptyRec b = false

/-- A text that spells a manifest in which the inputs are no empty recursive set and the last
parameter of the outputs does not end with a url. -/
structure Editable (text : Text) (T : Expr) : Prop where
  parses : Expr.parse text = .ok T
  inputs : NoEmptyRec T
  outputs : ∀ o, T.findFirst (some [outputsName]) = .ok (some o) → IsClean text o

/-- Whether a text that spells a manifest can be edited. -/
def isEditable (text : Text) (T : Expr) : Bool :=
  (Lookup.bindings T).toOption.all (fun bs => bs.all fun
    | .keyValue b => !bindsEmptyRec b
    | .inherited _ _ _ => true) &&
  (T.findFirst (some [outputsName])).toOption.join.all fun o => !hasHead (endsInUri text) o

theorem editable_of_isEditable {text : Text} {T : Expr} (hparse : Expr.parse text = .ok T)
    (h : isEditable text T = true) : Editable text T := by
  rw [isEditable, Bool.and_eq_true] at h
  refine ⟨hparse, ?_, ?_⟩
  · intro bs recursive b hnode hb
    have hall := h.1
    simp only [Lookup.bindings, hnode, Except.toOption, Option.all_some, List.all_eq_true] at hall
    simpa using hall _ hb
  · intro o ho list hlist
    have hall := h.2
    simp only [ho, Except.toOption, Option.join_some, Option.all_some, hasHead, hlist,
      Option.any_some] at hall
    simpa using hall

theorem Editable.first {text : Text} {T : Expr} (h : Editable text T) {first : KeyValue}
    (hfirst : T.findFirst (some [inputsName]) = .ok (some first))
    (hnames : first.names = [some inputsName]) : first.value.node ≠ .map [] true := by
  intro hnode
  obtain ⟨before, behind, recursive, hsplit, -⟩ := Lookup.exists_split hfirst
  have hfalse := h.inputs _ recursive first hsplit (by simp)
  rw [bindsEmptyRec_eq_true.2 ⟨hnames, hnode⟩] at hfalse
  exact Bool.noConfusion hfalse

/-- Whether a manifest can be edited and does not have an input. -/
def lacks (text name : Text) (T : Expr) : Bool :=
  isEditable text T && (T.findFirst (some (urlPath name))).toOption.any Option.isNone

theorem exists_of_lacks {text name : Text}
    (h : (Expr.parse text).toOption.any (lacks text name) = true) :
    ∃ T, Editable text T ∧ T.findFirst (some (urlPath name)) = .ok none := by
  obtain ⟨T, hparse, hlacks⟩ := Outcome.exists_of_any h
  rw [lacks, Bool.and_eq_true] at hlacks
  obtain ⟨b?, hfind, hnone⟩ := Outcome.exists_of_any hlacks.2
  rw [Option.isNone_iff_eq_none] at hnone
  exact ⟨T, editable_of_isEditable hparse hlacks.1, by rw [hfind, hnone]⟩

/-! ## One more binding and one more parameter -/

section
variable {text out name url : Text} {location? : Option Location} {T : Expr}

theorem shape_declared (name url : Text) (qualified : Bool) :
    (declared name url qualified).shape = declared name url qualified := by
  have hkey : (writtenKey name).shape = writtenKey name := by
    unfold writtenKey
    split
    · rfl
    · rfl
  cases qualified
  all_goals simp [declared, KeyValue.shape, hkey, Key.shape, Expr.shape, Node.shape, Part.shape]

theorem filled_fill (hole : Hole) (d : KeyValue) : hole.Filled d (hole.fill d) := by
  cases hole with
  | between => rfl
  | within c left right recursive => exact ⟨_, left, right, rfl, rfl, rfl, rfl, rfl⟩

/-- The outputs are exchanged where a declaration stands on one side of them. -/
theorem Insertion.exchanges {o o₁ : KeyValue} {spot spot' : Spot} {w : Writing}
    (h : Insertion text name location? T o o₁ spot spot' w) (url : Text) :
    Exchanges o o₁ [outputsName]
      ⟨T.span, spot.node (spot.hole.fill (declared name url w.qualified))⟩
      ⟨T.span, spot'.node (spot'.hole.fill (declared name url w.qualified))⟩ := by
  have hkey := Lookup.compare_segment (Lookup.head?_names_of_findFirst h.outputs)
  have hfill : ∀ x ∈ spot.hole.fill (declared name url w.qualified),
      found (some [outputsName]) x = .ok none :=
    found_filled_apart (filled_fill spot.hole _) h.takes (shape_declared name url w.qualified)
      (by decide)
  rw [← h.swaps.hole_eq]
  generalize spot.hole.fill (declared name url w.qualified) = ds at hfill
  cases h.swaps with
  | @right hole left middle behind recursive hbefore =>
    have hnone : ∀ x ∈ left ++ (ds ++ middle), found (some [outputsName]) x = .ok none := by
      intro x hx
      simp only [List.mem_append] at hx
      rcases hx with hx | hx | hx
      · exact hbefore x (List.mem_append_left _ hx)
      · exact hfill x hx
      · exact hbefore x (List.mem_append_right _ hx)
    simpa [Spot.node] using @Exchanges.reached o o₁ _ T.span _ behind recursive hnone hkey
  | @left hole before middle right recursive hbefore =>
    simpa [Spot.node] using @Exchanges.reached o o₁ _ T.span _ (middle ++ (ds ++ right)) recursive
      hbefore hkey

theorem Inserted.shape_eq {o : KeyValue} {spot : Spot} {w : Writing} {T' : Expr} {d : KeyValue}
    (h : Inserted text o name url spot w T' d) (span : Span) :
    T'.shape = (⟨span, spot.node (spot.hole.fill (declared name url w.qualified))⟩ :
      Expr).shape := by
  obtain ⟨left', bs, right', hnode, hfilled, hleft, hright⟩ := h.node_eq
  have hbs := Grammar.shapes_of_filled hfilled
    (h.shape.trans (shape_declared name url w.qualified).symm)
  rw [Expr.eta T', hnode]
  simp only [Expr.shape, Spot.node, Node.shape, Binding.shapes_eq_map, List.map_append,
    hleft, hright, hbs]

theorem result_addInput (hparse : Expr.parse text = .ok T) (name url : Text)
    (location? : Option Location) :
    (addInput text name url location?).result =
      (upsertInput T name url text (urlPath name) location?).result := by
  simp only [addInput, Logged.result_bind, Outcome.result_monadLift, hparse, Outcome.ok_bind]

theorem result_upsertInput_of_none {path : List Text} (hnone : T.findFirst (some path) = .ok none)
    (name url text : Text) (location? : Option Location) :
    (upsertInput T name url text path location?).result =
      (insertInput T name url text location?).result := by
  simp only [upsertInput, Logged.result_bind, Outcome.result_monadLift, hnone, Outcome.ok_bind,
    Logged.result_note]

/-- Adding an input that a manifest does not have yet gives a manifest with one more binding in
the place that is asked for, and with one more parameter of the outputs function if that takes
the name.  Nothing else changes but spans. -/
theorem addInput_declares (hparse : Expr.parse text = .ok T)
    (hnone : T.findFirst (some (urlPath name)) = .ok none)
    (hempty : ∀ first, T.findFirst (some [inputsName]) = .ok (some first) →
      first.names = [some inputsName] → first.value.node ≠ .map [] true)
    (hclean : ∀ o list body, T.findFirst (some [outputsName]) = .ok (some o) →
      o.value.node = .function (.destructured list) body → endsInUri text list = false)
    (hout : (addInput text name url location?).result = .ok out) :
    ∃ T' T₁ T₂ o, Expr.parse out = .ok T' ∧
      T.findFirst (some [outputsName]) = .ok (some o) ∧ Declares location? name url T T₁ ∧
      Exchanges o (threaded name o) [outputsName] T₁ T₂ ∧ T'.shape = T₂.shape := by
  have hclean' : ∀ o, T.findFirst (some [outputsName]) = .ok (some o) → IsClean text o := by
    intro o ho list hlist
    obtain ⟨_, body, heq, hnode⟩ := Binding.head?_eq_some hlist
    obtain rfl := Binding.keyValue.inj heq
    exact hclean o list body ho hnode
  rw [result_addInput hparse, result_upsertInput_of_none hnone] at hout
  obtain ⟨o, o₁, spot, spot', w, h⟩ :=
    exists_insertion hparse hnone (braceIsToken_of_first hnone hempty) hout
  obtain rfl := h.turns.threaded (hclean' o h.outputs)
  obtain rfl := Except.ok.inj (hout.symm.trans (h.result url))
  obtain ⟨T', d, hinserted⟩ := h.inserted url
  exact ⟨T', _, _, o, hinserted.parses, h.outputs, h.declares url, h.exchanges url,
    hinserted.shape_eq T.span⟩

theorem addInput_declares_within : ∃ text out T T' T₁ T₂ o,
    text = "\x7b inputs = \x7b \x7d; outputs = \x7b self \x7d: 1; \x7d".toList ∧
    Expr.parse text = .ok T ∧ T.findFirst (some (urlPath "b".toList)) = .ok none ∧
    (addInput text "b".toList "y".toList (some .top)).result = .ok out ∧ Expr.parse out = .ok T' ∧
    T.findFirst (some [outputsName]) = .ok (some o) ∧
    Declares (some .top) "b".toList "y".toList T T₁ ∧
    Exchanges o (threaded "b".toList o) [outputsName] T₁ T₂ ∧ T'.shape = T₂.shape := by
  have hlacks : (Expr.parse
      "\x7b inputs = \x7b \x7d; outputs = \x7b self \x7d: 1; \x7d".toList).toOption.any
        (lacks "\x7b inputs = \x7b \x7d; outputs = \x7b self \x7d: 1; \x7d".toList
          "b".toList) = true := by
    decide +kernel
  have hok : (addInput "\x7b inputs = \x7b \x7d; outputs = \x7b self \x7d: 1; \x7d".toList
      "b".toList "y".toList (some .top)).result.isOk = true := by
    decide +kernel
  obtain ⟨T, heditable, hnone⟩ := exists_of_lacks hlacks
  obtain ⟨out, hout⟩ := Outcome.exists_of_isOk hok
  obtain ⟨T', T₁, T₂, o, hparse', ho, hdeclares, hexchanges, hshape⟩ :=
    addInput_declares heditable.parses hnone (fun _ => heditable.first)
      (fun o list body ho hnode =>
        heditable.outputs o ho list (by simp [Binding.head?, hnode])) hout
  exact ⟨_, out, T, T', T₁, T₂, o, rfl, heditable.parses, hnone, hout, hparse', ho, hdeclares,
    hexchanges, hshape⟩

end

/-! ## Finding a new input -/

section
variable {text out name url : Text} {location? : Option Location} {T : Expr} {o o₁ : KeyValue}
  {hole : Hole} {qualified : Bool} {spot spot' : Spot} {w : Writing}

/-- What holds of the bindings around a place and of the new outputs holds of the bindings when
the outputs have been exchanged. -/
theorem Swaps.forall_mem {o' : KeyValue} {p : Binding → Prop} (h : Swaps o o' spot spot')
    (ho' : p (.keyValue o')) (hall : ∀ x ∈ spot.left ++ spot.right, p x) :
    ∀ x ∈ spot'.left ++ spot'.right, p x := by
  intro x hx
  cases h with
  | right =>
    simp only [List.mem_append, List.mem_cons] at hx hall
    rcases hx with hx | hx | rfl | hx
    · exact hall x (.inl hx)
    · exact hall x (.inr (.inl hx))
    · exact ho'
    · exact hall x (.inr (.inr (.inr hx)))
  | left =>
    simp only [List.mem_append, List.mem_cons] at hx hall
    rcases hx with (hx | rfl | hx) | hx
    · exact hall x (.inl (.inl hx))
    · exact ho'
    · exact hall x (.inl (.inr (.inr hx)))
    · exact hall x (.inr hx)

/-- The outputs do not matter to a search for an input. -/
theorem TurnsInto.found_inputs (h : TurnsInto text name o o₁)
    (ho : T.findFirst (some [outputsName]) = .ok (some o)) (rest : List Text) :
    Lookup.found (some (inputsName :: rest)) (.keyValue o₁) = .ok none := by
  refine Lookup.found_of_apart (Lookup.compare_not_startsWith ?_)
  rw [startsWith, h.names, Lookup.head?_names_of_findFirst ho]
  decide

/-- A declaration is what a search for its name finds among the bindings around it, if the name
is written as it is. -/
theorem found_filled {bs : List Binding} {d : KeyValue} (h : hole.Filled d bs)
    (hplace : hole.IsPlace) (htakes : Takes hole qualified)
    (hshape : d.shape = declared name url qualified) (hname : writtenName name = name)
    (hnone : ∀ x ∈ hole.bindings, found (some (urlPath name)) x = .ok none) :
    bs.findSomeM? (found (some (urlPath name))) = .ok (some d) := by
  have hnames : d.names = (declared name url qualified).names := by
    rw [← hshape, KeyValue.names_shape]
  rw [names_declared, hname] at hnames
  cases hole with
  | between =>
    obtain rfl : bs = _ := h
    obtain rfl : qualified = true := htakes
    refine Lookup.findSomeM?_cons_of_some (Lookup.found_of_reached ?_)
    rw [hnames]
    simp [Lookup.compare, Lookup.comparePath, Lookup.compareRest, urlPath]
  | within c left right recursive =>
    obtain ⟨c', left', right', rfl, hpath, hnode, hleft, -⟩ := h
    obtain ⟨rfl, hc⟩ := htakes
    have hwithin :
        Lookup.compare [some inputsName] (some (urlPath name)) = .within [name, urlName] := by
      simp [Lookup.compare, Lookup.comparePath, Lookup.compareRest, urlPath]
    have hchildren := hnone (.keyValue c) (List.mem_singleton.2 rfl)
    rw [Lookup.found_of_within (by rw [hc, hwithin]), Lookup.findFirst_map hplace,
      Lookup.findSomeM?_eq_none] at hchildren
    refine Lookup.findSomeM?_cons_of_some ?_
    rw [Lookup.found_of_within (by rw [KeyValue.names_eq_of_shape hpath, hc, hwithin]),
      Lookup.findFirst_map hnode, Lookup.findSomeM?_append_of_none
        (Lookup.found_eq_none_of_shape hleft fun x hx => hchildren x (List.mem_append_left _ hx))]
    refine Lookup.findSomeM?_cons_of_some (Lookup.found_of_reached ?_)
    rw [hnames]
    simp [Lookup.compare, Lookup.comparePath, Lookup.compareRest]

/-- A new input is found under its name, if the name is written as it is. -/
theorem Insertion.finds {T' : Expr} {d : KeyValue}
    (h : Insertion text name location? T o o₁ spot spot' w)
    (hnone : T.findFirst (some (urlPath name)) = .ok none) (hname : writtenName name = name)
    (hinserted : Inserted text o name url spot' w T' d) :
    T'.findFirst (some (urlPath name)) = .ok (some d) := by
  rw [Lookup.findFirst_map h.node_eq, Lookup.findSomeM?_eq_none] at hnone
  have hleft : ∀ x ∈ spot'.left, found (some (urlPath name)) x = .ok none := by
    have hsides : ∀ x ∈ spot'.left ++ spot'.right, found (some (urlPath name)) x = .ok none := by
      refine h.swaps.forall_mem (h.turns.found_inputs h.outputs _) fun x hx => hnone x ?_
      simp only [List.mem_append] at hx ⊢
      exact hx.imp_right .inr
    exact fun x hx => hsides x (List.mem_append_left _ hx)
  obtain ⟨left, bs, right, hnode, hfilled, hshape, -⟩ := hinserted.node_eq
  rw [← h.swaps.hole_eq] at hfilled
  have hbs := found_filled hfilled h.isPlace h.takes hinserted.shape hname fun x hx =>
    hnone x (List.mem_append_right _ (List.mem_append_left _ hx))
  rw [Lookup.findFirst_map hnode,
    Lookup.findSomeM?_append_of_none (Lookup.found_eq_none_of_shape hshape hleft),
    Lookup.findSomeM?_append_of_some hbs]

/-- A declaration does not matter to the search for another input. -/
theorem found_fill {other : Text} (hplace : hole.IsPlace) (htakes : Takes hole qualified)
    (hother : writtenName name ≠ other) (cs : List Binding) :
    (hole.fill (declared name url qualified) ++ cs).findSomeM? (found (some (urlPath other))) =
      (hole.bindings ++ cs).findSomeM? (found (some (urlPath other))) := by
  have hnames := names_declared name url qualified
  cases hole with
  | between =>
    obtain rfl : qualified = true := htakes
    refine Lookup.findSomeM?_cons_of_none (Lookup.found_of_apart ?_)
    rw [hnames]
    simp [Lookup.compare, Lookup.comparePath, Lookup.compareRest, urlPath, hother]
  | within c left right recursive =>
    obtain ⟨rfl, hc⟩ := htakes
    have hwithin : Lookup.compare c.names (some (urlPath other)) = .within [other, urlName] := by
      rw [hc]
      simp [Lookup.compare, Lookup.comparePath, Lookup.compareRest, urlPath]
    refine @Lookup.findSomeM?_exchange _ [] _ _ _ ?_
    rw [Lookup.found_of_within hwithin, Lookup.findFirst_map hplace,
      Lookup.found_of_within (b := { c with value := _ }) hwithin, Lookup.findFirst_map rfl]
    refine Lookup.findSomeM?_append_congr
      (Lookup.findSomeM?_cons_of_none (Lookup.found_of_apart ?_))
    rw [hnames]
    simp [Lookup.compare, Lookup.comparePath, hother]

/-- A search for another input finds what it found before, apart from spans. -/
theorem Insertion.shapeOf_findFirst {T' : Expr} {d : KeyValue} {other : Text}
    (h : Insertion text name location? T o o₁ spot spot' w)
    (hinserted : Inserted text o name url spot' w T' d) (hother : writtenName name ≠ other) :
    shapeOf (T'.findFirst (some (urlPath other))) =
      shapeOf (T.findFirst (some (urlPath other))) := by
  have hparts : Lookup.Parts [outputsName] (urlPath other) := .here (by decide)
  rw [Lookup.findFirst_eq_of_shape (hinserted.shape_eq T.span),
    (h.exchanges url).findFirst_of_parts h.turns.names hparts, Lookup.findFirst_map rfl,
    Lookup.findFirst_map h.node_eq,
    Lookup.findSomeM?_append_congr (found_fill h.isPlace h.takes hother spot.right)]

/-- The url of a new input is replaced in the place where it stands. -/
theorem Spelled.result_replaceValue {T' : Expr} {d : KeyValue} (h : Spelled name url w T' d)
    (url' : Text) : replaceValue d.value url' (w.text name url) = .ok (w.text name url') := by
  have htext : ∀ url, w.text name url =
      (w.front ++ declarationHead name w.qualified) ++ (escape url ++ (['"', ';'] ++ w.back)) := by
    intro url
    simp [Writing.text, declaration_eq]
  rw [htext, htext]
  simp only [replaceValue, h.value]
  exact replace_append _ _ _ _

/-- A new input is found under its name, if the name is written as it is, and adding it again
replaces its url. -/
theorem addInput_finds_again (hparse : Expr.parse text = .ok T)
    (hnone : T.findFirst (some (urlPath name)) = .ok none)
    (hbrace : ∀ b, (anchor? T location?).result = .ok (some (b, false)) →
      b.names = [some inputsName] → b.value.node = .map [] true →
        braceIsToken text b.value.span = true)
    (hname : escape name = name) (hout : (addInput text name url location?).result = .ok out) :
    ∃ u v qualified T' d, out = u ++ (declaration name url qualified ++ v) ∧
      Expr.parse out = .ok T' ∧ T'.findFirst (some (urlPath name)) = .ok (some d) ∧
      d.span = ⟨Position.start.after u,
        (Position.start.after u).after (declaration name url qualified)⟩ ∧
      ∀ url' location?', (addInput out name url' location?').result =
        .ok (u ++ (declaration name url' qualified ++ v)) := by
  rw [result_addInput hparse, result_upsertInput_of_none hnone] at hout
  obtain ⟨o, o₁, spot, spot', w, h⟩ := exists_insertion hparse hnone hbrace hout
  obtain rfl := Except.ok.inj (hout.symm.trans (h.result url))
  obtain ⟨T', d, hinserted⟩ := h.inserted url
  have hfind := h.finds hnone ((writtenName_eq_escape name).trans hname) hinserted
  refine ⟨w.front, w.back, w.qualified, T', d, rfl, hinserted.parses, hfind, hinserted.span,
    fun url' _ => ?_⟩
  rw [result_addInput hinserted.parses, result_upsertInput_of_some hfind,
    hinserted.result_replaceValue]
  rfl

theorem addInput_finds_again_filled : ∃ text out T b u v qualified T' d,
    text = "\x7b inputs = rec /* a */ \x7b \x7d; outputs = \x7b a ? x:y \x7d: 1; \x7d".toList ∧
    Expr.parse text = .ok T ∧ T.findFirst (some (urlPath "b".toList)) = .ok none ∧
    (anchor? T (some .top)).result = .ok (some (b, false)) ∧ b.names = [some inputsName] ∧
    b.value.node = .map [] true ∧ braceIsToken text b.value.span = true ∧
    (addInput text "b".toList "y".toList (some .top)).result = .ok out ∧
    out = u ++ (declaration "b".toList "y".toList qualified ++ v) ∧ Expr.parse out = .ok T' ∧
    T'.findFirst (some (urlPath "b".toList)) = .ok (some d) ∧
    d.span = ⟨Position.start.after u,
      (Position.start.after u).after (declaration "b".toList "y".toList qualified)⟩ ∧
    (addInput out "b".toList "z".toList none).result =
      .ok (u ++ (declaration "b".toList "z".toList qualified ++ v)) := by
  have hcheck : (Expr.parse
    "\x7b inputs = rec /* a */ \x7b \x7d; outputs = \x7b a ? x:y \x7d: 1; \x7d".toList).toOption.any
      (fun T => (T.findFirst (some (urlPath "b".toList))).toOption.any Option.isNone &&
        (anchor? T (some .top)).result.toOption.any fun b? => b?.any fun b =>
          !b.2 && (bindsEmptyRec b.1 && braceIsToken
            "\x7b inputs = rec /* a */ \x7b \x7d; outputs = \x7b a ? x:y \x7d: 1; \x7d".toList
            b.1.value.span)) = true := by
    decide +kernel
  have hok : (addInput
      "\x7b inputs = rec /* a */ \x7b \x7d; outputs = \x7b a ? x:y \x7d: 1; \x7d".toList
      "b".toList "y".toList (some .top)).result.isOk = true := by
    decide +kernel
  obtain ⟨T, hparse, hcheck⟩ := Outcome.exists_of_any hcheck
  rw [Bool.and_eq_true] at hcheck
  obtain ⟨x?, hnone, hx⟩ := Outcome.exists_of_any hcheck.1
  obtain rfl := Option.isNone_iff_eq_none.1 hx
  obtain ⟨b?, hanchor, hb⟩ := Outcome.exists_of_any hcheck.2
  obtain ⟨⟨b, nested⟩, rfl, htest⟩ := (Option.any_eq_true _ _).1 hb
  simp only [Bool.and_eq_true, Bool.not_eq_true', bindsEmptyRec_eq_true] at htest
  obtain ⟨rfl, ⟨hnames, hvalue⟩, hbrace⟩ := htest
  obtain ⟨out, hout⟩ := Outcome.exists_of_isOk hok
  have honly : ∀ c, (anchor? T (some .top)).result = .ok (some (c, false)) → c = b := by
    intro c hc
    rw [hanchor] at hc
    cases hc
    rfl
  obtain ⟨u, v, qualified, T', d, htext, hparse', hfind, hspan, hagain⟩ :=
    addInput_finds_again hparse hnone (fun c hc _ _ => honly c hc ▸ hbrace) (by decide) hout
  exact ⟨_, out, T, b, u, v, qualified, T', d, rfl, hparse, hnone, hanchor, hnames, hvalue, hbrace,
    hout, htext, hparse', hfind, hspan, hagain _ _⟩

/-- A new input whose name is written with escapes is not found under its name, so adding it
again declares it once more. -/
theorem addInput_misses_escaped (hparse : Expr.parse text = .ok T)
    (hnone : T.findFirst (some (urlPath name)) = .ok none)
    (hbrace : ∀ b, (anchor? T location?).result = .ok (some (b, false)) →
      b.names = [some inputsName] → b.value.node = .map [] true →
        braceIsToken text b.value.span = true)
    (hname : escape name ≠ name) (hout : (addInput text name url location?).result = .ok out) :
    ∃ T', Expr.parse out = .ok T' ∧ T'.findFirst (some (urlPath name)) = .ok none ∧
      ∀ url' location?', (addInput out name url' location?').result =
        (insertInput T' name url' out location?').result := by
  rw [result_addInput hparse, result_upsertInput_of_none hnone] at hout
  obtain ⟨o, o₁, spot, spot', w, h⟩ := exists_insertion hparse hnone hbrace hout
  obtain rfl := Except.ok.inj (hout.symm.trans (h.result url))
  obtain ⟨T', d, hinserted⟩ := h.inserted url
  have hfind : T'.findFirst (some (urlPath name)) = .ok none := by
    have hshape := h.shapeOf_findFirst hinserted (by rwa [writtenName_eq_escape])
    rw [hnone] at hshape
    exact Lookup.shapeOf_eq_none.1 hshape
  refine ⟨T', hinserted.parses, hfind, fun url' location?' => ?_⟩
  rw [result_addInput hinserted.parses, result_upsertInput_of_none hfind]

/-- A name that is written with escapes is not found again: adding it twice declares it
twice. -/
theorem addInput_twice_escaped :
    (addInput "\x7b outputs = \x7b self \x7d: 1; \x7d".toList "a\"b".toList "y".toList
        none).result.toOption.any (fun out =>
      (Expr.parse out).toOption.any (lacks out "a\"b".toList) &&
        (addInput out "a\"b".toList "z".toList none).result.toOption.any fun again =>
          again == "\x7b inputs.\"a\\\"b\".url = \"y\"; ".toList ++
            "inputs.\"a\\\"b\".url = \"z\"; outputs = \x7b self \x7d: 1; \x7d".toList) = true := by
  decide +kernel

end

end Edit
end FlakeInputs
