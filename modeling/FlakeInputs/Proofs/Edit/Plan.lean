import FlakeInputs.Proofs.Edit.Additions
import FlakeInputs.Proofs.Edit.Declarations
import FlakeInputs.Proofs.Manifest.Declared
import FlakeInputs.Proofs.Manifest.Holes

/-!
# Where a declaration goes

The bindings of a manifest tell where a new input is declared: in an `inputs` set, next to a
binding whose key begins with `inputs`, or above the outputs if there are no inputs.
-/

namespace FlakeInputs
namespace Edit

open Lookup (startsWith)
open Manifest (inputsName outputsName)

/-! ## What the edits do -/

/-- The place on one side of a span. -/
def beside (location : Location) (span : Span) : Placing :=
  match location with
  | .top => .above span.start false
  | .bottom => .below span

/-- The first or the last of some bindings. -/
def endOf (location : Location) (children : List KeyValue) : Option KeyValue :=
  match location with
  | .top => children.head?
  | .bottom => children.getLast?

/-- The place next to a binding, and whether a key there is qualified. -/
def placing (binding : KeyValue) (location : Location) (nested : Bool) :
    Except Error (Placing × Bool) :=
  if binding.names = [some inputsName] ∧ nested = false then do
    let children ← binding.value.findAll none
    match endOf location children with
    | none => return (.inside binding, false)
    | some anchor => return (beside location anchor.span, false)
  else return (beside location binding.span, !nested)

theorem result_insertBeside (location : Location) (name : Text) (span : Span)
    (text declaration : Text) :
    (insertBeside location name span text declaration).result =
      (beside location span).put text declaration := by
  cases location <;> rfl

theorem result_declareInput (binding : KeyValue) (location : Location) (nested : Bool)
    (name url text : Text) :
    (declareInput binding location nested name url text).result =
      placing binding location nested >>= fun p => p.1.put text (declaration name url p.2) := by
  unfold declareInput placing
  split
  · rw [Logged.result_bind, Outcome.result_monadLift]
    cases binding.value.findAll none with
    | error error => rfl
    | ok children =>
      cases location with
      | top =>
        simp only [Outcome.ok_bind, endOf]
        cases children.head? <;> rfl
      | bottom =>
        simp only [Outcome.ok_bind, endOf]
        cases children.getLast? <;> rfl
  · exact result_insertBeside _ _ _ _ _

theorem result_insertInput {T : Expr} {location? : Option Location} {findings : List Finding}
    (h : (classify T location?).result = .ok findings) (name url text : Text) :
    (insertInput T name url text location?).result =
      findings.foldlM (fun text f => (f.apply name url text).result) text := by
  rw [insertInput, Logged.result_bind, h, Outcome.ok_bind]
  clear h
  induction findings generalizing text with
  | nil => rfl
  | cons f findings ih =>
    simp only [List.foldlM_cons, Logged.result_bind, Logged.result_note, Outcome.ok_bind]
    congr 1
    funext text
    exact ih text

section
variable {T : Expr} {location? : Option Location} {b o : KeyValue} {nested : Bool}

theorem result_insertInput_missingBoth (hanchor : (anchor? T location?).result = .ok none)
    (houtputs : T.findFirst (some [outputsName]) = .ok none) (name url text : Text) :
    (insertInput T name url text location?).result = .error .missingInputsAndOutputs := by
  have hclassify : (classify T location?).result = .ok [.missingBoth T.span] := by
    rw [classify, Logged.result_bind, hanchor, Outcome.ok_bind, Logged.result_bind,
      Outcome.result_monadLift, houtputs]
    rfl
  rw [result_insertInput hclassify]
  rfl

theorem classify_missingInputs (hanchor : (anchor? T location?).result = .ok none)
    (houtputs : T.findFirst (some [outputsName]) = .ok (some o)) :
    (classify T location?).result = .ok [.hasOutputs o, .missingInputs o.span] := by
  rw [classify, Logged.result_bind, hanchor, Outcome.ok_bind, Logged.result_bind,
    Outcome.result_monadLift, houtputs]
  rfl

/-- Without inputs, the declaration goes above the outputs when these have been edited. -/
theorem result_insertInput_missingInputs (hanchor : (anchor? T location?).result = .ok none)
    (houtputs : T.findFirst (some [outputsName]) = .ok (some o)) (name url text : Text) :
    (insertInput T name url text location?).result =
      (threadOutputs o name text).result >>= fun text =>
        (Placing.above o.span.start true).put text (declaration name url true) := by
  rw [result_insertInput (classify_missingInputs hanchor houtputs)]
  simp only [List.foldlM_cons, List.foldlM_nil, bind_pure]
  rfl

theorem result_insertInput_missingOutputs
    (hanchor : (anchor? T location?).result = .ok (some (b, nested)))
    (houtputs : T.findFirst (some [outputsName]) = .ok none) (name url text : Text) :
    (insertInput T name url text location?).result =
      (declareInput b (location?.getD .bottom) nested name url text).result >>= fun _ =>
        .error .missingOutputs := by
  have hclassify : (classify T location?).result =
      .ok [.hasInputs b (location?.getD .bottom) nested, .missingOutputs b.span] := by
    rw [classify, Logged.result_bind, hanchor, Outcome.ok_bind, Logged.result_bind,
      Outcome.result_monadLift, houtputs]
    rfl
  rw [result_insertInput hclassify]
  rfl

/-- The edit that is later in the text comes first. -/
theorem classify_beside (hanchor : (anchor? T location?).result = .ok (some (b, nested)))
    (houtputs : T.findFirst (some [outputsName]) = .ok (some o)) :
    (classify T location?).result = .ok
      (if b.span.start < o.span.start then
        [.hasOutputs o, .hasInputs b (location?.getD .bottom) nested]
      else [.hasInputs b (location?.getD .bottom) nested, .hasOutputs o]) := by
  rw [classify, Logged.result_bind, hanchor, Outcome.ok_bind, Logged.result_bind,
    Outcome.result_monadLift, houtputs, Outcome.ok_bind]
  by_cases hlt : b.span.start < o.span.start
  · simp only [if_pos hlt, Logged.result_pure]
  · simp only [if_neg hlt]
    rfl

theorem result_insertInput_beside
    (hanchor : (anchor? T location?).result = .ok (some (b, nested)))
    (houtputs : T.findFirst (some [outputsName]) = .ok (some o)) (name url text : Text) :
    (insertInput T name url text location?).result =
      if b.span.start < o.span.start then
        (threadOutputs o name text).result >>= fun text =>
          (declareInput b (location?.getD .bottom) nested name url text).result
      else
        (declareInput b (location?.getD .bottom) nested name url text).result >>= fun text =>
          (threadOutputs o name text).result := by
  rw [result_insertInput (classify_beside hanchor houtputs)]
  split
  · simp only [List.foldlM_cons, List.foldlM_nil, bind_pure]
    rfl
  · simp only [List.foldlM_cons, List.foldlM_nil, bind_pure]
    rfl

end

/-! ## Where a declaration is promised to go -/

/-- New bindings above old ones, or below them. -/
def inOrder (location : Location) (new old : List Binding) : List Binding :=
  match location with
  | .top => new ++ old
  | .bottom => old ++ new

/-- The second manifest is the first one with the declaration of an input in the place that a
location asks for: above the outputs if there are no inputs; next to the anchor if that stands
at the top level; among the bindings of the `inputs` set that is the anchor; or below the
anchor in its `inputs` set. -/
inductive Declares (location? : Option Location) (name url : Text) (T : Expr) : Expr → Prop
  | aboveOutputs {left right : List Binding} {recursive : Bool} {o : KeyValue}
      (hnode : T.node = .map (left ++ .keyValue o :: right) recursive)
      (hinputs : T.findFirst (some [inputsName]) = .ok none)
      (houtputs : T.findFirst (some [outputsName]) = .ok (some o)) :
      Declares location? name url T ⟨T.span,
        .map (left ++ .keyValue (declared name url true) :: .keyValue o :: right) recursive⟩
  | besideAnchor {left right : List Binding} {recursive : Bool} {b : KeyValue}
      (hnode : T.node = .map (left ++ .keyValue b :: right) recursive)
      (hanchor : (anchor? T location?).result = .ok (some (b, false)))
      (hnames : b.names ≠ [some inputsName]) :
      Declares location? name url T ⟨T.span, .map (left ++ (inOrder (location?.getD .bottom)
        [.keyValue (declared name url true)] [.keyValue b] ++ right)) recursive⟩
  | withinAnchor {left right children : List Binding} {recursive recursive' : Bool} {b : KeyValue}
      (hnode : T.node = .map (left ++ .keyValue b :: right) recursive)
      (hanchor : (anchor? T location?).result = .ok (some (b, false)))
      (hnames : b.names = [some inputsName]) (hvalue : b.value.node = .map children recursive') :
      Declares location? name url T ⟨T.span, .map (left ++ .keyValue { b with value :=
        ⟨b.value.span, .map (inOrder (location?.getD .bottom)
          [.keyValue (declared name url false)] children) recursive'⟩ } :: right) recursive⟩
  | belowNested {left right before behind : List Binding} {recursive recursive' : Bool}
      {b c : KeyValue} (hnode : T.node = .map (left ++ .keyValue c :: right) recursive)
      (hanchor : (anchor? T location?).result = .ok (some (b, true)))
      (hnames : c.names = [some inputsName])
      (hvalue : c.value.node = .map (before ++ .keyValue b :: behind) recursive') :
      Declares location? name url T ⟨T.span, .map (left ++ .keyValue { c with value :=
        ⟨c.value.span, .map (before ++ .keyValue b :: .keyValue (declared name url false) :: behind)
          recursive'⟩ } :: right) recursive⟩

/-! ## Places and holes -/

/-- The place of a declaration next to a binding, among the bindings around it. -/
inductive Meets (b : KeyValue) : Placing → Hole → List Binding → List Binding → Prop
  | above {left right : List Binding} {blankLine : Bool} :
      Meets b (.above b.span.start blankLine) .between left (.keyValue b :: right)
  | below {left right : List Binding} (hb : startsWith inputsName b = true) :
      Meets b (.below b.span) .between (left ++ [.keyValue b]) right
  | first {left right children : List Binding} {x : KeyValue} {recursive : Bool} :
      Meets b (.above x.span.start false)
        (.within b [] (.keyValue x :: children) recursive) left right
  | last {left right children : List Binding} {x : KeyValue} {recursive : Bool} :
      Meets b (.below x.span) (.within b (children ++ [.keyValue x]) [] recursive) left right
  | empty {left right : List Binding} {recursive : Bool} :
      Meets b (.inside b) (.within b [] [] recursive) left right
  | nested {left right before behind : List Binding} {c : KeyValue} {recursive : Bool} :
      Meets b (.below b.span) (.within c (before ++ [.keyValue b]) behind recursive) left right

/-- Whether a declaration in a place is qualified.  If not, then it stands in an `inputs` set. -/
def Takes (hole : Hole) (qualified : Bool) : Prop :=
  match hole with
  | .between => qualified = true
  | .within c _ _ _ => qualified = false ∧ c.names = [some inputsName]

/-- A place in a set: the bindings on either side of it, and whether the set is recursive. -/
structure Spot where
  hole : Hole
  left : List Binding
  right : List Binding
  recursive : Bool

/-- The set with some bindings in the place. -/
def Spot.node (spot : Spot) (bs : List Binding) : Node :=
  .map (spot.left ++ (bs ++ spot.right)) spot.recursive

/-- A place for a declaration among the bindings of a manifest. -/
structure Slot (T : Expr) (location? : Option Location) (b : KeyValue) (place : Placing)
    (qualified : Bool) (spot : Spot) : Prop where
  node_eq : T.node = spot.node spot.hole.bindings
  isPlace : spot.hole.IsPlace
  meets : Meets b place spot.hole spot.left spot.right
  takes : Takes spot.hole qualified
  declares : ∀ name url, Declares location? name url T
    ⟨T.span, spot.node (spot.hole.fill (declared name url qualified))⟩
  empty : ∀ c, place = .inside c →
    (anchor? T location?).result = .ok (some (c, false)) ∧ c.names = [some inputsName]

/-- Which binding of a manifest is the anchor of a location. -/
inductive Anchored (T : Expr) (cs : List KeyValue) (b : KeyValue) : Option Location → Bool → Prop
  | first {location? : Option Location} (h : T.findFirst (some [inputsName]) = .ok (some b)) :
      Anchored T cs b location? false
  | last {location? : Option Location} (hb : b ∈ cs) (hstarts : startsWith inputsName b = true)
      (hnames : b.names ≠ [some inputsName]) : Anchored T cs b location? false
  | nested {c : KeyValue} {ks : List KeyValue} {recursive : Bool} (hc : c ∈ cs)
      (hnames : c.names = [some inputsName])
      (hnode : c.value.node = .map (ks.map .keyValue) recursive) (hb : b ∈ ks) :
      Anchored T cs b (some .bottom) true

section
variable {T : Expr} {cs : List KeyValue} {recursive : Bool}

theorem exists_anchor (hnode : T.node = .map (cs.map .keyValue) recursive)
    (hsets : Manifest.AreSets cs) (location? : Option Location) :
    (T.findFirst (some [inputsName]) = .ok none ∧ (anchor? T location?).result = .ok none) ∨
      ∃ b nested, (anchor? T location?).result = .ok (some (b, nested)) ∧
        Anchored T cs b location? nested := by
  have hfirst := Lookup.findFirst_segment hnode inputsName
  cases hfind : cs.find? (startsWith inputsName) with
  | none =>
    rw [hfind] at hfirst
    refine .inl ⟨hfirst, ?_⟩
    rw [anchor?, Logged.result_bind, Outcome.result_monadLift, hfirst]
    rfl
  | some first =>
    rw [hfind] at hfirst
    right
    have hanchor : ∀ location?, location? ≠ some .bottom →
        (anchor? T location?).result = .ok (some (first, false)) := by
      intro location? hlocation
      rw [anchor?, Logged.result_bind, Outcome.result_monadLift, hfirst, Outcome.ok_bind]
      rcases location? with _ | _ | _
      · rfl
      · rfl
      · exact absurd rfl hlocation
    by_cases hlocation : location? = some .bottom
    · subst hlocation
      have hsets' : Manifest.AreSets (cs.filter (startsWith inputsName)) :=
        fun c hc => hsets c (List.mem_filter.1 hc).1
      obtain ⟨ds, hds, hmem⟩ := Manifest.exists_collect hsets'
      have hresult : (anchor? T (some .bottom)).result =
          .ok (some ((ds.getLast?.map fun d => (d.binding, d.nested)).getD (first, false))) := by
        rw [anchor?, Logged.result_bind, Outcome.result_monadLift, hfirst, Outcome.ok_bind]
        simp only [Logged.result_bind, Outcome.result_monadLift,
          Lookup.findAll_segment hnode inputsName, Outcome.ok_bind, hds, Logged.result_pure]
        cases ds.getLast? <;> rfl
      cases hlast : ds.getLast? with
      | none =>
        rw [hlast] at hresult
        exact ⟨first, false, hresult, .first hfirst⟩
      | some d =>
        rw [hlast] at hresult
        have hin := hmem d (List.mem_of_getLast? hlast)
        refine ⟨d.binding, d.nested, hresult, ?_⟩
        unfold Manifest.Declared.IsIn at hin
        split at hin
        · next hnested =>
          obtain ⟨hb, hnames⟩ := hin
          obtain ⟨hb, hstarts⟩ := List.mem_filter.1 hb
          rw [hnested]
          exact .last hb hstarts hnames
        · next hnested =>
          obtain ⟨c, hc, hnames, ks, r, hchildren, hb⟩ := hin
          rw [hnested]
          exact .nested (List.mem_filter.1 hc).1 hnames hchildren hb
    · exact ⟨first, false, hanchor location? hlocation, .first hfirst⟩

/-- An anchor that is the set of the inputs is the first binding of inputs. -/
theorem findFirst_of_anchor {location? : Option Location} {b : KeyValue}
    (hnode : T.node = .map (cs.map .keyValue) recursive) (hsets : Manifest.AreSets cs)
    (hanchor : (anchor? T location?).result = .ok (some (b, false)))
    (hnames : b.names = [some inputsName]) : T.findFirst (some [inputsName]) = .ok (some b) := by
  rcases exists_anchor hnode hsets location? with ⟨-, hnone⟩ | ⟨b', nested, hanchor', hanchored⟩
  · rw [hanchor] at hnone
    cases hnone
  · rw [hanchor] at hanchor'
    cases hanchor'
    cases hanchored with
    | first h => exact h
    | last _ _ hne => exact absurd hnames hne

/-- A key that is not qualified stands in a set. -/
theorem Slot.not_between {location? : Option Location} {b : KeyValue} {place : Placing}
    {spot : Spot} (h : Slot T location? b place false spot) : spot.hole ≠ .between := by
  intro hbetween
  have htakes := h.takes
  rw [hbetween] at htakes
  exact Bool.noConfusion htakes

/-- A place at the top level, next to a binding of inputs. -/
theorem exists_slot_beside {location? : Option Location} {b : KeyValue} {l r : List Binding}
    (hsplit : T.node = .map (l ++ Binding.keyValue b :: r) recursive)
    (hanchor : (anchor? T location?).result = .ok (some (b, false)))
    (hstarts : startsWith inputsName b = true) (hnames : b.names ≠ [some inputsName]) :
    ∃ left right, Slot T location? b (beside (location?.getD .bottom) b.span) true
      ⟨.between, left, right, recursive⟩ := by
  have hdeclares := fun name url =>
    @Declares.besideAnchor location? name url _ _ _ _ _ hsplit hanchor hnames
  cases hside : location?.getD .bottom with
  | top =>
    refine ⟨l, .keyValue b :: r, hsplit, trivial, .above, rfl, ?_, by simp [beside]⟩
    intro name url
    simpa [hside, inOrder, Spot.node, Hole.fill] using hdeclares name url
  | bottom =>
    refine ⟨l ++ [Binding.keyValue b], r, ?_, trivial, .below hstarts, rfl, ?_, by simp [beside]⟩
    · rw [hsplit]
      simp [Spot.node, Hole.bindings]
    · intro name url
      simpa [hside, inOrder, Spot.node, Hole.fill] using hdeclares name url

/-- A place in the `inputs` set that is the anchor. -/
theorem exists_slot_within {location? : Option Location} {b : KeyValue} {ks : List KeyValue}
    {l r : List Binding} {recursive' : Bool}
    (hsplit : T.node = .map (l ++ Binding.keyValue b :: r) recursive)
    (hanchor : (anchor? T location?).result = .ok (some (b, false)))
    (hnames : b.names = [some inputsName])
    (hvalue : b.value.node = .map (ks.map .keyValue) recursive') :
    ∃ place spot, placing b (location?.getD .bottom) false = .ok (place, false) ∧
      Slot T location? b place false spot := by
  have hdeclares := fun name url =>
    @Declares.withinAnchor location? name url _ _ _ _ _ _ _ hsplit hanchor hnames hvalue
  have hplacing : placing b (location?.getD .bottom) false = .ok
      (match endOf (location?.getD .bottom) ks with
        | none => (.inside b, false)
        | some x => (beside (location?.getD .bottom) x.span, false)) := by
    rw [placing, if_pos ⟨hnames, rfl⟩, Lookup.findAll_keyValues hvalue, Outcome.ok_bind]
    cases endOf (location?.getD .bottom) ks <;> rfl
  cases hend : endOf (location?.getD .bottom) ks with
  | none =>
    obtain rfl : ks = [] := by
      cases hside : location?.getD .bottom with
      | top => simpa [endOf, hside] using hend
      | bottom => simpa [endOf, hside] using hend
    rw [hend] at hplacing
    refine ⟨_, ⟨.within b [] [] recursive', l, r, recursive⟩, hplacing, hsplit, hvalue,
      .empty, ⟨rfl, hnames⟩, ?_, ?_⟩
    · intro name url
      cases hside : location?.getD .bottom with
      | top => simpa [hside, inOrder, Spot.node, Hole.fill] using hdeclares name url
      | bottom => simpa [hside, inOrder, Spot.node, Hole.fill] using hdeclares name url
    · rintro c hc
      obtain rfl := Placing.inside.inj hc
      exact ⟨hanchor, hnames⟩
  | some x =>
    rw [hend] at hplacing
    cases hside : location?.getD .bottom with
    | top =>
      rw [hside] at hend hplacing
      obtain ⟨ks, rfl⟩ := List.head?_eq_some_iff.1 hend
      refine ⟨_, ⟨.within b [] (.keyValue x :: ks.map .keyValue) recursive', l, r, recursive⟩,
        hplacing, hsplit, by rw [Hole.IsPlace, hvalue]; simp, .first, ⟨rfl, hnames⟩,
        ?_, by simp [beside]⟩
      intro name url
      simpa [hside, inOrder, Spot.node, Hole.fill] using hdeclares name url
    | bottom =>
      rw [hside] at hend hplacing
      obtain ⟨ks, rfl⟩ := List.getLast?_eq_some_iff.1 hend
      refine ⟨_, ⟨.within b (ks.map .keyValue ++ [Binding.keyValue x]) [] recursive', l, r,
        recursive⟩, hplacing, hsplit, by rw [Hole.IsPlace, hvalue]; simp, .last, ⟨rfl, hnames⟩,
        ?_, by simp [beside]⟩
      intro name url
      simpa [hside, inOrder, Spot.node, Hole.fill] using hdeclares name url

/-- A place below an input in its `inputs` set. -/
theorem exists_slot_nested {b c : KeyValue} {ks : List KeyValue} {recursive' : Bool}
    (hnode : T.node = .map (cs.map .keyValue) recursive) (hc : c ∈ cs)
    (hanchor : (anchor? T (some .bottom)).result = .ok (some (b, true)))
    (hnames : c.names = [some inputsName])
    (hvalue : c.value.node = .map (ks.map .keyValue) recursive') (hb : b ∈ ks) :
    ∃ spot, Slot T (some .bottom) b (.below b.span) false spot := by
  obtain ⟨l, r, rfl⟩ := List.append_of_mem hc
  obtain ⟨before, behind, rfl⟩ := List.append_of_mem hb
  have hsplit : T.node =
      .map (l.map .keyValue ++ Binding.keyValue c :: r.map .keyValue) recursive := by
    rw [hnode]
    simp
  have hvalue' : c.value.node =
      .map (before.map .keyValue ++ Binding.keyValue b :: behind.map .keyValue) recursive' := by
    rw [hvalue]
    simp
  refine ⟨⟨.within c (before.map .keyValue ++ [Binding.keyValue b]) (behind.map .keyValue)
    recursive', l.map .keyValue, r.map .keyValue, recursive⟩, hsplit, ?_, .nested, ⟨rfl, hnames⟩,
    ?_, by simp⟩
  · rw [Hole.IsPlace, hvalue']
    simp
  · intro name url
    simpa [Spot.node, Hole.fill] using
      @Declares.belowNested (some .bottom) name url _ _ _ _ _ _ _ _ _ hsplit hanchor hnames hvalue'

/-- There is a place next to the anchor of a location. -/
theorem exists_slot {location? : Option Location} {b : KeyValue} {nested : Bool}
    (hnode : T.node = .map (cs.map .keyValue) recursive) (hsets : Manifest.AreSets cs)
    (hanchor : (anchor? T location?).result = .ok (some (b, nested)))
    (hanchored : Anchored T cs b location? nested) :
    ∃ place qualified spot, placing b (location?.getD .bottom) nested = .ok (place, qualified) ∧
      Slot T location? b place qualified spot ∧
      (spot.hole = .between → startsWith inputsName b = true) := by
  have hbeside : ∀ {location? : Option Location}, b.names ≠ [some inputsName] →
      placing b (location?.getD .bottom) false =
        .ok (beside (location?.getD .bottom) b.span, true) := by
    intro location? hnames
    rw [placing, if_neg (by simp [hnames])]
    rfl
  have hsplits : b ∈ cs →
      ∃ l r : List Binding, T.node = .map (l ++ Binding.keyValue b :: r) recursive := by
    intro hb
    obtain ⟨l, r, rfl⟩ := List.append_of_mem hb
    exact ⟨l.map .keyValue, r.map .keyValue, by rw [hnode]; simp⟩
  cases hanchored with
  | first hfirst =>
    have hfind := Lookup.findFirst_segment hnode inputsName
    rw [hfirst, Except.ok.injEq, eq_comm] at hfind
    have hb : b ∈ cs := List.mem_of_find?_eq_some hfind
    obtain ⟨l, r, hsplit⟩ := hsplits hb
    by_cases hnames : b.names = [some inputsName]
    · obtain ⟨ks, recursive', hvalue⟩ := hsets b hb hnames
      obtain ⟨place, spot, hplacing, hslot⟩ := exists_slot_within hsplit hanchor hnames hvalue
      exact ⟨place, false, spot, hplacing, hslot, fun hbetween => absurd hbetween hslot.not_between⟩
    · have hstarts : startsWith inputsName b = true := by simpa using List.find?_some hfind
      obtain ⟨left, right, hslot⟩ := exists_slot_beside hsplit hanchor hstarts hnames
      exact ⟨_, true, _, hbeside hnames, hslot, fun _ => hstarts⟩
  | last hb hstarts hnames =>
    obtain ⟨l, r, hsplit⟩ := hsplits hb
    obtain ⟨left, right, hslot⟩ := exists_slot_beside hsplit hanchor hstarts hnames
    exact ⟨_, true, _, hbeside hnames, hslot, fun _ => hstarts⟩
  | nested hc hnames hvalue hb =>
    obtain ⟨spot, hslot⟩ := exists_slot_nested hnode hc hanchor hnames hvalue hb
    refine ⟨_, false, spot, ?_, hslot, fun hbetween => absurd hbetween hslot.not_between⟩
    rw [placing, if_neg (by simp)]
    rfl

end

end Edit
end FlakeInputs
