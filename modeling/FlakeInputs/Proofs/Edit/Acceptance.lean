import FlakeInputs.Proofs.Edit.Results
import FlakeInputs.Proofs.Manifest.Plain

/-!
# Manifests that take any input

An edit refuses a manifest for its form, or it gives a result.  So an input can be added to every
plain manifest whose outputs are a function that can take one more parameter.
-/

namespace FlakeInputs
namespace Edit

open Lookup (startsWith)
open Manifest (inputsName outputsName urlPath IsUrl IsPlain)

/-- An outcome that is no error which says that a manifest has a form that is not edited. -/
def NeverRefuses {α : Type} (r : Except Error α) : Prop :=
  ∀ e, r = .error e → refuses e = false

theorem neverRefuses_ok {α : Type} (a : α) : NeverRefuses (.ok a) :=
  fun _ h => by cases h

theorem neverRefuses_error {α : Type} {e : Error} (h : refuses e = false) :
    NeverRefuses (.error e : Except Error α) := by
  intro e' he'
  rw [← Except.error.inj he']
  exact h

theorem NeverRefuses.bind {α β : Type} {x : Except Error α} {f : α → Except Error β}
    (hx : NeverRefuses x) (hf : ∀ a, NeverRefuses (f a)) : NeverRefuses (x >>= f) := by
  intro e he
  rcases Outcome.bind_eq_error.1 he with he | ⟨a, -, he⟩
  · exact hx e he
  · exact hf a e he

/-- An outcome that could only be a refusal, and is none, is a result. -/
theorem OnlyRefuses.exists_ok {α : Type} {r : Except Error α} (h : OnlyRefuses r)
    (hnever : NeverRefuses r) : ∃ a, r = .ok a := by
  cases r with
  | ok a => exact ⟨a, rfl⟩
  | error e =>
    have hrefuses := h e rfl
    rw [hnever e rfl] at hrefuses
    cases hrefuses

/-! ## Edits at offsets -/

theorem neverRefuses_offsetOf (text : Text) (p : Position) : NeverRefuses (offsetOf text p) := by
  unfold offsetOf
  split
  · exact neverRefuses_ok _
  · exact neverRefuses_error rfl

theorem neverRefuses_offsetsOf (text : Text) (span : Span) : NeverRefuses (offsetsOf text span) :=
  (neverRefuses_offsetOf text _).bind fun _ =>
    (neverRefuses_offsetOf text _).bind fun _ => neverRefuses_ok _

theorem neverRefuses_splice (text : Text) (start stop : Int) (replacement : Text) :
    NeverRefuses (splice text start stop replacement) := by
  unfold splice
  split
  · exact neverRefuses_ok _
  · exact neverRefuses_error rfl

theorem neverRefuses_insertAt (text : Text) (offset : Nat) (addition : Text) :
    NeverRefuses (insertAt text offset addition) :=
  neverRefuses_splice text _ _ _

theorem neverRefuses_indentationBefore (text : Text) (span : Span) :
    NeverRefuses (indentationBefore text span) :=
  (neverRefuses_offsetOf text _).bind fun _ => neverRefuses_ok _

theorem neverRefuses_insertAbove (text : Text) (span : Span) (declaration : Text)
    (blankLine : Bool) : NeverRefuses (insertAbove text span declaration blankLine) := by
  apply (neverRefuses_offsetOf text _).bind
  intro start
  apply (neverRefuses_indentationBefore text span).bind
  intro indentation?
  cases indentation? with
  | none => exact neverRefuses_insertAt text _ _
  | some indentation => exact neverRefuses_insertAt text _ _

theorem neverRefuses_insertBelow (text : Text) (span : Span) (declaration : Text) :
    NeverRefuses (insertBelow text span declaration) := by
  apply (neverRefuses_offsetOf text _).bind
  intro stop
  apply (neverRefuses_indentationBefore text span).bind
  intro indentation?
  split
  · dsimp only
    split
    · exact neverRefuses_insertAt text _ _
    · exact neverRefuses_insertAt text _ _
  · exact neverRefuses_insertAt text _ _

theorem neverRefuses_braceFrom (text : Text) (offset : Nat) :
    NeverRefuses (braceFrom text offset) := by
  unfold braceFrom
  split
  · exact neverRefuses_ok _
  · exact neverRefuses_error rfl

theorem neverRefuses_fillEmptySet (text : Text) (binding : KeyValue) (declaration : Text) :
    NeverRefuses (fillEmptySet text binding declaration) := by
  apply (neverRefuses_offsetsOf text _).bind
  intro ends
  apply (neverRefuses_braceFrom text _).bind
  intro brace
  apply (neverRefuses_indentationBefore text _).bind
  intro indentation?
  split
  · split
    · exact neverRefuses_splice text _ _ _
    · exact neverRefuses_insertAt text _ _
  · split
    · exact neverRefuses_splice text _ _ _
    · exact neverRefuses_insertAt text _ _

theorem neverRefuses_put (place : Placing) (text declaration : Text) :
    NeverRefuses (place.put text declaration) := by
  cases place with
  | above start blankLine => exact neverRefuses_insertAbove text _ _ _
  | below span => exact neverRefuses_insertBelow text _ _
  | inside binding => exact neverRefuses_fillEmptySet text _ _

/-- A url is replaced without regard to its form. -/
theorem neverRefuses_replaceValue {value : Expr} (h : IsUrl value) (url text : Text) :
    NeverRefuses (replaceValue value url text) := by
  have hreplace : ∀ span replacement, NeverRefuses (replaceValue.replace text span replacement) :=
    fun span replacement => (neverRefuses_offsetsOf text span).bind fun _ =>
      neverRefuses_splice text _ _ _
  rcases h with ⟨t, hnode⟩ | ⟨span, t, hnode⟩
  · simp only [replaceValue, hnode]
    exact hreplace _ _
  · simp only [replaceValue, hnode]
    exact hreplace _ _

/-! ## The outputs -/

/-- A function that can take one more parameter: it takes its argument whole, or the list that takes
it apart is not empty. -/
def TakesInputs (e : Expr) : Prop :=
  (∃ span name body, e.node = .function (.simple span name) body) ∨
    ∃ list body, e.node = .function (.destructured list) body ∧
      (list.parameters ≠ [] ∨ list.ellipsis = true)

theorem neverRefuses_insertParameter {list : ParameterList}
    (h : list.parameters ≠ [] ∨ list.ellipsis = true) (name text : Text) :
    NeverRefuses (insertParameter list name text).result := by
  rw [insertParameter, Logged.result_bind, Outcome.result_monadLift]
  apply (neverRefuses_offsetsOf text _).bind
  intro ends
  rw [Logged.result_bind, Outcome.result_monadLift]
  apply NeverRefuses.bind
  · unfold scanFormals
    split
    · exact neverRefuses_ok _
    · exact neverRefuses_error rfl
  intro formals
  cases hlast : list.parameters.getLast? with
  | some last =>
    dsimp only
    unfold appendParameter
    split
    · exact neverRefuses_error rfl
    · rw [Logged.result_bind]
      apply (neverRefuses_ok ()).bind
      intro _
      exact neverRefuses_insertAt text _ _
  | none =>
    have hellipsis : list.ellipsis = true :=
      h.resolve_left fun hne => hne (List.getLast?_eq_none_iff.1 hlast)
    dsimp only
    rw [if_pos hellipsis]
    unfold prependParameter
    split
    · exact neverRefuses_error rfl
    · rw [Logged.result_bind]
      apply (neverRefuses_ok ()).bind
      intro _
      exact neverRefuses_insertAt text _ _

theorem neverRefuses_threadOutputs {o : KeyValue} (h : TakesInputs o.value) (name text : Text) :
    NeverRefuses (threadOutputs o name text).result := by
  rcases h with ⟨span, parameter, body, hnode⟩ | ⟨list, body, hnode, hlist⟩
  · simp only [threadOutputs, hnode, Logged.result_pure]
    exact neverRefuses_ok _
  · simp only [threadOutputs, hnode]
    cases haccepts : accepts list name with
    | true =>
      rw [result_addParameter haccepts]
      exact neverRefuses_insertParameter hlist name text
    | false =>
      rw [result_addParameter_of_not haccepts]
      exact neverRefuses_ok _

/-! ## Plain manifests -/

section
variable {text : Text} {T : Expr} {cs : List KeyValue} {recursive : Bool} {o : KeyValue}

theorem neverRefuses_insertInput (hnode : T.node = .map (cs.map .keyValue) recursive)
    (hsets : Manifest.AreSets cs) (houtputs : T.findFirst (some [outputsName]) = .ok (some o))
    (htakes : TakesInputs o.value) (name url text : Text) (location? : Option Location) :
    NeverRefuses (insertInput T name url text location?).result := by
  rcases exists_anchor hnode hsets location? with ⟨-, hanchor⟩ | ⟨b, nested, hanchor, hanchored⟩
  · rw [result_insertInput_missingInputs hanchor houtputs]
    exact (neverRefuses_threadOutputs htakes name text).bind fun mid => neverRefuses_put _ mid _
  · obtain ⟨place, qualified, -, hplacing, -⟩ := exists_slot hnode hsets hanchor hanchored
    have hdeclare : ∀ text,
        NeverRefuses (declareInput b (location?.getD .bottom) nested name url text).result := by
      intro text
      rw [result_declareInput, hplacing, Outcome.ok_bind]
      exact neverRefuses_put place text _
    rw [result_insertInput_beside hanchor houtputs]
    split
    · exact (neverRefuses_threadOutputs htakes name text).bind hdeclare
    · exact (hdeclare text).bind fun mid => neverRefuses_threadOutputs htakes name mid

/-- Every input can be added to a plain manifest whose outputs take one more parameter. -/
theorem exists_addInput (hparse : Expr.parse text = .ok T)
    (hnode : T.node = .map (cs.map .keyValue) recursive) (hplain : ∀ c ∈ cs, IsPlain c)
    (houtputs : T.findFirst (some [outputsName]) = .ok (some o)) (htakes : TakesInputs o.value)
    (name url : Text) (location? : Option Location) :
    ∃ out, (addInput text name url location?).result = .ok out := by
  rw [result_addInput hparse]
  obtain ⟨b?, hfind, hurl⟩ := Manifest.answers_findFirst hnode hplain name
  cases b? with
  | some b =>
    rw [result_upsertInput_of_some hfind]
    apply (onlyRefuses_replaceValue hparse hfind url).1.exists_ok
    exact neverRefuses_replaceValue (hurl b rfl) url text
  | none =>
    rw [result_upsertInput_of_none hfind]
    apply (settles_insertInput hparse hfind location?).refuses.exists_ok
    exact neverRefuses_insertInput hnode (Manifest.areSets_of_isPlain hplain) houtputs htakes
      name url text location?

end

end Edit
end FlakeInputs
