import FlakeInputs.Proofs.Edit.Threading
import FlakeInputs.Proofs.Edit.Update
import FlakeInputs.Proofs.Outcome

/-!
# Threading a name into the outputs function

The outputs function of a manifest takes a new name as its last parameter if it can: the name
is an identifier that the function does not take yet.  Otherwise the text stays as it is, and
so it does when a name is threaded for a second time.
-/

namespace FlakeInputs

namespace Lookup

/-- A search for one attribute ends at the binding that it finds. -/
theorem found_segment {segment : Text} {x : Binding} {b : KeyValue}
    (h : found (some [segment]) x = .ok (some b)) :
    x = .keyValue b ∧ b.names.head? = some (some segment) := by
  cases x with
  | inherited span names source? => simp [found] at h
  | keyValue c =>
    simp only [found, compare] at h
    cases hnames : c.names with
    | nil => simp [hnames, comparePath] at h
    | cons name names =>
      by_cases hname : name = some segment
      · have hrest : compareRest names [] = .reached := by
          cases names <;> rfl
        simp only [hnames, comparePath, hname, if_true, hrest, Except.ok.injEq,
          Option.some.injEq] at h
        subst h
        rw [hnames, hname]
        exact ⟨rfl, rfl⟩
      · simp [hnames, comparePath, hname] at h

theorem compare_segment {names : List (Option Text)} {segment : Text}
    (h : names.head? = some (some segment)) : compare names (some [segment]) = .reached := by
  obtain ⟨rest, rfl⟩ := List.head?_eq_some_iff.1 h
  simp only [compare, comparePath, if_true]
  cases rest <;> rfl

/-- The first binding of an attribute stands among the bindings of the set itself. -/
theorem exists_split {e : Expr} {segment : Text} {b : KeyValue}
    (h : e.findFirst (some [segment]) = .ok (some b)) :
    ∃ before behind recursive, e.node = .map (before ++ Binding.keyValue b :: behind) recursive ∧
      (∀ x ∈ before, found (some [segment]) x = .ok none) ∧
      b.names.head? = some (some segment) := by
  obtain ⟨bs, recursive, hnode⟩ := exists_map_of_findFirst h
  rw [findFirst_map hnode] at h
  obtain ⟨before, x, behind, rfl, hbefore, hx⟩ := findSomeM?_eq_some.1 h
  obtain ⟨rfl, hhead⟩ := found_segment hx
  exact ⟨before, behind, recursive, hnode, hbefore, hhead⟩

theorem head?_names_of_findFirst {e : Expr} {segment : Text} {b : KeyValue}
    (h : e.findFirst (some [segment]) = .ok (some b)) : b.names.head? = some (some segment) := by
  obtain ⟨_, _, _, _, _, hnames⟩ := exists_split h
  exact hnames

end Lookup

namespace Edit

open Grammar Scan
open Lookup (Exchanges)

/-- Whether a function takes a name as a new parameter. -/
def accepts (list : ParameterList) (name : Text) : Bool :=
  isIdentifier name && !list.parameters.any (fun p => p.name = name) && list.whole? != some name

theorem isIdentifier_of_accepts {list : ParameterList} {name : Text}
    (h : accepts list name = true) : isIdentifier name = true := by
  simp only [accepts, Bool.and_eq_true] at h
  exact h.1.1

/-- Whether a list accepts a name depends on the names in it alone. -/
theorem accepts_of_names {list list' : ParameterList} {name : Text}
    (hwhole : list'.whole? = list.whole?)
    (hnames : list'.parameters.map Parameter.name = list.parameters.map Parameter.name) :
    accepts list' name = accepts list name := by
  have hany : ∀ ps : List Parameter,
      ps.any (fun p => p.name = name) = (ps.map Parameter.name).any (· = name) := by
    intro ps
    rw [List.any_map]
    rfl
  rw [accepts, accepts, hany, hany, hnames, hwhole]

theorem result_addParameter {list : ParameterList} {name : Text} (h : accepts list name = true)
    (text : Text) : addParameter list name text = insertParameter list name text := by
  simp only [accepts, Bool.and_eq_true, Bool.not_eq_true', bne_iff_ne] at h
  obtain ⟨⟨hidentifier, hlisted⟩, hwhole⟩ := h
  rw [addParameter, if_neg (by rw [hlisted]; exact Bool.false_ne_true), if_neg hwhole,
    if_pos hidentifier]

theorem result_addParameter_of_not {list : ParameterList} {name : Text}
    (h : accepts list name = false) (text : Text) :
    (addParameter list name text).result = .ok text := by
  by_cases hlisted : (list.parameters.any fun p => p.name = name) = true
  · rw [addParameter, if_pos hlisted]
    rfl
  by_cases hwhole : list.whole? = some name
  · rw [addParameter, if_neg hlisted, if_pos hwhole]
    rfl
  · have hidentifier : ¬isIdentifier name = true := by
      intro hidentifier
      simp [accepts, hidentifier, hlisted, hwhole] at h
    rw [addParameter, if_neg hlisted, if_neg hwhole, if_neg hidentifier]
    rfl

/-- A list that has taken a name does not take it again. -/
theorem accepts_with {list list' : ParameterList} {name : Text}
    (h : list'.shape = (ParameterList.with list name).shape) : accepts list' name = false := by
  obtain ⟨span, parameters, ellipsis, whole?⟩ := list
  obtain ⟨span', parameters', ellipsis', whole?'⟩ := list'
  simp only [ParameterList.with, ParameterList.shape, Parameter.shapes_eq_map,
    ParameterList.mk.injEq] at h
  have hmem : Parameter.shape ⟨.blank, name, none⟩ ∈ parameters'.map Parameter.shape := by
    rw [h.2.1]
    exact List.mem_map_of_mem (List.mem_append_right _ List.mem_cons_self)
  obtain ⟨⟨pspan, pname, default?⟩, hp, hshape⟩ := List.mem_map.1 hmem
  have hname : pname = name := by
    simp only [Parameter.shape, Parameter.mk.injEq] at hshape
    exact hshape.2.1
  have hany : parameters'.any (fun p => p.name = name) = true :=
    List.any_eq_true.2 ⟨_, hp, by simp [hname]⟩
  simp [accepts, hany]

theorem shape_function {e e' : Expr} {list list' : ParameterList} {body body' : Expr}
    (he' : e'.node = .function (.destructured list') body')
    (he : e.node = .function (.destructured list) body) (hlist : list'.shape = list.shape)
    (hbody : body'.shape = body.shape) : e'.shape = e.shape := by
  rw [Expr.eta e', Expr.eta e, he', he]
  simp only [Expr.shape, Node.shape, Head.shape, hlist, hbody]

/-- The outputs function of a manifest with one more name among its parameters. -/
def withParameter (o : KeyValue) (list : ParameterList) (name : Text) (body : Expr) : KeyValue :=
  { o with value := ⟨o.value.span, .function (.destructured (ParameterList.with list name)) body⟩ }

/-- A binding that has taken the place of the first one of an attribute is the first one. -/
theorem findFirst_of_path {T : Expr} {o o' : KeyValue} {before behind : List Binding}
    {recursive : Bool} {segment : Text}
    (hnode : T.node = .map (before ++ Binding.keyValue o' :: behind) recursive)
    (hbefore : ∀ x ∈ before, Lookup.found (some [segment]) x = .ok none)
    (hkey : o.names.head? = some (some segment))
    (hpath : o'.path.map Key.shape = o.path.map Key.shape) :
    T.findFirst (some [segment]) = .ok (some o') := by
  have hkey' : o'.names.head? = some (some segment) := by
    rw [KeyValue.names_eq_of_shape hpath, hkey]
  rw [Lookup.findFirst_map hnode, Lookup.findSomeM?_append_of_none hbefore]
  exact Lookup.findSomeM?_cons_of_some (Lookup.found_of_reached (Lookup.compare_segment hkey'))

/-- Threading a name gives the outputs function one more parameter if it accepts the name,
and changes nothing else but spans.  If the function does not accept the name, the text stays
as it is.  Either way the function does not take the name for a second time. -/
theorem addParameter_threads {text out name : Text} {T : Expr} {o : KeyValue}
    {list : ParameterList} {body : Expr} (hparse : Expr.parse text = .ok T)
    (ho : T.findFirst (some [Manifest.outputsName]) = .ok (some o))
    (hhead : o.value.node = .function (.destructured list) body)
    (hclean : accepts list name = true → endsInUri text list = false)
    (hout : (addParameter list name text).result = .ok out) :
    ∃ T' o' list' body', Expr.parse out = .ok T' ∧
      T'.findFirst (some [Manifest.outputsName]) = .ok (some o') ∧
      o'.value.node = .function (.destructured list') body' ∧
      (addParameter list' name out).result = .ok out ∧
      (accepts list name = true → list'.shape = (ParameterList.with list name).shape ∧
        ∃ T₁, Exchanges o (withParameter o list name body) [Manifest.outputsName] T T₁ ∧
          T'.shape = T₁.shape) ∧
      (accepts list name = false → out = text) := by
  cases haccepts : accepts list name with
  | false =>
    have hsame := result_addParameter_of_not haccepts text
    obtain rfl := Except.ok.inj (hout.symm.trans hsame)
    exact ⟨T, o, list, body, hparse, ho, hhead, hsame, by simp, fun _ => rfl⟩
  | true =>
    have hname := isIdentifier_of_accepts haccepts
    rw [result_addParameter haccepts] at hout
    obtain ⟨before, behind, recursive, hnode, hbefore, hkey⟩ := Lookup.exists_split ho
    obtain ⟨T', o', behind', list', body', hparse', hnode', hpath, hhead', hbody, hbehind, hlist,
      -⟩ := insertParameter_threads hparse hnode hhead hname hout
    have hlist := hlist (hclean haccepts)
    refine ⟨T', o', list', body', hparse', findFirst_of_path hnode' hbefore hkey hpath, hhead',
      result_addParameter_of_not (accepts_with hlist) out, fun _ => ⟨hlist, ?_⟩, by simp⟩
    · have hexchanges : Exchanges o (withParameter o list name body) [Manifest.outputsName] T
          ⟨T.span, .map (before ++ Binding.keyValue (withParameter o list name body) :: behind)
            recursive⟩ := by
        rw [Expr.eta T, hnode]
        exact .reached hbefore (Lookup.compare_segment hkey)
      refine ⟨_, hexchanges, ?_⟩
      have hvalue : o'.value.shape = (withParameter o list name body).value.shape :=
        shape_function hhead' rfl hlist hbody
      rw [Expr.eta T', hnode']
      simp [Expr.shape, Node.shape, Binding.shape,
        shape_keyValue (b := withParameter o list name body) hpath hvalue, hbehind]

/-- Whether a binding is that of a function whose parameter list passes a test. -/
def hasHead (test : ParameterList → Bool) (b : KeyValue) : Bool :=
  (Binding.head? (.keyValue b)).any test

theorem exists_of_hasHead {test : ParameterList → Bool} {b : KeyValue}
    (h : hasHead test b = true) :
    ∃ list body, b.value.node = .function (.destructured list) body ∧ test list = true := by
  obtain ⟨list, hlist, htest⟩ := (Option.any_eq_true _ _).1 h
  obtain ⟨_, body, hb, hnode⟩ := Binding.head?_eq_some hlist
  obtain rfl := Binding.keyValue.inj hb
  exact ⟨list, body, hnode, htest⟩

theorem addParameter_threads_default :
    ∃ text T o list body out T' o' list' body',
      text = "\x7b outputs = \x7b a ? [ x:y ], ... \x7d: a; \x7d".toList ∧
      Expr.parse text = .ok T ∧ T.findFirst (some [Manifest.outputsName]) = .ok (some o) ∧
      o.value.node = .function (.destructured list) body ∧ endsInUri text list = false ∧
      (addParameter list "b".toList text).result = .ok out ∧ Expr.parse out = .ok T' ∧
      T'.findFirst (some [Manifest.outputsName]) = .ok (some o') ∧
      o'.value.node = .function (.destructured list') body' ∧
      (addParameter list' "b".toList out).result = .ok out ∧
      list'.shape = (ParameterList.with list "b".toList).shape := by
  have hfinds : finds "\x7b outputs = \x7b a ? [ x:y ], ... \x7d: a; \x7d".toList
      [Manifest.outputsName] (hasHead fun list =>
        !endsInUri "\x7b outputs = \x7b a ? [ x:y ], ... \x7d: a; \x7d".toList list &&
          accepts list "b".toList &&
          (addParameter list "b".toList
            "\x7b outputs = \x7b a ? [ x:y ], ... \x7d: a; \x7d".toList).result.isOk) = true := by
    decide +kernel
  obtain ⟨T, o, hparse, ho, hhas⟩ := exists_of_finds hfinds
  obtain ⟨list, body, hhead, htest⟩ := exists_of_hasHead hhas
  simp only [Bool.and_eq_true, Bool.not_eq_true'] at htest
  obtain ⟨⟨hclean, haccepts⟩, hok⟩ := htest
  obtain ⟨out, hout⟩ := Outcome.exists_of_isOk hok
  obtain ⟨T', o', list', body', hparse', ho', hhead', hagain, hthreads, -⟩ :=
    addParameter_threads hparse ho hhead (fun _ => hclean) hout
  exact ⟨_, T, o, list, body, out, T', o', list', body', rfl, hparse, ho, hhead, hclean, hout,
    hparse', ho', hhead', hagain, (hthreads haccepts).1⟩

/-- Behind a url the comma is read as a part of the url, and the name as an argument of it: the
function that accepts the name takes the same names as before, and so it still accepts it. -/
theorem addParameter_keeps_names {text out name : Text} {T : Expr} {o : KeyValue}
    {list : ParameterList} {body : Expr} (hparse : Expr.parse text = .ok T)
    (ho : T.findFirst (some [Manifest.outputsName]) = .ok (some o))
    (hhead : o.value.node = .function (.destructured list) body)
    (haccepts : accepts list name = true) (huri : endsInUri text list = true)
    (hout : (addParameter list name text).result = .ok out) :
    ∃ T' o' list' body', Expr.parse out = .ok T' ∧
      T'.findFirst (some [Manifest.outputsName]) = .ok (some o') ∧
      o'.value.node = .function (.destructured list') body' ∧
      list'.parameters.map Parameter.name = list.parameters.map Parameter.name ∧
      accepts list' name = true := by
  rw [result_addParameter haccepts] at hout
  obtain ⟨before, behind, recursive, hnode, hbefore, hkey⟩ := Lookup.exists_split ho
  obtain ⟨T', o', behind', list', body', hparse', hnode', hpath, hhead', -, -, -, hkeeps⟩ :=
    insertParameter_threads hparse hnode hhead (isIdentifier_of_accepts haccepts) hout
  obtain ⟨hwhole, hnames⟩ := hkeeps huri
  refine ⟨T', o', list', body', hparse', findFirst_of_path hnode' hbefore hkey hpath,
    hhead', hnames, ?_⟩
  rw [accepts_of_names hwhole hnames, haccepts]

theorem addParameter_behind_uri :
    finds "\x7b outputs = \x7b a ? x:y \x7d: 1; \x7d".toList [Manifest.outputsName]
      (hasHead fun list => accepts list "b".toList &&
        (addParameter list "b".toList
            "\x7b outputs = \x7b a ? x:y \x7d: 1; \x7d".toList).result.toOption.any fun out =>
          finds out [Manifest.outputsName]
            (hasHead fun list' => list'.parameters.length == list.parameters.length)) = true := by
  decide +kernel

end Edit
end FlakeInputs
