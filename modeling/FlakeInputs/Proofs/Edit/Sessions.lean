import FlakeInputs.Proofs.Edit.NewInputs

/-!
# Adding inputs one after the other

Each addition writes one literal, in a place of the text that does not depend on the url, and
leaves the urls of all other inputs alone.  So when inputs have been added one after the other,
each of them has the url that it was given last, and the rest of the inputs are as they were.
-/

namespace FlakeInputs
namespace Edit

open Lookup (Exchanges found shapeOf)
open Manifest (inputsName outputsName urlName urlPath)

/-- An input to add, and where it is declared if it is new. -/
structure Addition where
  name : Text
  url : Text
  location? : Option Location

/-- The text with an input added. -/
def Addition.apply (s : Addition) (text : Text) : Except Error Text :=
  (addInput text s.name s.url s.location?).result

/-- The text with some inputs added one after the other. -/
def addInputs (text : Text) (steps : List Addition) : Except Error Text :=
  steps.foldlM (fun text s => s.apply text) text

/-- An input whose name is written without escapes and whose url can stand in any literal. -/
structure Addition.IsPlain (s : Addition) : Prop where
  quote : '"' ∉ s.name
  backslash : '\\' ∉ s.name
  interpolation : ¬['$', '{'] <:+: s.name
  url : '\x27' ∉ s.url

theorem Addition.IsPlain.writtenName_eq {s : Addition} (h : s.IsPlain) :
    writtenName s.name = s.name :=
  (writtenName_eq_escape s.name).trans (escape_eq_self h.quote h.backslash h.interpolation)

theorem addInputs_cons (text : Text) (s : Addition) (steps : List Addition) :
    addInputs text (s :: steps) = s.apply text >>= fun text' => addInputs text' steps :=
  List.foldlM_cons

theorem addInputs_append (text : Text) (steps steps' : List Addition) :
    addInputs text (steps ++ steps') =
      addInputs text steps >>= fun text' => addInputs text' steps' :=
  List.foldlM_append

/-! ## One addition -/

/-- What an addition does: it writes the url between `u` and `v`, in the way of a style, and the
search for the url finds the literal there. -/
structure Writes (text : Text) (T : Expr) (name url : Text) (location? : Option Location)
    (style : Style) (u v : Text) (T' : Expr) (b : KeyValue) : Prop where
  result : ∀ url, '\x27' ∉ url →
    (addInput text name url location?).result = .ok (u ++ (style.escape url ++ v))
  editable : Editable (u ++ (style.escape url ++ v)) T'
  finds : T'.findFirst (some (urlPath name)) = .ok (some b)
  value : b.value.node = style.node [.text ⟨Position.start.after u,
    (Position.start.after u).after (style.escape url)⟩ (style.escape url)]
  others : ∀ other, name ≠ other →
    shapeOf (T'.findFirst (some (urlPath other))) = shapeOf (T.findFirst (some (urlPath other)))

section
variable {text out name url : Text} {location? : Option Location} {T T' : Expr}

theorem parts_urlPath {name other : Text} (h : name ≠ other) :
    Lookup.Parts (urlPath name) (urlPath other) :=
  .later (.here h)

/-! ### Sets that stay as they are -/

theorem bindsEmptyRec_shape (b : KeyValue) : bindsEmptyRec b.shape = bindsEmptyRec b := by
  rw [Bool.eq_iff_iff, bindsEmptyRec_eq_true, bindsEmptyRec_eq_true, KeyValue.names_shape,
    KeyValue.value_shape]
  obtain ⟨span, path, ⟨span', node⟩⟩ := b
  refine and_congr_right fun _ => ?_
  cases node with
  | map bs recursive => simp [Expr.shape, Node.shape]
  | _ => simp [Expr.shape, Node.shape]

theorem NoEmptyRec.of_shape (h : NoEmptyRec T) (hshape : T'.shape = T.shape) : NoEmptyRec T' := by
  intro bs' recursive b hnode hb
  have hnode' := congrArg Expr.node hshape
  obtain ⟨span, node⟩ := T
  obtain ⟨span', node'⟩ := T'
  obtain rfl : node' = _ := hnode
  cases node with
  | map bs recursive' =>
    simp only [Expr.shape, Node.shape, Binding.shapes_eq_map, Node.map.injEq] at hnode'
    have hmem : (Binding.keyValue b).shape ∈ bs.map Binding.shape := by
      rw [← hnode'.1]
      exact List.mem_map_of_mem hb
    obtain ⟨x, hx, heq⟩ := List.mem_map.1 hmem
    cases x with
    | inherited span names source? => simp [Binding.shape] at heq
    | keyValue c =>
      have hc : c.shape = b.shape := Binding.keyValue.inj heq
      rw [← bindsEmptyRec_shape, ← hc, bindsEmptyRec_shape, h bs recursive' c rfl hx]
  | _ => simp [Expr.shape, Node.shape] at hnode'

theorem bindsEmptyRec_of_names {b : KeyValue} (h : b.names ≠ [some inputsName]) :
    bindsEmptyRec b = false :=
  Bool.eq_false_iff.2 fun htrue => h (bindsEmptyRec_eq_true.1 htrue).1

theorem bindsEmptyRec_of_mem {b : KeyValue} {x : Binding} {bs : List Binding} {recursive : Bool}
    (hnode : b.value.node = .map bs recursive) (hx : x ∈ bs) : bindsEmptyRec b = false := by
  refine Bool.eq_false_iff.2 fun htrue => ?_
  have hempty := (bindsEmptyRec_eq_true.1 htrue).2
  rw [hnode, Node.map.injEq] at hempty
  rw [hempty.1] at hx
  exact absurd hx List.not_mem_nil

/-- Exchanging a binding empties no set. -/
theorem NoEmptyRec.of_exchanges {b b' : KeyValue} {rest : List Text} (h : NoEmptyRec T)
    (hexchanges : Exchanges b b' (inputsName :: name :: rest) T T') (hnames : b'.names = b.names) :
    NoEmptyRec T' := by
  have hothers : ∀ {before behind : List Binding} {x y : KeyValue} {span : Span} {recursive : Bool},
      NoEmptyRec ⟨span, .map (before ++ Binding.keyValue x :: behind) recursive⟩ →
        bindsEmptyRec y = false →
        NoEmptyRec ⟨span, .map (before ++ Binding.keyValue y :: behind) recursive⟩ := by
    intro before behind x y span recursive hall hy bs' recursive' c hnode hc
    obtain ⟨rfl, rfl⟩ := Node.map.inj hnode
    simp only [List.mem_append, List.mem_cons, Binding.keyValue.injEq] at hc
    rcases hc with hc | rfl | hc
    · exact hall _ _ c rfl (by simp [hc])
    · exact hy
    · exact hall _ _ c rfl (by simp [hc])
  cases hexchanges with
  | reached _ hb =>
    refine hothers h (bindsEmptyRec_of_names fun heq => ?_)
    rw [← hnames, heq] at hb
    simp [Lookup.compare, Lookup.comparePath, Lookup.compareRest] at hb
  | within _ _ hvalue =>
    obtain ⟨cs, recursive, x, hnode, hx⟩ := hvalue.exists_mem
    exact hothers h (bindsEmptyRec_of_mem hnode hx)

/-- A declaration empties no set. -/
theorem NoEmptyRec.of_insertion {o o₁ : KeyValue} {spot spot' : Spot} {w : Writing}
    (hT : NoEmptyRec T) (h : Insertion text name location? T o o₁ spot spot' w) (url : Text)
    (span : Span) :
    NoEmptyRec ⟨span, spot'.node (spot'.hole.fill (declared name url w.qualified))⟩ := by
  have hsides : ∀ x ∈ spot'.left ++ spot'.right, ∀ b,
      x = .keyValue b → bindsEmptyRec b = false := by
    refine h.swaps.forall_mem ?_ ?_
    · intro b hb
      obtain rfl := Binding.keyValue.inj hb
      refine bindsEmptyRec_of_names fun heq => ?_
      have hhead := Lookup.head?_names_of_findFirst h.outputs
      rw [← h.turns.names, heq] at hhead
      exact absurd hhead (by decide)
    · rintro x hx b rfl
      refine hT _ _ b h.node_eq ?_
      simp only [List.mem_append] at hx ⊢
      exact hx.imp_right .inr
  intro bs recursive' b hnode hb
  obtain ⟨rfl, rfl⟩ := Node.map.inj hnode
  simp only [List.mem_append] at hb
  rcases hb with hb | hb | hb
  · exact hsides _ (List.mem_append_left _ hb) b rfl
  · have htakes := h.takes
    rw [h.swaps.hole_eq] at htakes
    cases hhole : spot'.hole with
    | between =>
      rw [hhole] at hb htakes
      obtain rfl := Binding.keyValue.inj (List.mem_singleton.1 hb)
      rw [show w.qualified = true from htakes]
      exact bindsEmptyRec_of_names (by simp [names_declared])
    | within c before behind recursive =>
      rw [hhole] at hb
      obtain rfl := Binding.keyValue.inj (List.mem_singleton.1 hb)
      exact bindsEmptyRec_of_mem rfl (List.mem_append_right _ List.mem_cons_self)
  · exact hsides _ (List.mem_append_right _ hb) b rfl

/-! ### Outputs that stay clean -/

/-- The outputs that a search finds are clean if they have only moved. -/
theorem Spares.isClean {path : List Text} (h : Spares path text out T T')
    (hpath : path.head? ≠ some outputsName)
    (hclean : ∀ o, T.findFirst (some [outputsName]) = .ok (some o) → IsClean text o) :
    ∀ o, T'.findFirst (some [outputsName]) = .ok (some o) → IsClean out o := by
  obtain ⟨ps, ps', hps, hps', bs, bs', hkin, hsearch⟩ := h
  obtain ⟨hold, hnew⟩ := hsearch outputsName [] hpath
  rw [hold] at hclean
  rw [hnew]
  intro o ho
  refine isClean_of_same (hkin.imp fun x x' hx => ?_) hclean ho
  have htokens : ∀ ts : List Token, ts = [] ++ (ts ++ []) := by simp
  exact same_of_kin hx hps (htokens _) hps' (htokens _)

/-! ### New inputs and old ones -/

/-- Adding a new input. -/
theorem exists_writes_new (h : Editable text T) (hname : writtenName name = name)
    (hnone : T.findFirst (some (urlPath name)) = .ok none)
    (hout : (addInput text name url location?).result = .ok out) :
    ∃ style u v T' b, Writes text T name url location? style u v T' b := by
  rw [result_addInput h.parses, result_upsertInput_of_none hnone] at hout
  obtain ⟨o, o₁, spot, spot', w, hinsertion⟩ :=
    exists_insertion h.parses hnone (braceIsToken_of_first hnone fun _ => h.first) hout
  obtain ⟨T', d, hinserted⟩ := hinsertion.inserted url
  have htext : ∀ url, w.text name url = (w.front ++ declarationHead name w.qualified) ++
      (Style.quoted.escape url ++ (['"', ';'] ++ w.back)) := by
    intro url
    simp [Writing.text, declaration_eq, Style.escape]
  have hshape := hinserted.shape_eq T.span
  refine ⟨.quoted, w.front ++ declarationHead name w.qualified, ['"', ';'] ++ w.back, T', d,
    ?_, ?_, ?_, ?_, ?_⟩
  · intro url _
    rw [result_addInput h.parses, result_upsertInput_of_none hnone, hinsertion.result, htext]
  · rw [← htext]
    exact ⟨hinserted.parses, (h.inputs.of_insertion hinsertion url T.span).of_shape hshape,
      hinserted.clean (h.outputs o hinsertion.outputs)⟩
  · exact hinsertion.finds hnone hname hinserted
  · exact hinserted.value
  · exact fun other hother => hinsertion.shapeOf_findFirst hinserted (by rwa [hname])

/-- What becomes of a manifest when the url of an input is replaced. -/
theorem Becomes.writes {b b' : KeyValue} {style : Style} {u v : Text} (h : Editable text T)
    (hbecomes : Becomes (urlPath name) T b T' b')
    (hspares : Spares (urlPath name) text (u ++ (style.escape url ++ v)) T T')
    (hparse : Expr.parse (u ++ (style.escape url ++ v)) = .ok T')
    (hvalue : b'.value.node = style.node [.text ⟨Position.start.after u,
      (Position.start.after u).after (style.escape url)⟩ (style.escape url)])
    (hresult : ∀ url, '\x27' ∉ url →
      (addInput text name url location?).result = .ok (u ++ (style.escape url ++ v))) :
    Writes text T name url location? style u v T' b' := by
  obtain ⟨T₁, hexchanges, hshape⟩ := hbecomes.exchanges
  have hnames := KeyValue.names_eq_of_shape hbecomes.keys
  have hpath : some inputsName ≠ some outputsName := by decide
  refine ⟨hresult, ⟨hparse, (h.inputs.of_exchanges hexchanges hnames).of_shape hshape,
    hspares.isClean hpath h.outputs⟩, hbecomes.finds, hvalue, fun other hother => ?_⟩
  rw [Lookup.findFirst_eq_of_shape hshape,
    hexchanges.findFirst_of_parts hnames (parts_urlPath hother)]

/-- Adding an input that is there already. -/
theorem exists_writes_old {b : KeyValue} (h : Editable text T) (hurl : '\x27' ∉ url)
    (hfind : T.findFirst (some (urlPath name)) = .ok (some b))
    (hout : (addInput text name url location?).result = .ok out) :
    ∃ style u v T' b', Writes text T name url location? style u v T' b' := by
  have hresult : ∀ url,
      (addInput text name url location?).result = replaceValue b.value url text := by
    intro url
    rw [result_addInput h.parses, result_upsertInput_of_some hfind]
  rw [hresult] at hout
  rcases exists_literal_of_replaceValue hout with ⟨x, hnode⟩ | ⟨style, span, x, hnode⟩
  · obtain ⟨p, q, rfl, hspan, hnew⟩ := exists_uri_site h.parses hfind hnode
    obtain ⟨T', b', hparse', hbecomes, hspares, hnode'⟩ := hnew url
    have htext : ∀ url, p ++ (stringLiteral url ++ q) =
        (p ++ ['"']) ++ (Style.quoted.escape url ++ (['"'] ++ q)) := by
      intro url
      simp [stringLiteral, Style.escape]
    rw [htext] at hparse' hspares
    refine ⟨.quoted, _, _, T', b', hbecomes.writes h hspares hparse' hnode' fun url _ => ?_⟩
    rw [hresult, ← htext, ← replace_append p x q (stringLiteral url), ← hspan]
    simp only [replaceValue, hnode]
  · obtain ⟨p, q, rfl, rfl, hnew⟩ := exists_literal_site h.parses hfind hnode
    obtain ⟨T', b', hparse', hbecomes, hspares, hnode'⟩ := hnew url fun _ => hurl
    refine ⟨style, p, q, T', b', hbecomes.writes h hspares hparse' hnode' fun url _ => ?_⟩
    rw [hresult, replaceValue_literal hnode, replace_append]

/-- An addition writes one literal. -/
theorem Addition.exists_writes {s : Addition} (hplain : s.IsPlain) (h : Editable text T)
    (hout : s.apply text = .ok out) :
    ∃ style u v T' b, out = u ++ (style.escape s.url ++ v) ∧
      Writes text T s.name s.url s.location? style u v T' b := by
  have hwrites : ∃ style u v T' b, Writes text T s.name s.url s.location? style u v T' b := by
    cases hfind : T.findFirst (some (urlPath s.name)) with
    | error error =>
      rw [Addition.apply, result_addInput h.parses, upsertInput, Logged.result_bind,
        Outcome.result_monadLift, hfind] at hout
      cases hout
    | ok b? =>
      cases b? with
      | none => exact exists_writes_new h hplain.writtenName_eq hfind hout
      | some b => exact exists_writes_old h hplain.url hfind hout
  obtain ⟨style, u, v, T', b, hwrites⟩ := hwrites
  refine ⟨style, u, v, T', b, ?_, hwrites⟩
  exact Except.ok.inj (hout.symm.trans (hwrites.result s.url hplain.url))

/-- Another addition of the same input writes in the same place. -/
theorem Writes.result_again {style : Style} {u v : Text} {b : KeyValue}
    (h : Writes text T name url location? style u v T' b) (url' : Text)
    (location?' : Option Location) :
    (addInput (u ++ (style.escape url ++ v)) name url' location?').result =
      .ok (u ++ (style.escape url' ++ v)) := by
  rw [result_addInput h.editable.parses, result_upsertInput_of_some h.finds,
    replaceValue_literal h.value, replace_append]

/-! ## Many additions -/

/-- A session leaves the inputs that it does not add as they were. -/
theorem exists_addInputs {steps : List Addition} (h : Editable text T)
    (hsteps : ∀ s ∈ steps, s.IsPlain) (hrun : addInputs text steps = .ok out) :
    ∃ T', Editable out T' ∧ ∀ other, (∀ s ∈ steps, s.name ≠ other) →
      shapeOf (T'.findFirst (some (urlPath other))) =
        shapeOf (T.findFirst (some (urlPath other))) := by
  induction steps generalizing text T with
  | nil =>
    obtain rfl := Except.ok.inj hrun
    exact ⟨T, h, fun _ _ => rfl⟩
  | cons s steps ih =>
    rw [addInputs_cons, Outcome.bind_eq_ok] at hrun
    obtain ⟨text₁, hstep, hrun⟩ := hrun
    obtain ⟨style, u, v, T₁, b, rfl, hwrites⟩ :=
      Addition.exists_writes (hsteps s List.mem_cons_self) h hstep
    obtain ⟨T', heditable, hothers⟩ :=
      ih hwrites.editable (fun s' hs' => hsteps s' (List.mem_cons_of_mem _ hs')) hrun
    refine ⟨T', heditable, fun other hother => ?_⟩
    rw [hothers other fun s' hs' => hother s' (List.mem_cons_of_mem _ hs'),
      hwrites.others other (hother s List.mem_cons_self)]

theorem Style.shape_node (style : Style) (span : Span) (x : Text) :
    (style.node [.text span x]).shape = style.node [.text .blank x] := by
  cases style <;> rfl

/-- The last url that an input is given stays: it is what a search finds when all inputs have
been added, and giving it once more changes nothing if no other input has been added since.
The other inputs are as they were.  After any session, adding an input twice is the same as
adding it once with the second url. -/
theorem addInputs_last_wins {steps : List Addition} (h : Editable text T)
    (hsteps : ∀ s ∈ steps, s.IsPlain) (hrun : addInputs text steps = .ok out) :
    ∃ T', Editable out T' ∧
      (∀ before s after, steps = before ++ s :: after → (∀ s' ∈ after, s'.name ≠ s.name) →
        (∃ b style, T'.findFirst (some (urlPath s.name)) = .ok (some b) ∧
          b.value.node.shape = Style.node style [.text .blank (style.escape s.url)]) ∧
        (after = [] → s.apply out = .ok out)) ∧
      (∀ other, (∀ s ∈ steps, s.name ≠ other) →
        shapeOf (T'.findFirst (some (urlPath other))) =
          shapeOf (T.findFirst (some (urlPath other)))) ∧
      ∀ s : Addition, s.IsPlain → ∀ text₁, s.apply out = .ok text₁ →
        ∀ url location?, '\x27' ∉ url →
          (addInput text₁ s.name url location?).result =
            (addInput out s.name url s.location?).result := by
  obtain ⟨T', heditable, hothers⟩ := exists_addInputs h hsteps hrun
  refine ⟨T', heditable, ?_, hothers, ?_⟩
  · rintro before s after rfl hafter
    rw [addInputs_append, Outcome.bind_eq_ok] at hrun
    obtain ⟨text₁, hbefore, hrun⟩ := hrun
    rw [addInputs_cons, Outcome.bind_eq_ok] at hrun
    obtain ⟨text₂, hstep, hrun⟩ := hrun
    obtain ⟨T₁, heditable₁, -⟩ :=
      exists_addInputs h (fun s' hs' => hsteps s' (List.mem_append_left _ hs')) hbefore
    obtain ⟨style, u, v, T₂, b, rfl, hwrites⟩ :=
      Addition.exists_writes (hsteps s (by simp)) heditable₁ hstep
    obtain ⟨T₃, heditable₃, hothers₃⟩ :=
      exists_addInputs hwrites.editable (fun s' hs' => hsteps s' (by simp [hs'])) hrun
    obtain rfl : T' = T₃ := Except.ok.inj (heditable.parses.symm.trans heditable₃.parses)
    constructor
    · have hkept := hothers₃ s.name hafter
      rw [hwrites.finds] at hkept
      obtain ⟨b', hfind, hshape⟩ := Lookup.exists_of_shapeOf_some hkept
      refine ⟨b', style, hfind, ?_⟩
      rw [KeyValue.shape_node_of_shape hshape, hwrites.value, Style.shape_node]
    · rintro rfl
      obtain rfl := Except.ok.inj hrun
      exact hwrites.result_again s.url s.location?
  · intro s hplain text₁ hstep url location? hurl
    obtain ⟨style, u, v, T₁, b, rfl, hwrites⟩ := Addition.exists_writes hplain heditable hstep
    rw [hwrites.result_again, hwrites.result url hurl]

theorem addInputs_last_wins_twice : ∃ text T out T' b style,
    text = "\x7b inputs.a.url = x:y; outputs = \x7b self \x7d: 1; \x7d".toList ∧ Editable text T ∧
    addInputs text [⟨"b".toList, "p".toList, none⟩, ⟨"a".toList, "q".toList, some .top⟩,
        ⟨"b".toList, "r".toList, some .bottom⟩] = .ok out ∧ Editable out T' ∧
    T'.findFirst (some (urlPath "b".toList)) = .ok (some b) ∧
    b.value.node.shape = Style.node style [.text .blank (style.escape "r".toList)] := by
  have heditable : (Expr.parse
      "\x7b inputs.a.url = x:y; outputs = \x7b self \x7d: 1; \x7d".toList).toOption.any
        (isEditable "\x7b inputs.a.url = x:y; outputs = \x7b self \x7d: 1; \x7d".toList) =
          true := by
    decide +kernel
  have hok : (addInputs "\x7b inputs.a.url = x:y; outputs = \x7b self \x7d: 1; \x7d".toList
      [⟨"b".toList, "p".toList, none⟩, ⟨"a".toList, "q".toList, some .top⟩,
        ⟨"b".toList, "r".toList, some .bottom⟩]).isOk = true := by
    decide +kernel
  obtain ⟨T, hparse, htest⟩ := Outcome.exists_of_any heditable
  obtain ⟨out, hout⟩ := Outcome.exists_of_isOk hok
  have h := editable_of_isEditable hparse htest
  have hplain :
      ∀ s ∈ [(⟨"b".toList, "p".toList, none⟩ : Addition), ⟨"a".toList, "q".toList, some .top⟩,
        ⟨"b".toList, "r".toList, some .bottom⟩], s.IsPlain := by
    simp only [List.forall_mem_cons]
    exact ⟨⟨by decide, by decide, by decide, by decide⟩,
      ⟨by decide, by decide, by decide, by decide⟩,
      ⟨by decide, by decide, by decide, by decide⟩, by simp⟩
  obtain ⟨T', heditable', hlast, -⟩ := addInputs_last_wins h hplain hout
  obtain ⟨⟨b, style, hfind, hnode⟩, -⟩ := hlast [_, _] _ [] rfl (by simp)
  exact ⟨_, T, out, T', b, style, rfl, h, hout, heditable', hfind, hnode⟩

end

end Edit
end FlakeInputs
