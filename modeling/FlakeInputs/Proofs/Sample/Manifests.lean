import FlakeInputs.Proofs.Sample.Inputs

/-!
# What samples promise

Every sample is a plain manifest with an outputs function that can take one more parameter,
whatever is drawn.  So all of its inputs are listed with a url, and any input can be added to it.
-/

namespace FlakeInputs
namespace Sample

open Grammar Scan
open Draw (Yields yields_any yields_pure yields_choose yields_times yields_filterM)
open Edit (isIdentifier TakesInputs)
open Lookup (startsWith)
open Manifest (IsPlain inputsName outputsName)

/-! ## Parameters -/

/-- The parameters of a sample are parameters, whether the last one has a default or not. -/
theorem isParameter_withDefault {parameters : List Text}
    (h : ∀ t ∈ parameters, isIdentifier t = true) :
    ∀ t ∈ withDefault parameters, IsParameter t := by
  unfold withDefault
  split
  · next last first rest hreverse =>
    have hmem : ∀ t ∈ last :: first :: rest, isIdentifier t = true := by
      intro t ht
      rw [← hreverse, List.mem_reverse] at ht
      exact h t ht
    intro t ht
    rcases List.mem_append.1 ht with ht | ht
    · exact isParameter_name (hmem t (List.mem_cons_of_mem _ (List.mem_reverse.1 ht)))
    · rw [List.mem_singleton.1 ht]
      exact isParameter_default (hmem last List.mem_cons_self) (by decide)
  · exact fun t ht => isParameter_name (h t ht)

theorem withDefault_ne_nil {parameters : List Text} (h : parameters ≠ []) :
    withDefault parameters ≠ [] := by
  unfold withDefault
  split
  · simp
  · exact h

/-- A head of the outputs function, in front of any body. -/
def IsHead (head : Text) : Prop :=
  ∀ body r : Text, Spells .expr (fun _ => True) body r →
    Spells .expr TakesInputs (head ++ (' ' :: body)) r

theorem longest?_inputs (r : Text) :
    Word.longest? (inputsName ++ (": ".toList ++ r)) = some (.identifier, inputsName) :=
  rfl

theorem isHead_inputs : IsHead "inputs:".toList := by
  intro body r hbody
  have hname : isIdentifier inputsName = true := by decide
  apply (spells_simpleFunction hname (longest?_inputs _) hbody).imp
  exact fun e he => .inl he

theorem isHead_parameters {entries : Text}
    (hentries : ∀ r, Spells .entries HasParameter entries (' ' :: r)) (whole : Bool) :
    IsHead ("\x7b ".toList ++ entries ++ " \x7d".toList ++
      (if whole then " @ inputs".toList else []) ++ [':']) := by
  have hlist := fun r => spells_parameterList (hentries ('}' :: r))
  have himp : ∀ e, TakesApart e → TakesInputs e :=
    fun e ⟨list, body, hnode, hparameters⟩ => .inr ⟨list, body, hnode, .inl hparameters⟩
  intro body r hbody
  cases whole with
  | true =>
    have hname : isIdentifier inputsName = true := by decide
    have hfunction := (spells_aliasedFunction hlist hname (longest?_inputs _) hbody).imp himp
    simpa [inputsName] using hfunction
  | false =>
    have hfunction := (spells_listFunction hlist hbody).imp himp
    simpa using hfunction

/-- A key of its own is neither about the inputs nor about the outputs. -/
theorem isBeside_of_names {c : KeyValue} {key : Text} (hnames : c.names = [some key])
    (hinputs : key ≠ inputsName) (houtputs : key ≠ outputsName) : IsBeside c := by
  constructor
  · exact .apart (startsWith_of_ne hnames hinputs)
  · exact startsWith_of_ne hnames houtputs

section
variable {indent : Text} (hindent : ∀ c ∈ indent, isGap c = true)
include hindent

/-- The entries of a parameter list of a sample. -/
theorem spells_sampleEntries {parameters : List Text} {separator : Text} (hne : parameters ≠ [])
    (hparameters : ∀ t ∈ parameters, IsParameter t)
    (hseparator : separator ∈ [", ".toList, ",\n".toList ++ indent ++ indent]) (ellipsis : Bool)
    (r : Text) : Spells .entries HasParameter
      (separator.intercalate (if ellipsis then parameters ++ ["...".toList] else parameters))
      (' ' :: r) := by
  obtain ⟨blank, hblank, rfl⟩ :
      ∃ blank, (∀ c ∈ blank, isGap c = true) ∧ separator = ',' :: blank := by
    rcases List.mem_cons.1 hseparator with rfl | hseparator
    · exact ⟨[' '], isGap_space, rfl⟩
    · refine ⟨['\n'] ++ (indent ++ indent), ?_, ?_⟩
      · apply List.forall_mem_append.2 ⟨List.all_eq_true.1 (by decide), _⟩
        exact List.forall_mem_append.2 ⟨hindent, hindent⟩
      · rw [List.mem_singleton.1 hseparator, List.append_assoc]
        rfl
  obtain ⟨first, others, rfl⟩ := List.exists_cons_of_ne_nil hne
  have hfirst := hparameters first List.mem_cons_self
  have hothers := fun t ht => hparameters t (List.mem_cons_of_mem first ht)
  cases ellipsis with
  | true => exact spells_entries hblank hfirst hothers (.inr rfl) r
  | false =>
    have hentries := spells_entries hblank hfirst hothers (.inl rfl) r
    rwa [List.append_nil] at hentries

theorem yields_parameterHead {names : List Text} (hnames : ∀ n ∈ names, isIdentifier n = true) :
    (parameterHead indent names).Yields IsHead := by
  unfold parameterHead
  apply (yields_filterM _ names).bind
  intro taken htaken
  apply (yields_any _).bind
  intro default _
  apply (yields_any _).bind
  intro ellipsis _
  apply (yields_choose _).bind
  intro separator hseparator
  apply (yields_any _).bind
  intro whole _
  apply yields_pure
  have hself : ∀ t ∈ "self".toList :: taken, isIdentifier t = true := by
    intro t ht
    rcases List.mem_cons.1 ht with rfl | ht
    · decide
    · exact hnames t (htaken t ht)
  have hne : "self".toList :: taken ≠ [] := List.cons_ne_nil _ _
  have hparameters : (if default then withDefault ("self".toList :: taken)
        else "self".toList :: taken) ≠ [] ∧
      ∀ t ∈ (if default then withDefault ("self".toList :: taken)
        else "self".toList :: taken), IsParameter t := by
    cases default with
    | true => exact ⟨withDefault_ne_nil hne, isParameter_withDefault hself⟩
    | false => exact ⟨hne, fun t ht => isParameter_name (hself t ht)⟩
  exact isHead_parameters
    (spells_sampleEntries hindent hparameters.1 hparameters.2 hseparator ellipsis) whole

theorem yields_outputHead {names : List Text} (hnames : ∀ n ∈ names, isIdentifier n = true) :
    (outputHead indent names).Yields IsHead := by
  unfold outputHead
  apply (yields_any _).bind
  intro whole _
  split
  · exact yields_pure isHead_inputs
  · exact yields_parameterHead hindent hnames

/-! ## Lines -/

/-- The line with the outputs spells a function. -/
theorem yields_outputLines {names : List Text} (hnames : ∀ n ∈ names, isIdentifier n = true) :
    (outputLines indent names).Yields fun lines =>
      Binds (fun cs => ∃ o, cs = [o] ∧ o.names = [some outputsName] ∧ TakesInputs o.value)
        (written lines) := by
  have hempty : ∀ r, Spells .expr (fun _ => True) "\x7b \x7d".toList r :=
    fun r => ((binds_blanks isGap_space).set r).expr.imp fun _ _ => trivial
  have hpackages := binds_key hindent "packages".toList (by decide) (fun r => hempty (';' :: r)) 2
  have hfilled : ∀ r, Spells .expr (fun _ => True) ("\x7b\n".toList ++
      indented indent 2 "packages = \x7b \x7d;\n".toList ++ indented indent 1 "\x7d".toList) r := by
    intro r
    have hblock := (spells_block hindent hpackages 1 r).imp fun _ _ => trivial
    simpa [written, indented] using hblock
  unfold outputLines
  apply (yields_outputHead hindent hnames).bind
  intro head hhead
  apply (yields_choose _).bind
  intro body hbody
  have hspells : ∀ r, Spells .expr (fun _ => True) body r := by
    rcases List.mem_cons.1 hbody with rfl | hbody
    · exact hempty
    · rw [List.mem_singleton.1 hbody]
      exact hfilled
  apply yields_pure
  have hkey : "outputs = ".toList = outputsName ++ " = ".toList := by decide
  have htext : "outputs = ".toList ++ head ++ [' '] ++ body ++ [';'] =
      outputsName ++ (" = ".toList ++ ((head ++ (' ' :: body)) ++ [';'])) := by
    rw [hkey]
    simp only [List.append_assoc, List.cons_append, List.nil_append]
  rw [htext]
  exact binds_key hindent outputsName (by decide) (fun r => hhead body _ (hspells _)) 1

theorem yields_descriptionLines :
    (descriptionLines indent).Yields fun lines => BindsAll IsBeside (written lines) := by
  unfold descriptionLines
  apply (yields_any _).bind
  intro described _
  split
  · apply yields_name.bind
    intro drawn hdrawn
    apply yields_pure
    have hescape : Edit.escape (drawn ++ " flake".toList) = drawn ++ " flake".toList := by
      have hname := (isName_of_isIdentifier hdrawn).1
      have hnot : ∀ {c : Char}, Word.isIdentChar c = false → c ∉ " flake".toList →
          c ∉ drawn ++ " flake".toList :=
        fun hc hflake hmem => (List.mem_append.1 hmem).elim (hname.not_mem hc) hflake
      apply Edit.escape_eq_of_not_mem
      all_goals exact hnot (by decide) (by decide)
    have hvalue := fun r => (spells_string hescape (';' :: r)).expr
    have htext : "description = \"".toList ++ drawn ++ " flake\";".toList = "description".toList ++
        (" = ".toList ++ (('"' :: (drawn ++ " flake".toList ++ ['"'])) ++ [';'])) := by
      simp
    rw [written_cons, htext]
    have hkey := binds_key hindent "description".toList (by decide) hvalue 1
    have hbeside := bindsAll_one hkey fun c hc => isBeside_of_names hc.1 (by decide) (by decide)
    exact bindsAll_append hbeside bindsAll_blankLine
  · exact yields_pure bindsAll_nil

theorem yields_configLines :
    (configLines indent).Yields fun lines => BindsAll IsBeside (written lines) := by
  unfold configLines
  apply (yields_any _).bind
  intro configured _
  split
  · apply yields_name.bind
    intro drawn hdrawn
    apply yields_pure
    have huri : Word.IsUri ('h' :: ("ttps".toList ++ ':' :: ("//".toList ++ (drawn ++
        ".cachix.org".toList)))) := by
      apply Word.IsUri.intro (by decide) (List.all_eq_true.1 (by decide)) _ (by simp)
      rw [List.forall_mem_append, List.forall_mem_append]
      exact ⟨List.all_eq_true.1 (by decide), fun c hc => isUriChar_of_mem hdrawn hc,
        List.all_eq_true.1 (by decide)⟩
    have hvalue := fun r =>
      (spells_list (spells_string (Edit.escape_of_isUri huri)) (';' :: r)).expr
    have hkey := binds_key hindent "extra-substituters".toList (by decide) hvalue 2
    have hset := binds_set hindent "nixConfig".toList (by decide) hkey 1
    have htext : "extra-substituters = [ \"https://".toList ++ drawn ++
        ".cachix.org\" ];".toList = "extra-substituters".toList ++ (" = ".toList ++
          ("[ ".toList ++ (('"' :: ('h' :: ("ttps".toList ++ ':' :: ("//".toList ++ (drawn ++
            ".cachix.org".toList))) ++ ['"'])) ++ " ]".toList) ++ [';'])) := by
      simp
    rw [htext]
    have hbeside := bindsAll_one hset fun c hc => isBeside_of_names hc.1 (by decide) (by decide)
    have hlines := bindsAll_append hbeside bindsAll_blankLine
    rw [← written_append] at hlines
    exact hlines
  · exact yields_pure bindsAll_nil

end

/-! ## Samples -/

/-- The root of a sample: a plain set, with outputs that can take one more parameter. -/
def IsRoot (T : Expr) : Prop :=
  ∃ (cs : List KeyValue) (o : KeyValue), T.node = .map (cs.map .keyValue) false ∧
    (∀ c ∈ cs, IsPlain c) ∧ cs.find? (startsWith outputsName) = some o ∧ TakesInputs o.value

/-- Bindings beside the outputs, with the outputs behind them, are those of a sample. -/
theorem isRoot_of_outputs {T : Expr} {front : List KeyValue} {o : KeyValue}
    (hnode : T.node = .map ((front ++ [o]).map .keyValue) false) (hfront : ∀ c ∈ front, IsBeside c)
    (hnames : o.names = [some outputsName]) (htakes : TakesInputs o.value) : IsRoot T := by
  have houtputs : startsWith outputsName o = true := by
    rw [startsWith, hnames]
    rfl
  refine ⟨front ++ [o], o, hnode, ?_, ?_, htakes⟩
  · apply List.forall_mem_append.2 ⟨fun c hc => (hfront c hc).1, _⟩
    intro c hc
    rw [List.mem_singleton.1 hc]
    exact .apart (startsWith_of_ne hnames (by decide))
  · have hnone : front.find? (startsWith outputsName) = none := by
      apply List.find?_eq_none.2
      intro c hc
      rw [(hfront c hc).2]
      decide
    rw [List.find?_append, hnone, Option.none_or, List.find?_cons_of_pos houtputs]

/-- Every sample spells a manifest, whatever is drawn. -/
theorem yields_manifest : manifest.Yields fun text => Spells .expr IsRoot text [] := by
  have hindents : indents.all (·.all isGap) = true := by decide
  unfold manifest
  apply (yields_choose indents).bind
  intro indent hmem
  have hindent : ∀ c ∈ indent, isGap c = true :=
    List.all_eq_true.1 (List.all_eq_true.1 hindents indent hmem)
  apply (yields_any _).bind
  intro count _
  apply (yields_names count).bind
  intro names hnames
  apply (yields_descriptionLines hindent).bind
  intro description hdescription
  apply (yields_any _).bind
  intro shape _
  apply (yields_inputLines hindent hnames shape).bind
  intro inputs hinputs
  apply (yields_configLines hindent).bind
  intro config hconfig
  apply (yields_outputLines hindent hnames).bind
  intro outputs houtputs
  apply yields_pure
  have hgap : BindsAll IsBeside (written (if shape = .none then [] else [[]])) := by
    split
    · exact bindsAll_nil
    · exact bindsAll_blankLine
  have hfront :=
    bindsAll_append (bindsAll_append (bindsAll_append hdescription hinputs) hgap) hconfig
  have hall := hfront.append houtputs
  simp only [← written_append] at hall
  have hroot : Spells .expr IsRoot _ (['\n'] ++ []) :=
    (spells_block hindent hall 0 _).imp fun T ⟨_, hnode, front, _, heq, hfront, o, hone, ho⟩ => by
      rw [heq, hone] at hnode
      exact isRoot_of_outputs hnode hfront ho.1 ho.2
  have hsample := hroot.ahead (List.all_eq_true.1 (by decide))
  rw [intercalate_eq_written (List.append_ne_nil_of_right_ne_nil _ (List.cons_ne_nil _ _))]
  simpa [written] using hsample

/-- What a sample promises.  It is read as a set, its inputs are listed with different names and
with urls, its outputs are a function, and any input can be added to it. -/
structure Promise (text : Text) (T : Expr) : Prop where
  reads : Expr.parse text = .ok T
  isSet : ∃ bs, T.node = .map bs false
  lists : ∃ entries, (Manifest.listInputs T).result = .ok entries ∧ Manifest.AreListed entries
  outputs : ∃ o head body, T.findFirst (some [outputsName]) = .ok (some o) ∧
    o.value.node = .function head body
  adds : ∀ name url location?, ∃ out, (Edit.addInput text name url location?).result = .ok out

theorem exists_promise {text : Text} (h : Spells .expr IsRoot text []) : ∃ T, Promise text T := by
  obtain ⟨T, hparse, cs, o, hnode, hplain, hfind, htakes⟩ := h.exists_parse
  have houtputs : T.findFirst (some [outputsName]) = .ok (some o) := by
    rw [Lookup.findFirst_segment hnode, hfind]
  refine ⟨T, hparse, ⟨_, hnode⟩, Manifest.exists_listInputs hnode hplain, ?_, ?_⟩
  · rcases htakes with ⟨span, name, body, hvalue⟩ | ⟨list, body, hvalue, -⟩
    · exact ⟨o, _, body, houtputs, hvalue⟩
    · exact ⟨o, _, body, houtputs, hvalue⟩
  · exact Edit.exists_addInput hparse hnode hplain houtputs htakes

/-- All samples keep the promise, those for a seed and those from any other state of the
generator, however often a draw is tried. -/
theorem manifests_promise :
    (∀ attempts seed count texts, manifests attempts seed count = some texts →
      ∀ text ∈ texts, ∃ T, Promise text T) ∧
    ∀ attempts g count texts, ((Draw.times count manifest).run attempts).run' g = some texts →
      ∀ text ∈ texts, ∃ T, Promise text T := by
  have hrun : ∀ attempts g count texts,
      ((Draw.times count manifest).run attempts).run' g = some texts →
        ∀ text ∈ texts, ∃ T, Promise text T := by
    intro attempts g count texts h text htext
    obtain ⟨⟨_, g'⟩, hdrawn, rfl⟩ := Option.map_eq_some_iff.1 h
    exact exists_promise ((yields_times yields_manifest count).of_run hdrawn text htext)
  constructor
  · intro attempts seed count texts h
    exact hrun attempts (.ofSeed seed) count.toNat texts h
  · exact hrun

/-- From a generator with one word that is not zero comes a sample with one input. -/
theorem manifests_promise_one_input :
    ∃ T, Promise (written (["\x7b", "  description = \"a flake\";", "",
      "  inputs = \x7b", "    a.url = github:NixOS/a;",
      "    a.inputs.nixpkgs.follows = \"nixpkgs\";", "  \x7d;", "",
      "  nixConfig = \x7b", "    extra-substituters = [ \"https://a.cachix.org\" ];", "  \x7d;", "",
      "  outputs = inputs: \x7b \x7d;", "\x7d"].map String.toList)) T :=
  manifests_promise.2 1 ⟨(Vector.replicate 624 0).set 398 0x20000000, 0⟩ 1 _ (by decide +kernel) _
    (List.mem_singleton.2 rfl)

end Sample
end FlakeInputs
