import FlakeInputs.Command.Run
import FlakeInputs.Proofs.Edit.Results
import FlakeInputs.Proofs.Files.Store

/-!
# Adding an input to a file

A run that adds an input writes what adding the input to the text of the file gives.  The text
is the content of the file with its line ends unified, so a file without carriage returns keeps
every byte outside of what is edited.
-/

namespace FlakeInputs

/-! ## Bytes and texts -/

/-- Bytes are missing for nothing but a lone surrogate that is refused. -/
theorem StandIns.unencodable?_eq_none {standIns : StandIns} {refused : Surrogate → Bool}
    {offset : Nat} {t : Text} : standIns.unencodable? refused offset t = none ↔
      ∀ c ∈ t, (standIns c).filter refused = none := by
  induction t generalizing offset with
  | nil => simp [unencodable?]
  | cons c t ih =>
    rw [unencodable?, List.forall_mem_cons]
    cases hc : (standIns c).filter refused with
    | none => simp [ih]
    | some s => simp

namespace Manifest

theorem utf8_append (u v : Text) : utf8 (u ++ v) = utf8 u ++ utf8 v := by
  simp only [utf8, Text.display, String.toUTF8, String.ofList_append, String.toByteArray_append]

/-- The bytes of a text that was decoded are those that it was decoded from. -/
theorem utf8_toList {bytes : ByteArray} {s : String} (h : String.fromUTF8? bytes = some s) :
    utf8 s.toList = bytes := by
  unfold String.fromUTF8? at h
  split at h
  · obtain rfl := Option.some.inj h
    rw [utf8, Text.display, String.ofList_toList]
    rfl
  · cases h

/-- Decoding the bytes of a text gives the text back. -/
theorem fromUTF8?_utf8 (t : Text) : String.fromUTF8? (utf8 t) = some t.display := by
  unfold String.fromUTF8?
  rw [dif_pos (show (utf8 t).IsValidUTF8 from t.display.isValidUTF8)]
  rfl

/-- A text without lone surrogates is stored as its bytes. -/
theorem encode_eq_ok {standIns : StandIns} {text : Text} {content : ByteArray} :
    encode standIns text = .ok content ↔
      (∀ c ∈ text, standIns c = none) ∧ content = utf8 text := by
  have hplain : standIns.unencodable? (fun _ => true) 0 text = none ↔
      ∀ c ∈ text, standIns c = none := by
    have hall : ∀ c, (standIns c).filter (fun _ => true) = standIns c := by
      intro c
      cases standIns c <;> rfl
    simp only [StandIns.unencodable?_eq_none, hall]
  rw [← hplain]
  unfold encode
  cases standIns.unencodable? (fun _ => true) 0 text with
  | none => simp [eq_comm]
  | some problem => simp

/-- A text with a lone surrogate is not stored. -/
theorem exists_of_encode_eq_error {standIns : StandIns} {text : Text} {e : Error}
    (h : encode standIns text = .error e) :
    (∃ problem, e = .unencodable problem) ∧ ∃ c ∈ text, (standIns c).isSome = true := by
  constructor
  · unfold encode at h
    split at h
    · next problem _ => exact ⟨problem, (Except.error.inj h).symm⟩
    · cases h
  · by_contra hnone
    have hok : encode standIns text = .ok (utf8 text) := by
      refine encode_eq_ok.2 ⟨fun c hc => ?_, rfl⟩
      exact Option.not_isSome_iff_eq_none.1 fun hsome => hnone ⟨c, hc, hsome⟩
    rw [hok] at h
    cases h

theorem unifyLineEnds_eq_self {t : Text} (h : '\r' ∉ t) : unifyLineEnds t = t := by
  fun_induction unifyLineEnds t with
  | case1 => rfl
  | case2 t _ => simp at h
  | case3 t _ => simp at h
  | case4 c t _ _ ih => rw [ih fun ht => h (List.mem_cons_of_mem _ ht)]

/-- What is stored for the second text is what is stored for the first one, with something in
the place of the bytes of a stretch `x` behind a text `u`, which satisfy `p`. -/
def PatchedBytes (p : Text → Text → Prop) (bytes written : ByteArray) : Prop :=
  ∃ u x v y, bytes = utf8 u ++ (utf8 x ++ utf8 v) ∧ p u x ∧
    written = utf8 u ++ (utf8 y ++ utf8 v)

theorem patchedBytes_utf8 {p : Text → Text → Prop} {text out : Text}
    (h : Edit.Patched p text out) : PatchedBytes p (utf8 text) (utf8 out) := by
  obtain ⟨u, x, v, y, rfl, hp, rfl⟩ := h
  exact ⟨u, x, v, y, by rw [utf8_append, utf8_append], hp, by rw [utf8_append, utf8_append]⟩

/-- The text of a set is not blank. -/
theorem isBlank_of_parse {text : Text} {T : Expr} {bs : List Binding} {recursive : Bool}
    (hparse : Expr.parse text = .ok T) (hnode : T.node = .map bs recursive) :
    text.isBlank = false := by
  obtain ⟨all, l, opening, q, closing, r, hall, htokens, -, hbraces⟩ :=
    Edit.exists_tokens hparse hnode
  have hlexeme : opening.lexeme = ['{'] :=
    (Edit.hasBraces_locate hall opening (by simp [htokens])).1 hbraces.opening_kind
  obtain ⟨ps, qs, rfl, -⟩ := Token.locate_eq_append htokens
  have hmem : '{' ∈ text := by
    rw [← Scan.textOf_pieces hall]
    simp [hlexeme]
  rw [Text.isBlank, List.all_eq_false]
  exact ⟨'{', hmem, by decide⟩

/-- A manifest is loaded only from a path that the operating system can be given. -/
theorem checkName_of_load {around : Surroundings} {read : Files.Path → Content}
    {path source : Files.Path} {loaded : Loaded} (hpath : around.expand path = .ok source)
    (hload : (load around read path).result = .ok loaded) :
    around.checkName source.text = .ok () := by
  simp only [load, textOf, opened, Logged.result_bind, Outcome.result_monadLift, hpath,
    Outcome.ok_bind, Outcome.bind_eq_ok] at hload
  obtain ⟨text, ⟨found, ⟨⟨⟩, hcheck, -⟩, -⟩, -⟩ := hload
  exact hcheck

/-- A manifest that has bindings is loaded as it is. -/
theorem eq_of_load {around : Surroundings} {read : Files.Path → Content}
    {path source : Files.Path} {bytes : ByteArray} {s : String} {T : Expr} {bs : List Binding}
    {recursive : Bool} {loaded : Loaded} (hpath : around.expand path = .ok source)
    (hread : read source = .ok bytes) (hbytes : String.fromUTF8? bytes = some s)
    (hparse : Expr.parse (unifyLineEnds s.toList) = .ok T) (hnode : T.node = .map bs recursive)
    (hbs : bs ≠ []) (hload : (load around read path).result = .ok loaded) :
    loaded = ⟨unifyLineEnds s.toList, T⟩ := by
  have hcheck := checkName_of_load hpath hload
  have htext : (textOf around read source).result = .ok (unifyLineEnds s.toList) := by
    simp only [textOf, opened, Logged.result_bind, Outcome.result_monadLift, hcheck,
      Outcome.ok_bind, hread]
    change decode bytes = _
    rw [decode, hbytes]
  simp only [load, Logged.result_bind, Outcome.result_monadLift, hpath, htext, Outcome.ok_bind,
    textOrFallback, isBlank_of_parse hparse hnode, Bool.false_eq_true, if_false,
    Logged.result_pure, hparse, hnode] at hload
  split at hload
  · next heq => exact absurd (Node.map.inj heq).1 hbs
  · exact (Except.ok.inj hload).symm

end Manifest

/-! ## Running -/

/-- Surroundings with a working directory and a home directory. -/
def Surroundings.within (here : List Text) (home : Text) : Surroundings :=
  ⟨here, fun _ => some home, none, fun _ => none⟩

namespace Command

open Manifest (PatchedBytes)

/-- Whether a run ends with the exit code of success. -/
def Outcome.succeeds : Outcome → Bool
  | .finished 0 _ _ => true
  | _ => false

section
variable {words : List Text} {around : Surroundings} {files : Files} {verbosity : Nat}
  {path : Files.Path} {ref : Text} {name? : Option Text} {location? : Option Location}

theorem exists_of_succeeds {threshold : Threshold} {file : String} {work : Logged Text}
    (h : (outcome threshold file work).succeeds = true) : ∃ output, work.result = .ok output := by
  unfold outcome at h
  split at h
  · next output hresult => exact ⟨output, hresult⟩
  · split at h
    · cases h
    · cases h

/-- What an addition comes to before anything is written. -/
theorem exists_of_perform {read : Files.Path → Manifest.Content} {report : Report}
    (h : (Job.perform (.add ref name? location? false) around read (some path)).result =
      .ok report) :
    ∃ input loaded out, Reference.infer Reference.defaultBase name? ref = .ok input ∧
      (Manifest.load around read path).result = .ok loaded ∧
      (Edit.upsertInput loaded.tree input.name input.url loaded.text
        (Manifest.urlPath input.name) location?).result = .ok out ∧
      report = ⟨[], some (path, out)⟩ := by
  simp only [Job.perform, Logged.result_bind, Outcome.result_monadLift, Outcome.bind_eq_ok] at h
  obtain ⟨input, hinput, _, -, path', hpath, loaded, hloaded, out, hout, hreport⟩ := h
  obtain rfl : path = path' := Except.ok.inj hpath
  refine ⟨input, loaded, out, ?_, hloaded, hout, (Except.ok.inj hreport).symm⟩
  cases hinfer : Reference.infer Reference.defaultBase name? ref with
  | error problem =>
    rw [hinfer] at hinput
    cases hinput
  | ok input' =>
    rw [hinfer] at hinput
    rw [Except.ok.inj hinput]

/-- What writing has done if it ends well. -/
theorem exists_of_write {text : Text} (h : (write around files path text).1 = .ok ()) :
    ∃ place, files.placeToWrite around path = .ok place ∧
      (∀ c ∈ text, around.standIns c = none) ∧
      (write around files path text).2 = files.put place (Manifest.utf8 text) := by
  unfold write at h ⊢
  cases hplace : files.placeToWrite around path with
  | error problem =>
    rw [hplace] at h
    cases h
  | ok place =>
    rw [hplace] at h
    dsimp only at h ⊢
    cases hencode : Manifest.encode around.standIns text with
    | error e =>
      rw [hencode] at h
      cases h
    | ok content =>
      obtain ⟨hplain, rfl⟩ := Manifest.encode_eq_ok.1 hencode
      exact ⟨place, rfl, hplain, rfl⟩

/-- What a run that adds an input has done if it ends well. -/
theorem exists_of_run
    (hwords : Invocation.ofWords words = .ok ⟨verbosity, some path, .add ref name? location? false⟩)
    (hrun : (run words around files).1.succeeds = true) :
    ∃ input loaded out place, Reference.infer Reference.defaultBase name? ref = .ok input ∧
      (Manifest.load around (files.read around) path).result = .ok loaded ∧
      (Edit.upsertInput loaded.tree input.name input.url loaded.text
        (Manifest.urlPath input.name) location?).result = .ok out ∧
      files.placeToWrite around path = .ok place ∧
      (run words around files).2 = files.put place (Manifest.utf8 out) := by
  simp only [run, hwords, Invocation.run] at hrun ⊢
  obtain ⟨output, hwork⟩ := exists_of_succeeds hrun
  generalize hperform : (Job.perform (.add ref name? location? false) around (files.read around)
    (some path)).result = performed at hwork ⊢
  cases performed with
  | error e => cases hwork
  | ok report =>
    obtain ⟨input, loaded, out, hinput, hloaded, hout, rfl⟩ := exists_of_perform hperform
    dsimp only [Report.commit] at hwork ⊢
    rw [Logged.result_bind, Outcome.result_monadLift] at hwork
    obtain ⟨⟨⟩, hwritten, -⟩ := Outcome.bind_eq_ok.1 hwork
    obtain ⟨place, hplace, -, hafter⟩ := exists_of_write hwritten
    exact ⟨input, loaded, out, place, hinput, hloaded, hout, hplace, hafter⟩

/-- A file is written without the carriage returns that it had, which adding an input to its
text would keep. -/
theorem run_add_unifies_line_ends : ∃ text,
    text = "\x7b\r\n  inputs.a.url = \"X\";\r\n  outputs = x: 1;\r\n\x7d\r\n".toList ∧
    (run ["add".toList, "github:o/c".toList] (.within [] [])
        ⟨[(["flake.nix".toList], .file (Manifest.utf8 text))]⟩).2.read (.within [] [])
          (.ofText "flake.nix".toList) =
      .ok (Manifest.utf8 ("\x7b\n  inputs.c.url = \"github:o/c\";\n".toList ++
        "  inputs.a.url = \"X\";\n  outputs = x: 1;\n\x7d\n".toList)) ∧
    (Edit.addInput text "c".toList "github:o/c".toList (some .top)).result =
      .ok ("\x7b\r\n  inputs.c.url = \"github:o/c\";\r\n".toList ++
        "  inputs.a.url = \"X\";\r\n  outputs = x: 1;\r\n\x7d\r\n".toList) := by
  refine ⟨_, rfl, ?_, ?_⟩
  · exact FlakeInputs.Outcome.eq_ok_of_toOption (by decide +kernel)
  · exact FlakeInputs.Outcome.eq_ok_of_toOption (by decide +kernel)

/-- A file in the home directory that is named by a tilde is read there, and it is written below a
directory with the tilde as its name. -/
theorem run_add_reads_home : ∃ text,
    text = "\x7b inputs.a.url = \"X\"; outputs = x: 1; \x7d".toList ∧
    let after := (run ["add".toList, "--flake-path=~/flake.nix".toList, "github:o/c".toList]
      (.within ["work".toList] "/home".toList)
      ⟨[(["home".toList, "flake.nix".toList], .file (Manifest.utf8 text)),
        (["work".toList, "~".toList], .directory)]⟩).2
    after.read (.within ["work".toList] "/home".toList) (.ofText "/home/flake.nix".toList) =
      .ok (Manifest.utf8 text) ∧
    after.read (.within ["work".toList] "/home".toList) (.ofText "/work/~/flake.nix".toList) =
      .ok (Manifest.utf8 ("\x7b inputs.c.url = \"github:o/c\"; ".toList ++
        "inputs.a.url = \"X\"; outputs = x: 1; \x7d".toList)) := by
  refine ⟨_, rfl, ?_, ?_⟩
  · exact FlakeInputs.Outcome.eq_ok_of_toOption (by decide +kernel)
  · exact FlakeInputs.Outcome.eq_ok_of_toOption (by decide +kernel)

end

end Command
end FlakeInputs
