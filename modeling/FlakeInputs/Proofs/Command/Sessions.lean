import FlakeInputs.Proofs.Command.Adding
import FlakeInputs.Proofs.Command.Options
import Mathlib.Data.List.Induction

/-!
# Sessions

A session is a sequence of calls of the program on one store of files.  A call that is an
addition and ends well writes one file, with what the same call shows as a dry run.  Any other
call leaves the store as it is, but for an addition whose text has a lone surrogate in it: there
are no bytes for the text, and the file is left empty.
-/

namespace FlakeInputs
namespace Command

/-- Whether a job is an addition that is to be written. -/
def Job.isWritten : Job → Bool
  | .add _ _ _ dryRun => !dryRun
  | .list _ => false

/-- A call of the program: its words, and what is around it. -/
structure Call where
  words : List Text
  around : Surroundings

namespace Call

/-- How a call ends, and the store behind it. -/
def run (c : Call) (files : Files) : Outcome × Files :=
  Command.run c.words c.around files

/-- Whether the call asks for an addition that is to be written. -/
def adds (c : Call) : Bool :=
  match Invocation.ofWords c.words with
  | .ok invocation => invocation.job.isWritten
  | .error _ => false

/-- Words with the option for a dry run put behind the command.  They ask for the same addition,
without writing. -/
def IsDryRun (words dry : List Text) : Prop :=
  ∃ before behind verbosity path? ref name? location?,
    words = before ++ "add".toList :: behind ∧
    dry = before ++ "add".toList :: "--dry-run".toList :: behind ∧
    Invocation.ofWords words = .ok ⟨verbosity, path?, .add ref name? location? false⟩ ∧
    Invocation.ofWords dry = .ok ⟨verbosity, path?, .add ref name? location? true⟩

/-- A call that is to write a text at the place of the manifest that it names, and that sets the
content of the file there, and of no other.  The text is what the same call shows as a dry run,
which ends well. -/
structure Sets (c : Call) (files : Files) (place : List Text) (text : Text)
    (content : ByteArray) : Prop where
  adds : c.adds = true
  named : ∃ verbosity path job, Invocation.ofWords c.words = .ok ⟨verbosity, some path, job⟩ ∧
    files.placeToWrite c.around path = .ok place
  dryRun : ∃ dry log, IsDryRun c.words dry ∧
    Command.run dry c.around files = (.finished 0 text log, files)
  content : Files.get? (c.run files).2 place = some (.file content)
  others : ∀ other, other ≠ place → Files.get? (c.run files).2 other = files.get? other

/-- A call that ends well and writes a text, in which there are no lone surrogates. -/
structure Writes (c : Call) (files : Files) (place : List Text) (text : Text) : Prop extends
    Sets c files place text (Manifest.utf8 text) where
  succeeds : (c.run files).1.succeeds = true
  plain : ∀ x ∈ text, c.around.standIns x = none

/-- A call that is broken off because there is a lone surrogate in the text to write.  It leaves the
file empty. -/
structure Empties (c : Call) (files : Files) (place : List Text) (text : Text) : Prop extends
    Sets c files place text .empty where
  breaks : ∃ problem file, (c.run files).1 = .broken (.unencodable problem) file
  surrogate : ∃ x ∈ text, (c.around.standIns x).isSome = true

end Call

/-! ## One call -/

section
variable {around : Surroundings} {files : Files}

/-- Only an addition that is no dry run asks for something to be written: the text that the dry run
shows, at the path of the manifest. -/
theorem write?_of_perform {job : Job} {read : Files.Path → Manifest.Content}
    {path? : Option Files.Path} {report : Report}
    (h : (job.perform around read path?).result = .ok report) :
    (job.isWritten = false ∧ report.write? = none) ∨ ∃ ref name? location? path text,
      job = .add ref name? location? false ∧ path? = some path ∧ report = ⟨[], some (path, text)⟩ ∧
      ((Job.add ref name? location? true).perform around read path?).result = .ok ⟨text, none⟩ := by
  cases job with
  | list json =>
    simp only [Job.perform, Logged.result_bind, FlakeInputs.Outcome.result_monadLift,
      FlakeInputs.Outcome.bind_eq_ok] at h
    obtain ⟨path, -, loaded, -, entries, -, hreport⟩ := h
    rw [← Except.ok.inj hreport]
    exact .inl ⟨rfl, rfl⟩
  | add ref name? location? dryRun =>
    simp only [Job.perform, Logged.result_bind, FlakeInputs.Outcome.result_monadLift,
      FlakeInputs.Outcome.bind_eq_ok] at h
    obtain ⟨input, hinput, u, hnote, path, hpath, loaded, hloaded, text, htext, hreport⟩ := h
    rw [← Except.ok.inj hreport]
    cases dryRun with
    | true => exact .inl ⟨rfl, rfl⟩
    | false =>
      cases path? with
      | none => cases hpath
      | some path' =>
        obtain rfl : path' = path := Except.ok.inj hpath
        refine .inr ⟨ref, name?, location?, path', text, rfl, rfl, rfl, ?_⟩
        simp only [Job.perform, Logged.result_bind, FlakeInputs.Outcome.result_monadLift,
          FlakeInputs.Outcome.bind_eq_ok]
        exact ⟨input, hinput, u, hnote, path', hpath, loaded, hloaded, text, htext, rfl⟩

/-- Work that asks for nothing to be written leaves the store as it is. -/
theorem run_of_write?_eq_none (invocation : Invocation) {report : Report}
    (h : (invocation.job.perform around (files.read around) invocation.path?).result = .ok report)
    (hnone : report.write? = none) :
    ∃ log, invocation.run around files = (.finished 0 report.output log, files) := by
  unfold Invocation.run
  dsimp only
  rw [h]
  simp only [Report.commit, hnone]
  exact ⟨_, rfl⟩

/-- Writing fails and leaves the store as it is, or it sets the content of one file: to the bytes of
the text, or to nothing if there is a lone surrogate in the text. -/
theorem write_cases (around : Surroundings) (files : Files) (path : Files.Path) (text : Text) :
    (∃ e, write around files path text = (.error e, files)) ∨
    ∃ place, files.placeToWrite around path = .ok place ∧
      ((∀ x ∈ text, around.standIns x = none) ∧
          write around files path text = (.ok (), files.put place (Manifest.utf8 text)) ∨
        (∃ x ∈ text, (around.standIns x).isSome = true) ∧
          ∃ problem, write around files path text =
            (.error (.unencodable problem), files.put place .empty)) := by
  unfold write
  cases files.placeToWrite around path with
  | error problem => exact .inl ⟨_, rfl⟩
  | ok place =>
    refine .inr ⟨place, rfl, ?_⟩
    dsimp only
    cases hencode : Manifest.encode around.standIns text with
    | ok content =>
      obtain ⟨hplain, rfl⟩ := Manifest.encode_eq_ok.1 hencode
      exact .inl ⟨hplain, rfl⟩
    | error e =>
      obtain ⟨⟨problem, rfl⟩, hsurrogate⟩ := Manifest.exists_of_encode_eq_error hencode
      exact .inr ⟨hsurrogate, problem, rfl⟩

/-- Nothing is reported as a success that ended with an error. -/
theorem succeeds_of_error {threshold : Threshold} {file : String} {work : Logged Text} {e : Error}
    (h : work.result = .error e) : (outcome threshold file work).succeeds = false := by
  rw [← Bool.not_eq_true]
  intro hsucceeds
  obtain ⟨output, houtput⟩ := exists_of_succeeds hsucceeds
  rw [h] at houtput
  cases houtput

/-- A run that writes ends as the writing does. -/
theorem exists_run_of_write? {invocation : Invocation} {report : Report} {path : Files.Path}
    {text : Text}
    (h : (invocation.job.perform around (files.read around) invocation.path?).result = .ok report)
    (hsome : report.write? = some (path, text)) :
    ∃ work : Logged Text, work.result = (do
        (write around files path text).1
        return report.output) ∧
      invocation.run around files = (outcome (Threshold.choose invocation.verbosity around.log?)
        (invocation.file around) work, (write around files path text).2) := by
  unfold Invocation.run
  dsimp only
  rw [h]
  simp only [Report.commit, hsome]
  refine ⟨_, ?_, rfl⟩
  simp only [Logged.result_bind, FlakeInputs.Outcome.result_monadLift, Logged.result_note]
  rfl

/-- The same addition as a dry run shows the text that is written. -/
theorem exists_dryRun {words : List Text} {verbosity : Nat} {path : Files.Path} {ref text : Text}
    {name? : Option Text} {location? : Option Location}
    (hwords : Invocation.ofWords words = .ok ⟨verbosity, some path, .add ref name? location? false⟩)
    (hdry : ((Job.add ref name? location? true).perform around (files.read around)
      (some path)).result = .ok ⟨text, none⟩) :
    ∃ dry log, Call.IsDryRun words dry ∧ run dry around files = (.finished 0 text log, files) := by
  obtain ⟨before, behind, hsplit, hdryWords⟩ := exists_dry hwords
  obtain ⟨log, hlog⟩ :=
    run_of_write?_eq_none ⟨verbosity, some path, .add ref name? location? true⟩ hdry rfl
  refine ⟨before ++ "add".toList :: dryRunWord :: behind, log, ?_, ?_⟩
  · exact ⟨before, behind, _, _, _, _, _, hsplit, rfl, hwords, hdryWords⟩
  · rw [run, hdryWords]
    exact hlog

/-- What a call does to the store: nothing, or it writes one file, or it leaves that file empty. -/
theorem Call.step (c : Call) (files : Files) :
    ((c.adds && (c.run files).1.succeeds) = false ∧ (c.run files).2 = files) ∨
    ∃ place text, c.Writes files place text ∨ c.Empties files place text := by
  cases hwords : Invocation.ofWords c.words with
  | error stop =>
    left
    have hkept : c.run files = (.stopped stop, files) := by
      simp only [Call.run, Command.run, hwords]
    rw [hkept]
    exact ⟨Bool.and_false _, rfl⟩
  | ok invocation =>
    have hrun : c.run files = invocation.run c.around files := by
      simp only [Call.run, Command.run, hwords]
    have hadds : c.adds = invocation.job.isWritten := by
      simp only [Call.adds, hwords]
    cases hperform : (invocation.job.perform c.around (files.read c.around)
        invocation.path?).result with
    | error e =>
      left
      have hfails : (c.run files).1.succeeds = false ∧ (c.run files).2 = files := by
        rw [hrun]
        unfold Invocation.run
        dsimp only
        rw [hperform]
        exact ⟨succeeds_of_error rfl, rfl⟩
      exact ⟨by rw [hfails.1, Bool.and_false], hfails.2⟩
    | ok report =>
      rcases write?_of_perform hperform with
        ⟨hjob, hnone⟩ | ⟨ref, name?, location?, path, text, hjob, hpath, rfl, hdry⟩
      · left
        obtain ⟨log, hlog⟩ := run_of_write?_eq_none _ hperform hnone
        rw [hadds, hjob, hrun, hlog]
        exact ⟨rfl, rfl⟩
      · obtain ⟨work, hwork, hrun'⟩ := exists_run_of_write? hperform rfl
        rw [← hrun] at hrun'
        obtain ⟨verbosity, path?, job⟩ := invocation
        obtain rfl : job = .add ref name? location? false := hjob
        obtain rfl : path? = some path := hpath
        have hsets {place : List Text} {content : ByteArray}
            (hplace : files.placeToWrite c.around path = .ok place)
            (hwrite : (write c.around files path text).2 = files.put place content) :
            c.Sets files place text content := by
          have hafter : (c.run files).2 = files.put place content := by rw [hrun', hwrite]
          refine ⟨hadds, ⟨verbosity, path, _, hwords, hplace⟩, exists_dryRun hwords hdry, ?_, ?_⟩
          · rw [hafter, Files.get?_put_self]
          · intro other hother
            rw [hafter, Files.get?_put_of_ne hother]
        rcases write_cases c.around files path text with
          ⟨e, hwrite⟩ | ⟨place, hplace, ⟨hplain, hwrite⟩ | ⟨hsurrogate, problem, hwrite⟩⟩
        · left
          rw [hwrite] at hwork hrun'
          rw [hrun', succeeds_of_error hwork]
          exact ⟨Bool.and_false _, rfl⟩
        · refine .inr ⟨place, text, .inl ⟨hsets hplace (by rw [hwrite]), ?_, hplain⟩⟩
          rw [hwrite] at hwork
          rw [hrun', outcome, hwork]
          rfl
        · refine .inr ⟨place, text, .inr ⟨hsets hplace (by rw [hwrite]), ?_, hsurrogate⟩⟩
          rw [hwrite] at hwork
          refine ⟨problem, Invocation.file ⟨verbosity, some path, .add ref name? location? false⟩
            c.around, ?_⟩
          rw [hrun', outcome, hwork]
          rfl

end

/-! ## Sequences of calls -/

/-- The store behind a session. -/
def filesAfter (files : Files) (calls : List Call) : Files :=
  calls.foldl (fun files c => (c.run files).2) files

theorem filesAfter_append (files : Files) (calls : List Call) (c : Call) :
    filesAfter files (calls ++ [c]) = (c.run (filesAfter files calls)).2 := by
  rw [filesAfter, List.foldl_append]
  rfl

/-- A file that is not as it was before a session was set by one of its calls. -/
theorem exists_sets_of_filesAfter (files : Files) (place : List Text) (calls : List Call) :
    Files.get? (filesAfter files calls) place = files.get? place ∨
    ∃ before c behind text, calls = before ++ c :: behind ∧
      (c.Writes (filesAfter files before) place text ∧
          Files.get? (filesAfter files calls) place = some (.file (Manifest.utf8 text)) ∨
        c.Empties (filesAfter files before) place text ∧
          Files.get? (filesAfter files calls) place = some (.file .empty)) := by
  induction calls using List.reverseRecOn with
  | nil => exact .inl rfl
  | append_singleton calls last ih =>
    -- The last call set the file at the place, or the place is as the calls before it left it.
    rw [filesAfter_append]
    have hkept : Files.get? (last.run (filesAfter files calls)).2 place =
          Files.get? (filesAfter files calls) place ∨
        ∃ text, last.Writes (filesAfter files calls) place text ∨
          last.Empties (filesAfter files calls) place text := by
      rcases last.step (filesAfter files calls) with ⟨-, hkept⟩ | ⟨other, text, hsets⟩
      · exact .inl (by rw [hkept])
      · by_cases hother : place = other
        · exact .inr ⟨text, hother ▸ hsets⟩
        · exact .inl (hsets.elim (fun h => h.others _ hother) fun h => h.others _ hother)
    rcases hkept with hkept | ⟨text, hwrites | hempties⟩
    · rw [hkept]
      rcases ih with hentry | ⟨before, c, behind, text, rfl, hsets⟩
      · exact .inl hentry
      · refine .inr ⟨before, c, behind ++ [last], text, ?_, hsets⟩
        rw [List.append_assoc, List.cons_append]
    · exact .inr ⟨calls, last, [], text, rfl, .inl ⟨hwrites, hwrites.content⟩⟩
    · exact .inr ⟨calls, last, [], text, rfl, .inr ⟨hempties, hempties.content⟩⟩

/-- A file is left empty by a reference that ends with a byte which is no text. -/
theorem run_add_empties :
    let around : Surroundings :=
      ⟨[], fun _ => none, none, fun x => if x = '\ue0ff' then some 0x4FF else none⟩
    let ran := run ["add".toList, "github:o/\ue0ff".toList] around
      ⟨[(["flake.nix".toList], .file (Manifest.utf8 "\x7b outputs = x: 1; \x7d".toList))]⟩
    ran.1.succeeds = false ∧ ran.2.read around (.ofText "flake.nix".toList) = .ok .empty := by
  refine ⟨by decide +kernel, ?_⟩
  exact FlakeInputs.Outcome.eq_ok_of_toOption (by decide +kernel)

end Command
end FlakeInputs
