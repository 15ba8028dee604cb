import FlakeInputs.Command.Invocation
import FlakeInputs.Command.Listing
import FlakeInputs.Command.Verbosity
import FlakeInputs.Edit.Upsert
import FlakeInputs.Files.Store
import FlakeInputs.Manifest.Load
import FlakeInputs.Reference.Infer

/-!
# Running the program

What a command line does to a store of files, and what it shows.  Only the last step
of adding an input changes the store.
-/

namespace FlakeInputs
namespace Command

/-- What a job comes to before anything is written: the text to show, and the path
and the text to write if there are any. -/
structure Report where
  output : Text
  write? : Option (Files.Path × Text)

/-- The path of the file that a job is about, which has to be named. -/
def requirePath : Option Files.Path → Except Error Files.Path
  | some path => .ok path
  | none => .error .pathMissing

/-- Does a job on a manifest, up to writing.  The manifest is read at the path with its
tilde expanded, and written at the path as it is. -/
def Job.perform (job : Job) (around : Surroundings) (read : Files.Path → Manifest.Content)
    (path? : Option Files.Path) : Logged Report := do
  match job with
  | .add ref name? location? dryRun =>
    let input ← (Reference.infer Reference.defaultBase name? ref).mapError Error.badReference
    Logged.note (.inputInferred input.name input.url)
    let path ← requirePath path?
    let loaded ← Manifest.load around read path
    let text ← Edit.upsertInput loaded.tree input.name input.url loaded.text
      (Manifest.urlPath input.name) location?
    return if dryRun then ⟨text, none⟩ else ⟨[], some (path, text)⟩
  | .list json =>
    let path ← requirePath path?
    let loaded ← Manifest.load around read path
    let entries ← Manifest.listInputs loaded.tree
    return ⟨if json then jsonListing entries else plainListing entries, none⟩

/-- How a run ends: with an exit code and what it shows, with a stop that the command
line asks for, or with an error that breaks it off. -/
inductive Outcome
  | finished (code : Nat) (output : Text) (log : String)
  | stopped (stop : Stop)
  | broken (error : Error) (file : String)

/-- The lines of the log for the notices that are shown. -/
def logText (threshold : Threshold) (file : String) (notices : List Notice) : String :=
  String.join ((notices.filter threshold.shows).map fun n => n.line file ++ "\n")

/-- How a run ends, by the notices on the way and its result. -/
def outcome (threshold : Threshold) (file : String) (work : Logged Text) : Outcome :=
  let log := logText threshold file work.notices
  match work.result with
  | .ok output => .finished 0 output log
  | .error e =>
    if e.isReported then .finished 1 [] (log ++ "error: " ++ e.message file ++ "\n")
    else .broken e file

/-- Writes a text to a file.  A file that is opened to be written is empty, and stays so
if there are no bytes for the text. -/
def write (around : Surroundings) (files : Files) (path : Files.Path) (text : Text) :
    Except Error Unit × Files :=
  match files.placeToWrite around path with
  | .error problem => (.error (Manifest.fileError problem path), files)
  | .ok place =>
    match Manifest.encode around.standIns text with
    | .error e => (.error e, files.put place .empty)
    | .ok content => (.ok (), files.put place content)

/-- Writes what a report asks for.  The text to show is left. -/
def Report.commit (r : Report) (around : Surroundings) (files : Files) : Logged Text × Files :=
  match r.write? with
  | none => (pure r.output, files)
  | some (path, text) =>
    let (written, files) := write around files path text
    (do written; Logged.note (.fileWritten path.text); return r.output, files)

/-- The name of the file that an invocation is about, for messages. -/
def Invocation.file (invocation : Invocation) (around : Surroundings) : String :=
  (invocation.path?.bind fun path => (around.expand path).toOption).elim Error.memoryFile
    fun path => path.text.display

/-- Runs an invocation on a store. -/
def Invocation.run (invocation : Invocation) (around : Surroundings) (files : Files) :
    Outcome × Files :=
  let threshold := Threshold.choose invocation.verbosity around.log?
  let work := invocation.job.perform around (files.read around) invocation.path?
  let (rest, after) : Logged Text × Files :=
    match work.result with
    | .ok report => report.commit around files
    | .error e => (.fail e, files)
  (outcome threshold (invocation.file around) ⟨work.notices ++ rest.notices, rest.result⟩, after)

/-- Runs a command line on a store. -/
def run (words : List Text) (around : Surroundings) (files : Files) : Outcome × Files :=
  match Invocation.ofWords words with
  | .error stop => (.stopped stop, files)
  | .ok invocation => invocation.run around files

end Command
end FlakeInputs
