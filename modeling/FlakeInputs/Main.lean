import FlakeInputs.Command.Run

/-!
# The command line

Reads the manifest that a command line is about, runs the command, and writes the
manifest back.
-/

open FlakeInputs

/-- The environment variable that says which notices are shown. -/
def logVariable : String := "FLAKEPATCH_LOG"

/-- The problem that an error of the operating system amounts to, if it is one that
is reported with the name of the file. -/
def fileProblem? : IO.Error → Option FileProblem
  | .noFileOrDirectory _ _ _ => some .missing
  | .inappropriateType _ _ _ => some .isDirectory
  | _ => none

/-- What is found when the file at a path is opened. -/
def openFile (path : Files.Path) : IO Manifest.Content := do
  try
    return .ok (← IO.FS.readBinFile path.text.display)
  catch e =>
    match fileProblem? e with
    | some problem => return .error problem
    | none => throw e

/-- What is around the program.  Its words have no lone surrogates in them, and the
operating system knows the working directory. -/
def surroundings : IO Surroundings := do
  let home? ← IO.getEnv "HOME"
  let log? ← IO.getEnv logVariable
  return {
    here := []
    homeOf? := fun user => if user.isEmpty then home?.map String.toList else none
    log? := log?.map String.toList
    standIns := fun _ => none }

/-- Writes what a report asks for. -/
def commitReport (r : Command.Report) : IO (Logged Text) := do
  match r.write? with
  | none => return pure r.output
  | some (path, text) =>
    try
      IO.FS.writeBinFile path.text.display (Manifest.utf8 text)
      return do
        Logged.note (.fileWritten path.text)
        return r.output
    catch e =>
      match fileProblem? e with
      | some problem => return .fail (Manifest.fileError problem path)
      | none => throw e

/-- Shows how a run ended, and gives the exit code. -/
def showOutcome (o : Command.Outcome) : IO UInt32 := do
  match o with
  | .finished code output log =>
    IO.print output.display
    IO.eprint log
    return code.toUInt32
  | .stopped .help =>
    IO.println "usage: flakepatch [-h] [-v] add [--flake-path PATH] [--input-name NAME]"
    IO.println "         [--insertion-location top|bottom] [--dry-run] INPUT_REF"
    IO.println "       flakepatch [-h] [-v] list [--flake-path PATH] [--json]"
    return 0
  | .stopped .usage =>
    IO.eprintln "usage: flakepatch [-h] [-v] add|list ..."
    return 2
  | .broken error file =>
    IO.eprintln (error.message file)
    return 1

/-- Runs a command line. -/
def main (words : List String) : IO UInt32 := do
  match Command.Invocation.ofWords (words.map String.toList) with
  | .error stop => showOutcome (.stopped stop)
  | .ok invocation =>
    let around ← surroundings
    let source? := invocation.path?.bind fun path => (around.expand path).toOption
    let content := (← source?.mapM openFile).getD (.error .missing)
    let work := invocation.job.perform around (fun _ => content) invocation.path?
    let rest ← match work.result with
      | .ok report => commitReport report
      | .error e => pure (.fail e)
    let threshold := Command.Threshold.choose invocation.verbosity around.log?
    let shown : Logged Text := ⟨work.notices ++ rest.notices, rest.result⟩
    showOutcome (Command.outcome threshold (invocation.file around) shown)
