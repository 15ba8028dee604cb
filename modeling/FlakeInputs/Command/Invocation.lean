import FlakeInputs.Command.Options
import FlakeInputs.Edit.Location
import FlakeInputs.Files.Path

/-!
# Invocations

What a command line asks for: adding an input, or listing the inputs.
-/

namespace FlakeInputs
namespace Command

/-- What the options mean. -/
inductive Meaning
  | help
  | verbose
  | flakePath
  | inputName
  | insertionLocation
  | dryRun
  | json
deriving DecidableEq, Repr

/-- An option without a value. -/
def flag (name : String) (meaning : Meaning) : Switch Meaning :=
  ⟨name.toList, meaning, false⟩

/-- An option with a value. -/
def setting (name : String) (meaning : Meaning) : Switch Meaning :=
  ⟨name.toList, meaning, true⟩

/-- The options before the command. -/
def generalSwitches : List (Switch Meaning) :=
  [flag "-h" .help, flag "--help" .help, flag "-v" .verbose, flag "--verbose" .verbose]

/-- The options of the command that adds an input. -/
def addSwitches : List (Switch Meaning) :=
  [flag "-h" .help, flag "--help" .help, setting "--flake-path" .flakePath,
   setting "--input-name" .inputName, setting "--insertion-location" .insertionLocation,
   flag "--dry-run" .dryRun]

/-- The options of the command that lists the inputs. -/
def listSwitches : List (Switch Meaning) :=
  [flag "-h" .help, flag "--help" .help, setting "--flake-path" .flakePath, flag "--json" .json]

/-- The options that have been given.  A path, a name or a location is missing if
the option for it was given without a value. -/
structure Settings where
  verbosity : Nat
  path? : Option Text
  name? : Option Text
  location? : Option Location
  dryRun : Bool
  json : Bool

/-- The settings when no option is given. -/
def Settings.default : Settings :=
  ⟨0, some "./flake.nix".toList, none, some .top, false, false⟩

/-- The settings with one more option given.  Of an option that is given twice, the
last one counts. -/
def Settings.give (s : Settings) (given : Given Meaning) : Except Stop Settings :=
  match given.meaning with
  | .help => .error .help
  | .verbose => .ok { s with verbosity := s.verbosity + 1 }
  | .flakePath => .ok { s with path? := given.value? }
  | .inputName => .ok { s with name? := given.value? }
  | .insertionLocation =>
    match given.value?.mapM Location.ofText with
    | .ok location? => .ok { s with location? }
    | .error _ => .error .usage
  | .dryRun => .ok { s with dryRun := true }
  | .json => .ok { s with json := true }

/-- The work to do. -/
inductive Job
  | add (ref : Text) (name? : Option Text) (location? : Option Location) (dryRun : Bool)
  | list (json : Bool)
deriving DecidableEq, Repr

/-- What a command line asks for. -/
structure Invocation where
  verbosity : Nat
  path? : Option Files.Path
  job : Job
deriving DecidableEq, Repr

/-- Reads the words behind a command.  Words that are left over make no sense. -/
def commandSettings (switches : List (Switch Meaning)) (wantsOperand : Bool)
    (words : List Text) : Except Stop (Settings × Option Text) := do
  let readings ← readAll switches words
  let p ← arguments switches Settings.give wantsOperand ⟨.default, none, false⟩ readings
  if p.extra then throw .usage
  return (p.settings, p.operand?)

/-- The work that a command with the words behind it asks for, and the path of the
file that it is about. -/
def jobOf (command : Text) (words : List Text) : Except Stop (Job × Option Text) :=
  if command = "add".toList then do
    match (← commandSettings addSwitches true words) with
    | (s, some ref) => return (.add ref s.name? s.location? s.dryRun, s.path?)
    | (_, none) => throw .usage
  else if command = "list".toList then do
    let (s, _) ← commandSettings listSwitches false words
    return (.list s.json, s.path?)
  else .error .usage

/-- What a command line asks for. -/
def Invocation.ofWords (words : List Text) : Except Stop Invocation := do
  let readings ← readAll generalSwitches words
  match (← leading generalSwitches Settings.give ⟨.default, none, false⟩ readings) with
  | (_, []) => throw .usage
  | (p, command :: rest) =>
    let (job, path?) ← jobOf command.text (rest.map Argument.text)
    if p.extra then throw .usage
    return ⟨p.settings.verbosity, path?.map .ofText, job⟩

end Command
end FlakeInputs
