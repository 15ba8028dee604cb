import FlakeInputs.Notice
import FlakeInputs.Text.Blank

/-!
# Which notices are shown

The command line and the environment say how serious a notice has to be to be
shown.
-/

namespace FlakeInputs
namespace Command

/-- The least serious notices that are shown, if any are. -/
inductive Threshold
  | atLeast (severity : Severity)
  | silent
deriving DecidableEq, Repr

/-- The rank of a level. -/
def rank : Severity → Nat
  | .debug => 0
  | .info => 1
  | .warning => 2

/-- Whether a notice is shown. -/
def Threshold.shows (t : Threshold) (n : Notice) : Bool :=
  match t with
  | .atLeast severity => rank severity ≤ rank n.severity
  | .silent => false

/-- The names of thresholds. -/
def thresholds : List (String × Threshold) :=
  [("CRITICAL", .silent), ("FATAL", .silent), ("ERROR", .silent), ("WARN", .atLeast .warning),
   ("WARNING", .atLeast .warning), ("INFO", .atLeast .info), ("DEBUG", .atLeast .debug),
   ("NOTSET", .atLeast .debug)]

/-- The threshold that a text names; any text that names none stands for
warnings. -/
def Threshold.ofText (t : Text) : Threshold :=
  let word := t.strip.upper
  match thresholds.find? fun (name, _) => name.toList = word with
  | some (_, threshold) => threshold
  | none => .atLeast .warning

/-- The threshold for a number of `-v` options; without any, the environment
decides. -/
def Threshold.choose (verbosity : Nat) (environment? : Option Text) : Threshold :=
  match verbosity with
  | 0 => environment?.elim (.atLeast .warning) .ofText
  | 1 => .atLeast .info
  | _ => .atLeast .debug

end Command
end FlakeInputs
