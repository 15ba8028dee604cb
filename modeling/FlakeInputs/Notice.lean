import FlakeInputs.Error

/-!
# Notices

What the program has to say about its work while it goes on, besides its result.
Each notice has a level, and the command line shows those that are serious
enough.
-/

namespace FlakeInputs

/-- Where a new input goes among those that are declared. -/
inductive Location
  | top
  | bottom
deriving DecidableEq, Repr

/-- How a location is written. -/
def Location.name : Location → String
  | top => "top"
  | bottom => "bottom"

/-- How the location that is asked for is written, or that none is. -/
def Location.wish (location? : Option Location) : String :=
  location?.elim "[]" Location.name

/-- The levels of notices, the least serious first. -/
inductive Severity
  | debug
  | info
  | warning
deriving DecidableEq, Repr

/-- How a level is written. -/
def Severity.name : Severity → String
  | debug => "DEBUG"
  | info => "INFO"
  | warning => "WARNING"

/-- What has to be done to declare a new input, by what the manifest has. -/
inductive Task
  | hasInputs
  | hasOutputs
  | missingInputs
  | missingOutputs
  | missingBoth
deriving DecidableEq, Repr

/-- How a task is written. -/
def Task.name : Task → String
  | hasInputs => "HasInputs"
  | hasOutputs => "HasOutputs"
  | missingInputs => "MissingInputs"
  | missingOutputs => "MissingOutputs"
  | missingBoth => "MissingBoth"

/-- What there is to say. -/
inductive Notice
  | skippedBinding (span : Span)
  | urlFound (path : List Text) (span : Span)
  | urlMissing (path : List Text) (location? : Option Location)
  | urlReplaced (name : Text)
  | working (task : Task)
  | inserting (name : Text) (location : Location) (anchor : Span)
  | parameterListed (name : Text)
  | parameterIsWhole (name : Text)
  | parameterInvalid (name : Text)
  | parameterAddedAfter (name last : Text)
  | parameterAddedFirst (name : Text)
  | fileMissing (path : Text)
  | fileBlank (path : Text)
  | fileWithoutAttributes (path : Text)
  | inputInferred (name url : Text)
  | fileWritten (path : Text)
deriving DecidableEq, Repr

namespace Notice

/-- How serious a notice is. -/
def severity : Notice → Severity
  | parameterListed _ | parameterIsWhole _ | parameterInvalid _ => .warning
  | fileMissing _ | fileBlank _ | fileWithoutAttributes _ | inputInferred _ _ | fileWritten _ =>
    .info
  | _ => .debug

/-- The part of the program that a notice comes from. -/
def origin : Notice → String
  | skippedBinding _ => "flakepatch.attrpath"
  | urlFound _ _ | urlMissing _ _ | urlReplaced _ => "flakepatch.upsert"
  | working _ | inserting _ _ _ => "flakepatch.insertion"
  | parameterListed _ | parameterIsWhole _ | parameterInvalid _ | parameterAddedAfter _ _
  | parameterAddedFirst _ => "flakepatch.outputs"
  | fileMissing _ | fileBlank _ | fileWithoutAttributes _ => "flakepatch.api"
  | inputInferred _ _ | fileWritten _ => "flakepatch.cli"

/-- An attribute path with dots between its segments. -/
def dotted (path : List Text) : String :=
  String.intercalate "." (path.map Text.display)

/-- What is said, about a text that comes from the given file. -/
def text (file : String) : Notice → String
  | skippedBinding span => "skipping non-input binding at " ++ span.format file
  | urlFound path span => "found " ++ dotted path ++ " at " ++ span.format file
  | urlMissing path location? =>
    dotted path ++ " not found, inserting it (" ++ Location.wish location? ++ ")"
  | urlReplaced name => "rewriting the url of input " ++ name.display
  | working task => "processing " ++ task.name
  | inserting name location anchor =>
    let side := match location with
      | .top => " above"
      | .bottom => " below"
    "inserting " ++ name.display ++ side ++ " the binding at " ++ anchor.format file
  | parameterListed name =>
    "input " ++ name.display ++
      " was already in the `outputs` function args, not adding it again"
  | parameterIsWhole name =>
    "input " ++ name.display ++ " is already reachable through the `@ " ++ name.display ++
      "` binding, not adding it to the outputs args"
  | parameterInvalid name =>
    "input " ++ name.display ++
      " is not a valid parameter name, reach it through the `@` binding instead"
  | parameterAddedAfter name last =>
    "adding " ++ name.display ++ " after `" ++ last.display ++ "` in the outputs arguments"
  | parameterAddedFirst name =>
    "adding " ++ name.display ++ " before `...` in the outputs arguments"
  | fileMissing path => path.display ++ " does not exist, starting from an empty flake"
  | fileBlank path => path.display ++ " is empty, starting from an empty flake"
  | fileWithoutAttributes path =>
    path.display ++ " has no attributes, starting from an empty flake"
  | inputInferred name url => "adding input " ++ name.display ++ " = " ++ url.display
  | fileWritten path => "wrote " ++ path.display

/-- A notice as a line of the log. -/
def line (file : String) (n : Notice) : String :=
  n.severity.name ++ " " ++ n.origin ++ ": " ++ n.text file

end Notice
end FlakeInputs
