import FlakeInputs.Expr.Kind
import FlakeInputs.Reference.Basic
import FlakeInputs.SyntaxError
import FlakeInputs.Text.Surrogate

/-!
# Errors

Everything that can stop the reading, searching, editing or writing of a
manifest, and how it is put to the user.
-/

namespace FlakeInputs

/-- The attributes of a flake that are looked at by name. -/
inductive Role
  | inputs
  | outputs
deriving DecidableEq, Repr

/-- How messages name an attribute of a flake. -/
def Role.name : Role → String
  | inputs => "`inputs`"
  | outputs => "`outputs`"

/-- Why a file cannot be read or written. -/
inductive FileProblem
  | missing
  | parentNotDirectory
  | isDirectory
  | nameTooLong
deriving DecidableEq, Repr

/-- How a file problem is put to the user. -/
def FileProblem.message : FileProblem → String
  | missing => "[Errno 2] No such file or directory"
  | parentNotDirectory => "[Errno 20] Not a directory"
  | isDirectory => "[Errno 21] Is a directory"
  | nameTooLong => "[Errno 36] File name too long"

/-- The reasons to stop.  `malformedParameters` is a syntax error in a parameter
list that was read on its own, so its span is relative to that list. -/
inductive Error
  | malformed (error : SyntaxError)
  | malformedParameters (error : SyntaxError)
  | integerTooLong (digits : Nat)
  | inheritUnsupported (span : Span)
  | unsupportedExpression (role : Option Role) (kind : Kind) (span : Span)
  | unsupportedValue (kind : Kind) (span : Span)
  | interpolatedValue (span : Span)
  | missingOutputs
  | missingInputsAndOutputs
  | positionNotFound (position : Position)
  | emptyParameterList (span : Span)
  | parameterNotFound (name : Text) (span : Span)
  | invalidRange (start stop : Int) (length : Nat)
  | braceNotFound
  | unknownLocation (value : Text)
  | badReference (problem : Reference.Problem)
  | badFile (problem : FileProblem) (path : Text)
  | nulInPath
  | homeUnknown
  | pathMissing
  | undecodable
  | unencodable (problem : Unencodable)
deriving DecidableEq, Repr

namespace Error

/-- The name shown for a text that does not come from a file. -/
def memoryFile : String := "<memory>"

/-- The span that an error carries. -/
def span? : Error → Option Span
  | malformed e => some e.span
  | malformedParameters e => some e.span
  | inheritUnsupported span => some span
  | unsupportedExpression _ _ span => some span
  | unsupportedValue _ span => some span
  | interpolatedValue span => some span
  | emptyParameterList span => some span
  | parameterNotFound _ span => some span
  | _ => none

/-- Whether an error is the user's to mend, and so is reported.  The others break
off the program. -/
def isReported : Error → Bool
  | integerTooLong _ | invalidRange _ _ _ | braceNotFound | unknownLocation _ | nulInPath
  | homeUnknown | pathMissing | undecodable | unencodable _ => false
  | badReference problem => !problem.isUrlProblem
  | _ => true

/-- What is wrong, in a text that comes from the given file. -/
def message (file : String) : Error → String
  | malformed e => e.message file
  | malformedParameters e => e.message memoryFile
  | integerTooLong digits =>
    s!"Exceeds the limit (4300 digits) for integer string conversion: value has {digits} " ++
      "digits; use sys.set_int_max_str_digits() to increase the limit"
  | inheritUnsupported span => "`inherit` not supported (at " ++ span.format file ++ ")"
  | unsupportedExpression role kind span =>
    let what := role.elim "unsupported expression type" fun r =>
      "unsupported " ++ r.name ++ " expression type"
    what ++ " " ++ kind.name ++ " (at " ++ span.format file ++ ")"
  | unsupportedValue kind span =>
    "input url must be a string or a URI literal, found " ++ kind.name ++
      " (at " ++ span.format file ++ ")"
  | interpolatedValue span =>
    "input url contains an interpolation, only plain strings can be rewritten (at " ++
      span.format file ++ ")"
  | missingOutputs => "flake was missing an `outputs` attribute"
  | missingInputsAndOutputs => "flake was missing both the `inputs` and `outputs` attributes"
  | positionNotFound p => s!"could not find {p.line}:{p.column} in input"
  | emptyParameterList span =>
    "the `outputs` function doesn't take any arguments (at " ++ span.format file ++
      "); replace it with `outputs = \x7b ... \x7d:` and try again"
  | parameterNotFound name span =>
    "could not find `" ++ name.display ++ "` in the `outputs` function arguments (at " ++
      span.format file ++ "), but it existed when parsing it"
  | invalidRange start stop length =>
    s!"invalid splice range {start}..{stop} for text of length {length}"
  | braceNotFound => "substring not found"
  | unknownLocation value =>
    "invalid insertion location " ++ value.quoted ++ " (expected one of: top, bottom)"
  | badReference problem => problem.message
  | badFile problem path => problem.message ++ ": " ++ path.quoted
  | nulInPath => "embedded null byte"
  | homeUnknown => "Could not determine home directory."
  | pathMissing => "expected str, bytes or os.PathLike object, not list"
  | undecodable => "the file is not valid UTF-8"
  | unencodable problem =>
    let what :=
      if problem.first = problem.last then
        "character '\\u" ++ (Quoted.hex 4 problem.surrogate.code).display ++
          s!"' in position {problem.first}"
      else s!"characters in position {problem.first}-{problem.last}"
    "'utf-8' codec can't encode " ++ what ++ ": surrogates not allowed"

end Error
end FlakeInputs
