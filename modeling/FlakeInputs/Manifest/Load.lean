import FlakeInputs.Files.Surroundings
import FlakeInputs.Grammar.Parse
import FlakeInputs.Logged
import FlakeInputs.Text.Blank

/-!
# Loading manifests

A manifest is read from the content of a file.  Where there is nothing to edit yet,
work starts from a small flake that has an outputs function.
-/

namespace FlakeInputs
namespace Manifest

/-- The flake to start from. -/
def fallback : Text :=
  ("\x7b\n  description = \"My new flake.\";\n\n" ++
    "  outputs = \x7b ... \x7d @ inputs: \x7b \x7d;\n\x7d\n").toList

/-- The text with every line ended by a newline alone. -/
def unifyLineEnds : Text → Text
  | [] => []
  | '\r' :: '\n' :: t => '\n' :: unifyLineEnds t
  | '\r' :: t => '\n' :: unifyLineEnds t
  | c :: t => c :: unifyLineEnds t

/-- The text that is stored in a file. -/
def decode (content : ByteArray) : Except Error Text :=
  match String.fromUTF8? content with
  | some s => .ok (unifyLineEnds s.toList)
  | none => .error .undecodable

/-- The bytes of a text. -/
def utf8 (text : Text) : ByteArray :=
  text.display.toUTF8

/-- The content of a file that stores a text.  There are no bytes for a lone
surrogate. -/
def encode (standIns : StandIns) (text : Text) : Except Error ByteArray :=
  match standIns.unencodable? (fun _ => true) 0 text with
  | some problem => .error (.unencodable problem)
  | none => .ok (utf8 text)

/-- The text and the tree of a manifest. -/
structure Loaded where
  text : Text
  tree : Expr

/-- What was found when a file was opened. -/
abbrev Content := Except FileProblem ByteArray

/-- The error that a problem with a file amounts to. -/
def fileError (problem : FileProblem) (path : Files.Path) : Error :=
  .badFile problem path.text

section
variable (around : Surroundings) (read : Files.Path → Content) (path : Files.Path)

/-- What is found at a path that the operating system can be given. -/
def opened : Except Error Content := do
  around.checkName path.text
  return read path

/-- The text of what was found at a path. -/
def textFound : Content → Except Error Text
  | .ok bytes => decode bytes
  | .error problem => .error (fileError problem path)

/-- The text in a file, or the fallback if there is no file. -/
def textOf : Logged Text := do
  match (← opened around read path) with
  | .error .missing => do
    Logged.note (.fileMissing path.text)
    return fallback
  | found => .lift (textFound path found)

/-- The text, or the fallback if it is blank. -/
def textOrFallback (text : Text) : Logged Text :=
  if text.isBlank then do
    Logged.note (.fileBlank path.text)
    return fallback
  else return text

/-- Loads a manifest from the path with its tilde expanded.  The fallback takes the place
of a missing file, of a blank one, and of a set without attributes. -/
def load : Logged Loaded := do
  let path ← around.expand path
  let text ← textOrFallback path (← textOf around read path)
  let tree ← Expr.parse text
  match tree.node with
  | .map [] _ =>
    Logged.note (.fileWithoutAttributes path.text)
    return ⟨fallback, ← Expr.parse fallback⟩
  | _ => return ⟨text, tree⟩

/-- The tree of the text in a file, which is read from the path from the root on. -/
def parseFile : Except Error Expr := do
  let path := around.resolve (← around.expand path)
  Expr.parse (← textFound path (← opened around read path))

end

end Manifest
end FlakeInputs
