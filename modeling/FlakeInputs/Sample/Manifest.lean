import FlakeInputs.Sample.Draw
import FlakeInputs.Text.Basic

/-!
# Sample manifests

Random manifests in the shapes that are found in the wild.  Every sample can be
read, and has an outputs function that can take one more parameter.
-/

namespace FlakeInputs
namespace Sample

/-- Names that a sample must not use for an input. -/
def reserved : List Text :=
  ["if", "then", "else", "assert", "with", "let", "in", "rec", "inherit", "or", "self", "url",
   "inputs", "outputs", "follows", "flake"].map String.toList

/-- The owners of the flakes that samples refer to. -/
def owners : List Text :=
  ["NixOS", "numtide", "nix-community", "cachix", "hercules-ci",
   "DeterminateSystems"].map String.toList

/-- The ways to indent a line. -/
def indents : List Text :=
  ["  ", "    ", "\t"].map String.toList

/-- The lower-case letters. -/
def letters : List Char :=
  "abcdefghijklmnopqrstuvwxyz".toList

/-- The characters of a name behind the first. -/
def nameChars : List Char :=
  letters ++ "0123456789-_".toList

/-! ## Names and urls -/

/-- A name. -/
def name : Draw Text := do
  let head ← Draw.choose letters
  let tail ← Draw.times (← Draw.between 0 10) (Draw.choose nameChars)
  let drawn := head :: tail
  return if drawn ∈ reserved then drawn ++ "-x".toList else drawn

/-- One more name that is not among those that are there. -/
def freshName (seen : List Text) : Draw Text :=
  Draw.retry do
    let drawn ← name
    return if drawn ∈ seen then none else some drawn

/-- As many different names as asked for. -/
def names : Nat → Draw (List Text)
  | 0 => return []
  | n + 1 => do
    let seen ← names n
    return seen ++ [← freshName seen]

/-- The three kinds of urls, by where a fraction falls. -/
def url (name : Text) : Draw Text := do
  let k ← Draw.fraction
  let owner ← Draw.choose owners
  if k < Draw.share 1 2 then
    return "github:".toList ++ owner ++ ['/'] ++ name
  else if k < Draw.share 3 4 then
    let version ← Draw.between 1 2500
    return "https://flakehub.com/f/".toList ++ owner ++ ['/'] ++ name ++ "/0.".toList ++
      Nat.toDigits 10 version ++ ".*".toList
  else
    return "git+https://example.org/".toList ++ owner ++ ['/'] ++ name ++
      ".git?ref=main".toList

/-- A url as a value: in quotes, or bare if it is a short one. -/
def urlValue (name : Text) : Draw Text := do
  let url ← url name
  let quoted := '"' :: url ++ ['"']
  if "github:".toList.isPrefixOf url then
    return if (← Draw.chance 1 5) then url else quoted
  return quoted

/-! ## Inputs -/

/-- The ways to declare inputs. -/
inductive Shape
  | set
  | dotted
  | nested
  | split
  | none
deriving DecidableEq, Repr

/-- A line with the given number of indents before it. -/
def indented (indent : Text) (depth : Nat) (line : Text) : Text :=
  (List.replicate depth indent).flatten ++ line

/-- The line that opens the `inputs` set. -/
def openInputs (indent : Text) : Text :=
  indented indent 1 "inputs = \x7b".toList

/-- The line that closes a set at some depth. -/
def closeSet (indent : Text) (depth : Nat) : Text :=
  indented indent depth "\x7d;".toList

/-- The declaration of an input in the `inputs` set. -/
def setLine (indent name : Text) : Draw Text := do
  let value ← urlValue name
  return indented indent 2 (name ++ ".url = ".toList ++ value ++ [';'])

/-- The declaration of an input in the `inputs` set, with what it follows at
times. -/
def setLines (indent name : Text) : Draw (List Text) := do
  let declaration ← setLine indent name
  if (← Draw.chance 1 5) then
    return [declaration,
      indented indent 2 (name ++ ".inputs.nixpkgs.follows = \"nixpkgs\";".toList)]
  return [declaration]

/-- The declaration of an input at the top level. -/
def dottedLine (indent name : Text) : Draw Text := do
  let value ← urlValue name
  return indented indent 1 ("inputs.".toList ++ name ++ ".url = ".toList ++ value ++ [';'])

/-- The declaration of an input by a set in the `inputs` set. -/
def nestedLines (indent name : Text) : Draw (List Text) := do
  let first := indented indent 2 (name ++ " = \x7b".toList)
  let value ← urlValue name
  let url := indented indent 3 ("url = ".toList ++ value ++ [';'])
  let last := closeSet indent 2
  if (← Draw.chance 3 10) then
    return [first, url, indented indent 3 "flake = false;".toList, last]
  return [first, url, last]

/-- The declaration of an input by a set at the top level. -/
def splitLine (indent name : Text) : Draw Text := do
  let value ← urlValue name
  return indented indent 1
    ("inputs.".toList ++ name ++ " = \x7b url = ".toList ++ value ++ "; \x7d;".toList)

/-- The lines that declare some inputs. -/
def inputLines (indent : Text) (names : List Text) : Shape → Draw (List Text)
  | .none => return []
  | .set =>
    if names.isEmpty then return [indented indent 1 "inputs = \x7b \x7d;".toList]
    else do
      let lines ← names.mapM (setLines indent)
      return openInputs indent :: lines.flatten ++ [closeSet indent 1]
  | .dotted => names.mapM (dottedLine indent)
  | .nested => do
    let lines ← names.mapM (nestedLines indent)
    return openInputs indent :: lines.flatten ++ [closeSet indent 1]
  | .split => do
    let half := max 1 (names.length / 2)
    let inside ← (names.take half).mapM (setLine indent)
    let behind ← (names.drop half).mapM (splitLine indent)
    return openInputs indent :: inside ++ closeSet indent 1 :: behind

/-! ## Outputs -/

/-- The parameters with a default for the last one, unless there is only one. -/
def withDefault (parameters : List Text) : List Text :=
  match parameters.reverse with
  | last :: first :: rest => (first :: rest).reverse ++ [last ++ " ? null".toList]
  | _ => parameters

/-- A parameter list that takes some of the inputs apart. -/
def parameterHead (indent : Text) (names : List Text) : Draw Text := do
  let taken ← names.filterM fun _ => Draw.chance 7 10
  let parameters := "self".toList :: taken
  let parameters := if (← Draw.chance 3 20) then withDefault parameters else parameters
  let parameters := if (← Draw.chance 3 5) then parameters ++ ["...".toList] else parameters
  let separator ← Draw.choose [", ".toList, ",\n".toList ++ indent ++ indent]
  let whole := if (← Draw.chance 3 10) then " @ inputs".toList else []
  return "\x7b ".toList ++ separator.intercalate parameters ++ " \x7d".toList ++ whole ++ [':']

/-- The head of the outputs function. -/
def outputHead (indent : Text) (names : List Text) : Draw Text := do
  if (← Draw.chance 3 20) then return "inputs:".toList
  parameterHead indent names

/-- The lines that define the outputs. -/
def outputLines (indent : Text) (names : List Text) : Draw (List Text) := do
  let head ← outputHead indent names
  let body ← Draw.choose
    ["\x7b \x7d".toList,
     "\x7b\n".toList ++ indented indent 2 "packages = \x7b \x7d;\n".toList ++
       indented indent 1 "\x7d".toList]
  return [indented indent 1 ("outputs = ".toList ++ head ++ [' '] ++ body ++ [';'])]

/-! ## Manifests -/

/-- The description of a flake, in most samples. -/
def descriptionLines (indent : Text) : Draw (List Text) := do
  if (← Draw.chance 4 5) then
    let drawn ← name
    return [indented indent 1 ("description = \"".toList ++ drawn ++ " flake\";".toList), []]
  return []

/-- The way to declare inputs; without inputs there is little choice. -/
def shape (names : List Text) : Draw Shape := do
  let drawn ← Draw.choose [Shape.set, .dotted, .nested, .split, .none]
  if names.isEmpty && drawn != .none then Draw.choose [Shape.set, .none]
  else return drawn

/-- Settings of no concern, in some samples. -/
def configLines (indent : Text) : Draw (List Text) := do
  if (← Draw.chance 1 5) then
    let drawn ← name
    return [
      indented indent 1 "nixConfig = \x7b".toList,
      indented indent 2
        ("extra-substituters = [ \"https://".toList ++ drawn ++ ".cachix.org\" ];".toList),
      closeSet indent 1,
      []]
  return []

/-- One sample. -/
def manifest : Draw Text := do
  let indent ← Draw.choose indents
  let names ← names (← Draw.between 0 5)
  let description ← descriptionLines indent
  let shape ← shape names
  let inputs ← inputLines indent names shape
  let gap := if shape = .none then [] else [[]]
  let config ← configLines indent
  let outputs ← outputLines indent names
  let lines := ["\x7b".toList] ++ description ++ inputs ++ gap ++ config ++ outputs ++
    ["\x7d".toList]
  return ['\n'].intercalate lines ++ ['\n']

/-- The samples for a seed, with a number of attempts for every draw. -/
def manifests (attempts : Nat) (seed count : Int) : Option (List Text) :=
  (((Draw.times count.toNat manifest).run attempts).run (.ofSeed seed)).map Prod.fst

/-- The path of the sample with the given number. -/
def filePath (number : Nat) : Text :=
  let digits := Nat.toDigits 10 number
  "case_".toList ++ List.replicate (6 - digits.length) '0' ++ digits ++ "/flake.nix".toList

/-- The samples for a seed as files, each in a directory of its own. -/
def files (attempts : Nat) (seed count : Int) : Option (List (Text × Text)) :=
  (manifests attempts seed count).map fun texts =>
    texts.zipIdx.map fun (text, number) => (filePath number, text)

end Sample
end FlakeInputs
