import FlakeInputs.Files.Surroundings

/-!
# A store of files

The files and directories of a machine.  A place is given by the names on the way to
it from the root.  A directory is there if it is entered or if something is in it, and
the root is always there.  There are no links, and whatever is there can be opened.
-/

namespace FlakeInputs

namespace Files

/-- A file with its content, or a directory. -/
inductive Entry
  | file (content : ByteArray)
  | directory

end Files

/-- Entries by their places. -/
structure Files where
  entries : List (List Text × Files.Entry)

namespace Files

/-- What is at a place. -/
def get? (files : Files) (place : List Text) : Option Entry :=
  files.entries.lookup place

/-- Whether there is a directory at a place. -/
def isDirectory (files : Files) (place : List Text) : Bool :=
  place.isEmpty ||
    files.entries.any fun (other, entry) =>
      if other = place then
        match entry with
        | .directory => true
        | .file _ => false
      else place.isPrefixOf other

/-- The longest name of a file, in bytes. -/
def maxNameBytes : Nat := 255

/-- The longest path, in bytes. -/
def maxPathBytes : Nat := 4095

/-- The place that names lead to from another place.  Every name but the last has to
lead to a directory. -/
def follow (files : Files) (standIns : StandIns) (place : List Text) :
    List Text → Except FileProblem (List Text)
  | [] => .ok place
  | name :: rest =>
    if name = Path.parentName then follow files standIns place.dropLast rest
    else if maxNameBytes < standIns.sizeOfName name then .error .nameTooLong
    else
      let next := place ++ [name]
      if rest.isEmpty || files.isDirectory next then follow files standIns next rest
      else if (files.get? next).isSome then .error .parentNotDirectory
      else .error .missing

/-- The place that a path leads to, from the root or from the working directory. -/
def locate (files : Files) (around : Surroundings) (path : Path) :
    Except FileProblem (List Text) :=
  let start := if path.root.isEmpty then around.here else []
  if maxPathBytes < around.standIns.sizeOfName path.text then .error .nameTooLong
  else if files.isDirectory start then files.follow around.standIns start path.names
  else .error .missing

/-- The content of a file. -/
def read (files : Files) (around : Surroundings) (path : Path) :
    Except FileProblem ByteArray := do
  let place ← files.locate around path
  match files.get? place with
  | some (.file content) => return content
  | _ => throw (if files.isDirectory place then .isDirectory else .missing)

/-- The place of a file that is opened to be written. -/
def placeToWrite (files : Files) (around : Surroundings) (path : Path) :
    Except FileProblem (List Text) := do
  let place ← files.locate around path
  if files.isDirectory place then throw .isDirectory
  return place

/-- The store with the content of a file set; the file is made if it is not there. -/
def put (files : Files) (place : List Text) (content : ByteArray) : Files :=
  ⟨(files.entries.filter fun (other, _) => other != place) ++ [(place, .file content)]⟩

end Files
end FlakeInputs
