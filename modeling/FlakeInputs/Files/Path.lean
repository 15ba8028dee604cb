import FlakeInputs.Text.Basic

/-!
# Paths of files

A path is a root, if it is absolute, and a list of names.  Single dots and doubled
slashes in the written form do not count; double dots do.
-/

namespace FlakeInputs
namespace Files

/-- A path.  The root is empty for a path relative to the working directory. -/
structure Path where
  root : Text
  names : List Text
deriving DecidableEq, Repr

namespace Path

/-- The name of the directory above. -/
def parentName : Text := ['.', '.']

/-- The root of a written path.  Two slashes are a root of their own, more than two
are one. -/
def rootOf : Text → Text
  | '/' :: '/' :: '/' :: _ => ['/']
  | '/' :: '/' :: _ => ['/', '/']
  | '/' :: _ => ['/']
  | _ => []

/-- The path that a text spells. -/
def ofText (t : Text) : Path :=
  ⟨rootOf t, (Text.splitOn '/' t).filter fun name => !name.isEmpty && name != ['.']⟩

/-- How a path is written. -/
def text (p : Path) : Text :=
  if p.root.isEmpty && p.names.isEmpty then ['.']
  else p.root ++ ['/'].intercalate p.names

/-- The names with every double dot and the name before it taken away; `before` are
the names so far, the last one first. -/
def collapseNames (before : List Text) : List Text → List Text
  | [] => before.reverse
  | name :: rest =>
    if name = parentName then collapseNames before.tail rest
    else collapseNames (name :: before) rest

/-- The path without double dots. -/
def collapse (p : Path) : Path :=
  { p with names := collapseNames [] p.names }

end Path
end Files
end FlakeInputs
