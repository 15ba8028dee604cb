import FlakeInputs.Reference.Url
import FlakeInputs.Reference.Version

/-!
# Inferring inputs

The name and the url of the input that a reference stands for.

A url without a host, such as `github:NixOS/nixpkgs`, is kept, and its second
path segment is the name.  A url with a host is kept too, but needs a name.
Anything else is a flake on FlakeHub.
-/

namespace FlakeInputs
namespace Reference

/-- Where FlakeHub is. -/
def defaultBase : Text := "https://flakehub.com".toList

/-- The text without the given one at its end. -/
def dropEnding (ending t : Text) : Text :=
  if ending.isSuffixOf t then t.take (t.length - ending.length) else t

/-- The text without a `v` in front. -/
def dropVersionMark : Text → Text
  | 'v' :: t => t
  | t => t

/-- The version that the last segment of a FlakeHub reference asks for. -/
def version (segment : Text) : Except Problem Text :=
  let version := dropVersionMark (dropEnding ".tar.gz".toList segment)
  if Version.isRequirement version then .ok version else .error (.badVersion version)

/-- The organisation, project and version of a FlakeHub reference. -/
def flakeHubParts (ref : Text) : Except Problem (Text × Text × Text) :=
  match Text.splitOn '/' ref with
  | [org, project] => .ok (org, project, ['*'])
  | [org, project, segment] => do return (org, project, ← version segment)
  | _ => .error .badFormat

/-- The input that a FlakeHub reference stands for. -/
def flakeHub (base : Text) (name? : Option Text) (ref : Text) : Except Problem Input := do
  let (org, project, version) ← flakeHubParts ref
  if org.isEmpty || project.isEmpty then throw .badFormat
  let root := base.trimEnd (· == '/')
  return ⟨name?.getD project,
    root ++ "/f/".toList ++ org ++ ['/'] ++ project ++ ['/'] ++ version⟩

/-- The name that a url without a host suggests. -/
def suggestedName? (path : Text) : Option Text :=
  match Text.splitOn '/' (path.dropWhile (· == '/')) with
  | _ :: name :: _ => if name.isEmpty then none else some name
  | _ => none

/-- The reference without blanks around it and slashes at its end. -/
def trim (ref : Text) : Text :=
  ref.strip.trimEnd (· == '/')

/-- The input that a reference stands for.  A name that is given and not empty
goes before any other. -/
def infer (base : Text) (name? : Option Text) (reference : Text) : Except Problem Input := do
  let name? := name?.filter (!·.isEmpty)
  let ref := trim reference
  if ref.isEmpty then throw .empty
  let url ← Url.split ref
  if url.scheme.isEmpty then flakeHub base name? ref
  else
    let hostless := url.authority.isEmpty && !Text.occurs "://".toList ref
    let suggestion := if hostless then suggestedName? url.path else none
    match name? <|> suggestion with
    | some name => return ⟨name, ref⟩
    | none => throw (.nameNeeded ref)

end Reference
end FlakeInputs
