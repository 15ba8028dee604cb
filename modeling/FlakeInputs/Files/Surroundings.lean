import FlakeInputs.Error
import FlakeInputs.Files.Path
import FlakeInputs.Text.Surrogate

/-!
# Surroundings

What a run finds around it besides the files: the working directory, the home
directories of the users, and what the environment says about the log.  A path is
read by way of them, and a tilde at its beginning stands for a home directory.
-/

namespace FlakeInputs

/-- What a run finds around it.  The working directory is given by the names on the
way to it, and the user who runs the program is the one with the empty name. -/
structure Surroundings where
  here : List Text
  homeOf? : Text → Option Text
  log? : Option Text
  standIns : StandIns

namespace Surroundings

/-- The bytes of a name are what the operating system is given, and they end at a null
character. -/
def checkName (around : Surroundings) (name : Text) : Except Error Unit :=
  match around.standIns.unencodable? (fun s => !s.isByte) 0 name with
  | some problem => .error (.unencodable problem)
  | none => if name.contains '\x00' then .error .nulInPath else .ok ()

/-- The path of the home directory of a user. -/
def home (around : Surroundings) (user : Text) : Except Error Files.Path := do
  around.checkName user
  let some written := around.homeOf? user | throw .homeUnknown
  let written := written.trimEnd (· == '/')
  if written.head? = some '~' then throw .homeUnknown
  return .ofText (if written.isEmpty then ['/'] else written)

/-- The path with a home directory for a tilde, and for the name of a user behind it,
at the beginning. -/
def expand (around : Surroundings) (path : Files.Path) : Except Error Files.Path :=
  match path.root, path.names with
  | [], ('~' :: user) :: rest => do
    let home ← around.home user
    return { home with names := home.names ++ rest }
  | _, _ => .ok path

/-- The path from the root on, without double dots. -/
def resolve (around : Surroundings) (path : Files.Path) : Files.Path :=
  if path.root.isEmpty then (Files.Path.mk ['/'] (around.here ++ path.names)).collapse
  else path.collapse

end Surroundings
end FlakeInputs
