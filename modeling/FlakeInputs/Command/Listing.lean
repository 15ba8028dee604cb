import FlakeInputs.Manifest.Inputs
import FlakeInputs.Text.Json
import FlakeInputs.Text.Order

/-!
# Listings

How the declared inputs are shown.
-/

namespace FlakeInputs
namespace Command

open Manifest (Entry)

/-- A listing with a line for each input: its name, a tab, and its url or a dash. -/
def plainListing (entries : List Entry) : Text :=
  entries.flatMap fun e => e.name ++ '\t' :: e.url?.getD ['-'] ++ ['\n']

/-- One member of a JSON object. -/
def jsonMember (e : Entry) : Text :=
  "  ".toList ++ Json.string e.name ++ ": ".toList ++ e.url?.elim "null".toList Json.string

/-- A listing as a JSON object from names to urls, in the order of the names. -/
def jsonListing (entries : List Entry) : Text :=
  let sorted := entries.mergeSort fun a b => a.name.le b.name
  if sorted.isEmpty then "\x7b\x7d\n".toList
  else
    "\x7b\n".toList ++ ",\n".toList.intercalate (sorted.map jsonMember) ++ "\n\x7d\n".toList

end Command
end FlakeInputs
