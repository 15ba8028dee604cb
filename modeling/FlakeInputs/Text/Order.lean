import FlakeInputs.Text.Basic

/-!
# The order of texts

Texts are ordered by their first differing character, and characters by their code
points.
-/

namespace FlakeInputs
namespace Text

/-- Whether a text is the other one or comes before it. -/
def le : Text → Text → Bool
  | [], _ => true
  | _ :: _, [] => false
  | a :: s, b :: t => if a = b then le s t else a.toNat < b.toNat

end Text
end FlakeInputs
