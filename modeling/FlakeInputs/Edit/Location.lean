import FlakeInputs.Notice
import FlakeInputs.Text.Blank

/-!
# Reading locations

The location that a text names, whatever its case and the blanks around it.
-/

namespace FlakeInputs

/-- The location that a text names.  The only character outside of ASCII with a lower-case form in
ASCII is the Kelvin sign, and neither word has a `k`. -/
def Location.ofText (value : Text) : Except Error Location :=
  let word := value.strip.lower
  if word = "top".toList then .ok .top
  else if word = "bottom".toList then .ok .bottom
  else .error (.unknownLocation value)

end FlakeInputs
