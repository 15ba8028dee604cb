import FlakeInputs.Error
import FlakeInputs.Grammar.Expression
import FlakeInputs.Token.Located

/-!
# From text to expressions

The expression that a text spells.
-/

namespace FlakeInputs

/-- The error that a reader's refusal amounts to in a given text.  Tokens that run
out are missed at the end of the text. -/
def Grammar.Fault.toError (text : Text) : Grammar.Fault → Error
  | .unexpected (some token) expected =>
    .malformed ⟨token.span, .unexpected (some token.kind) expected⟩
  | .unexpected none expected => .malformed ⟨.endOf text, .unexpected none expected⟩
  | .legacyLet span => .malformed ⟨span, .legacyLet⟩
  | .integerTooLong digits => .integerTooLong digits

/-- The expression that a text spells. -/
def Expr.parse (text : Text) : Except Error Expr := do
  let tokens ← (Token.tokenize text).mapError .malformed
  (Grammar.whole tokens).mapError (·.toError text)

end FlakeInputs
