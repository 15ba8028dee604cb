import FlakeInputs.Token.Scan

/-!
# Located tokens

The tokens of a text with their spans.
-/

namespace FlakeInputs
namespace Token

/-- The tokens among some pieces, the first of which stands at `p`. -/
def locate (p : Position) : List Scan.Piece → List Token
  | [] => []
  | .gap t :: ps => locate (p.after t) ps
  | .token kind lexeme :: ps =>
    ⟨kind, lexeme, ⟨p, p.after lexeme⟩⟩ :: locate (p.after lexeme) ps

/-- The tokens of a text. -/
def tokenize (text : Text) : Except SyntaxError (List Token) :=
  match Scan.pieces [] text with
  | .ok ps => .ok (locate .start ps)
  | .error fault => .error ⟨fault.span, fault.problem⟩

end Token

/-- The empty span behind the last character of a text. -/
def Span.endOf (text : Text) : Span :=
  .point (Position.start.after text)

end FlakeInputs
