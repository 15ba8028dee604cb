import FlakeInputs.Text.Quoted
import FlakeInputs.Token.Basic

/-!
# Syntax errors

Why a text is not a Nix expression, and how that is put to the user.
-/

namespace FlakeInputs

/-- What would have been right where a token is wrong. -/
inductive Expected
  | token (kind : TokenKind)
  | expression
  | attributeName
  | colonAfterHead
  | aliasName
  | parameterName
  | lastParameter
  | inAfterLet
  | equalsAfterName
  | semicolonAfterBinding
  | closingParen
  | closingBracket
  | closingBrace
  | closingString
  | closingIndented
  | closingInterpolation
  | endOfFile
deriving DecidableEq, Repr

namespace Expected

/-- The advice that goes with an unexpected token. -/
def hint : Expected → String
  | token kind => "expected " ++ kind.name
  | expression => "expected an expression"
  | attributeName => "expected an attribute name"
  | colonAfterHead => "a function head must be followed by `:`"
  | aliasName => "expected a name after `@`"
  | parameterName => "expected a parameter name or `...`"
  | lastParameter => "`...` must be the last parameter"
  | inAfterLet => "`let` bindings must be followed by `in`"
  | equalsAfterName => "expected `=` after the attribute name"
  | semicolonAfterBinding => "terminate the binding with `;`"
  | closingParen => "close the parenthesis"
  | closingBracket => "close the list with ]"
  | closingBrace => "close the attribute set with \x7d"
  | closingString => "close the string"
  | closingIndented => "close the indented string with ''"
  | closingInterpolation => "close the interpolation with \x7d"
  | endOfFile => "expected end of file"

end Expected

/-- The ways in which a text can fail to be an expression.  In `unexpected`, the
absence of a token means that the text ends. -/
inductive SyntaxProblem
  | unterminatedComment
  | unterminatedString
  | trailingSlash (path : Text)
  | unexpectedCharacter (c : Char)
  | unexpected (found : Option TokenKind) (expected : Expected)
  | legacyLet
deriving DecidableEq, Repr

namespace SyntaxProblem

/-- What is wrong. -/
def message : SyntaxProblem → String
  | unterminatedComment => "unterminated block comment"
  | unterminatedString => "unterminated string literal"
  | trailingSlash path => "path " ++ path.quoted ++ " has a trailing slash"
  | unexpectedCharacter c => "unexpected character " ++ Text.quoted [c]
  | unexpected none _ => "unexpected end of file"
  | unexpected (some kind) _ => "unexpected " ++ kind.name
  | legacyLet => "legacy `let \x7b ... \x7d` syntax is not supported"

/-- What can be done about it. -/
def hint : SyntaxProblem → String
  | unterminatedComment => "add closing */"
  | unterminatedString => "close the quote"
  | trailingSlash _ => "remove the trailing /"
  | unexpectedCharacter _ => "remove the character or replace with valid Nix syntax"
  | unexpected _ expected => expected.hint
  | legacyLet => "use `let ... in ...` instead"

end SyntaxProblem

/-- A problem and the place where it shows. -/
structure SyntaxError where
  span : Span
  problem : SyntaxProblem
deriving DecidableEq, Repr

namespace SyntaxError

/-- The place, the problem and the advice, as shown to the user. -/
def message (file : String) (e : SyntaxError) : String :=
  e.span.format file ++ ": " ++ e.problem.message ++ "\nhint: " ++ e.problem.hint

end SyntaxError
end FlakeInputs
