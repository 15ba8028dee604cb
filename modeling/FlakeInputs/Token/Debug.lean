import FlakeInputs.Text.Quoted
import FlakeInputs.Token.Basic

/-!
# Tokens for inspection

A one-line form of a token that names its kind, whatever its spelling.
-/

namespace FlakeInputs

/-- The name of an operator's token kind. -/
def Operator.label : Operator → String
  | plus => "PLUS"
  | minus => "MINUS"
  | times => "STAR"
  | divide => "SLASH"
  | less => "LT"
  | greater => "GT"
  | lessEq => "LEQ"
  | greaterEq => "GEQ"
  | equal => "EQEQ"
  | notEqual => "NEQ"
  | conj => "AND"
  | disj => "OR"
  | implies => "IMPL"
  | update => "UPDATE"
  | concat => "CONCAT"
  | pipeRight => "PIPE_RIGHT"
  | pipeLeft => "PIPE_LEFT"

/-- The name of a reserved word's token kind. -/
def Keyword.label : Keyword → String
  | ifWord => "IF"
  | thenWord => "THEN"
  | elseWord => "ELSE"
  | assertWord => "ASSERT"
  | withWord => "WITH"
  | letWord => "LET"
  | inWord => "IN"
  | recWord => "REC"
  | inheritWord => "INHERIT"
  | orWord => "OR_KW"

/-- The name of a token kind. -/
def TokenKind.label : TokenKind → String
  | identifier => "IDENT"
  | integer => "INT"
  | float => "FLOAT"
  | path => "PATH"
  | searchPath => "SPATH"
  | uri => "URI"
  | quote => "DQUOTE"
  | indentQuote => "IND_QUOTE"
  | text => "STR_TEXT"
  | interpolation => "DOLLAR_CURLY"
  | braceOpen => "LBRACE"
  | braceClose => "RBRACE"
  | bracketOpen => "LBRACKET"
  | bracketClose => "RBRACKET"
  | parenOpen => "LPAREN"
  | parenClose => "RPAREN"
  | semicolon => "SEMI"
  | comma => "COMMA"
  | dot => "DOT"
  | ellipsis => "ELLIPSIS"
  | assign => "EQ"
  | colon => "COLON"
  | atSign => "AT"
  | question => "QUESTION"
  | bang => "NOT"
  | operator op => op.label
  | keyword k => k.label

/-- One line with the label of a kind, a lexeme in quotes and a place. -/
def Token.debugLine (label : String) (lexeme : Text) (file : String) (span : Span) : String :=
  "Token(TokenKind." ++ label ++ ", " ++ lexeme.quoted ++ ", " ++ span.format file ++ ")"

/-- A token on one line. -/
def Token.debug (file : String) (t : Token) : String :=
  debugLine t.kind.label t.lexeme file t.span

/-- The end of the text on one line, in the form of a token. -/
def Token.debugEnd (file : String) (span : Span) : String :=
  debugLine "EOF" [] file span

end FlakeInputs
