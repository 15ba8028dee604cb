import FlakeInputs.Source.Span

/-!
# Tokens

The lexical elements of a Nix expression.  The end of the text is not a token:
a token list simply ends.
-/

namespace FlakeInputs

/-- The infix operators.  `minus` is also the sign in front of an operand. -/
inductive Operator
  | plus
  | minus
  | times
  | divide
  | less
  | greater
  | lessEq
  | greaterEq
  | equal
  | notEqual
  | conj
  | disj
  | implies
  | update
  | concat
  | pipeRight
  | pipeLeft
deriving DecidableEq, Repr

namespace Operator

/-- How an operator is written. -/
def symbol : Operator → String
  | plus => "+"
  | minus => "-"
  | times => "*"
  | divide => "/"
  | less => "<"
  | greater => ">"
  | lessEq => "<="
  | greaterEq => ">="
  | equal => "=="
  | notEqual => "!="
  | conj => "&&"
  | disj => "||"
  | implies => "->"
  | update => "//"
  | concat => "++"
  | pipeRight => "|>"
  | pipeLeft => "<|"

end Operator

/-- The reserved words. -/
inductive Keyword
  | ifWord
  | thenWord
  | elseWord
  | assertWord
  | withWord
  | letWord
  | inWord
  | recWord
  | inheritWord
  | orWord
deriving DecidableEq, Repr

namespace Keyword

/-- How a reserved word is written. -/
def word : Keyword → String
  | ifWord => "if"
  | thenWord => "then"
  | elseWord => "else"
  | assertWord => "assert"
  | withWord => "with"
  | letWord => "let"
  | inWord => "in"
  | recWord => "rec"
  | inheritWord => "inherit"
  | orWord => "or"

/-- All reserved words. -/
def all : List Keyword :=
  [ifWord, thenWord, elseWord, assertWord, withWord, letWord, inWord, recWord, inheritWord,
   orWord]

/-- The reserved word that a text spells, if it spells one. -/
def ofText? (t : Text) : Option Keyword :=
  all.find? fun k => k.word.toList == t

end Keyword

/-- The kinds of tokens.  `text` is the source between the delimiters of a
string literal, escapes included. -/
inductive TokenKind
  | identifier
  | integer
  | float
  | path
  | searchPath
  | uri
  | quote
  | indentQuote
  | text
  | interpolation
  | braceOpen
  | braceClose
  | bracketOpen
  | bracketClose
  | parenOpen
  | parenClose
  | semicolon
  | comma
  | dot
  | ellipsis
  | assign
  | colon
  | atSign
  | question
  | bang
  | operator (op : Operator)
  | keyword (word : Keyword)
deriving DecidableEq, Repr

namespace TokenKind

/-- How messages name a kind of token: a class in capitals, or the token
itself. -/
def name : TokenKind → String
  | identifier => "IDENT"
  | integer => "INT"
  | float => "FLOAT"
  | path => "PATH"
  | searchPath => "SPATH"
  | uri => "URI"
  | quote => "\""
  | indentQuote => "''"
  | text => "STR_TEXT"
  | interpolation => "$\x7b"
  | braceOpen => "\x7b"
  | braceClose => "\x7d"
  | bracketOpen => "["
  | bracketClose => "]"
  | parenOpen => "("
  | parenClose => ")"
  | semicolon => ";"
  | comma => ","
  | dot => "."
  | ellipsis => "..."
  | assign => "="
  | colon => ":"
  | atSign => "@"
  | question => "?"
  | bang => "!"
  | operator op => op.symbol
  | keyword k => k.word

end TokenKind

/-- A token: its kind, the text that it was read from, and where that text
stands. -/
structure Token where
  kind : TokenKind
  lexeme : Text
  span : Span
deriving DecidableEq, Repr

end FlakeInputs
