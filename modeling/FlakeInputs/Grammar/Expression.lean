import FlakeInputs.Grammar.Operators

/-!
# The grammar of expressions

Each production is a function of the readers for what is nested in it, and none
calls itself.  `Nested.limit n` ties the knot `n` times: it reads expressions that
nest at most `n` deep.  A nested expression is read only behind a token of the
expression around it, so no expression nests deeper than it has tokens.
-/

namespace FlakeInputs

/-- Whether a part is text of no length. -/
def Part.isEmpty : Part → Bool
  | .text _ content => content.isEmpty
  | .interpolation _ _ => false

/-- The parts that a string literal keeps: not the empty text around an
interpolation, but one empty text if there is nothing else. -/
def Part.compact (parts : List Part) : List Part :=
  match parts.filter fun p => !p.isEmpty with
  | [] => parts.take 1
  | kept => kept

theorem Part.compact_singleton (p : Part) : Part.compact [p] = [p] := by
  unfold Part.compact
  cases hempty : p.isEmpty <;> simp [hempty]

/-- What makes no part empty and fills none leaves the same parts out. -/
theorem Part.map_compact {f : Part → Part} {parts : List Part}
    (h : ∀ p ∈ parts, (f p).isEmpty = p.isEmpty) :
    (Part.compact parts).map f = Part.compact (parts.map f) := by
  have hfilter : (parts.map f).filter (fun p => !p.isEmpty) =
      (parts.filter fun p => !p.isEmpty).map f := by
    rw [List.filter_map]
    congr 1
    refine List.filter_congr fun p hp => ?_
    rw [Function.comp_apply, h p hp]
  unfold Part.compact
  rw [hfilter]
  cases parts.filter fun p => !p.isEmpty with
  | nil => rw [List.map_nil, List.map_take]
  | cons p ps => rfl

namespace Grammar

/-- The longest integer literal that is read, in digits. -/
def maxIntegerDigits : Nat := 4300

/-- Readers for what is nested in a larger expression: any expression, or one that
is delimited or a single token, with a selection behind it. -/
structure Nested where
  expr : Reader Expr
  operand : Reader Expr

namespace Nested
variable (g : Nested)

/-! ## Strings -/

/-- An interpolation, with the span of its delimiters. -/
def interpolation : Reader (Span × Expr) := do
  let opening ← expect .interpolation
  let value ← g.expr
  let closing ← require .braceClose .closingInterpolation
  return (opening.span.join closing.span, value)

/-- One more part of a string that the given delimiter closes. -/
def part (delimiter : TokenKind) : Reader (Round Part) := do
  let next ← peek
  if next = some delimiter then return .stop
  else if next = some .text then
    let token ← expect .text
    return .more (.text token.span token.lexeme)
  else if next = some .interpolation then
    let (span, value) ← g.interpolation
    return .more (.interpolation span value)
  else refuse .closingString

/-- A string literal between two delimiters. -/
def literal (delimiter : TokenKind) (closing : Expected) : Reader (Span × List Part) := do
  let first ← expect delimiter
  let parts ← loop (g.part delimiter)
  let last ← require delimiter closing
  return (first.span.join last.span, Part.compact parts)

/-- A double-quoted string. -/
def quoted : Reader (Span × List Part) :=
  g.literal .quote .closingString

/-- An indented string. -/
def indented : Reader (Span × List Part) :=
  g.literal .indentQuote .closingIndented

/-! ## Attribute paths and bindings -/

/-- One step of an attribute path. -/
def key : Reader Key := do
  match (← peek) with
  | some .identifier =>
    let token ← expect .identifier
    return .bare token.span token.lexeme
  | some (.keyword .orWord) =>
    let token ← expect (.keyword .orWord)
    return .bare token.span token.lexeme
  | some .quote =>
    let (span, parts) ← g.quoted
    return .quoted span parts
  | some .interpolation =>
    let (span, value) ← g.interpolation
    return .computed span value
  | _ => refuse .attributeName

/-- Keys with dots between them, with the span of them all. -/
def attrPath : Reader (Span × List Key) := do
  let first ← g.key
  let rest ← whileNext (· == some .dot) do
    let _ ← expect .dot
    g.key
  let last := (rest.getLast?.getD first).span
  return (first.span.join last, first :: rest)

/-- A binding of a key to a value. -/
def keyValue : Reader KeyValue := do
  let (span, path) ← g.attrPath
  let _ ← require .assign .equalsAfterName
  let value ← g.expr
  let semicolon ← require .semicolon .semicolonAfterBinding
  return ⟨span.join semicolon.span, path, value⟩

/-- The source of an `inherit`, in parentheses, if there is one. -/
def inheritSource : Reader (Option Expr) := do
  if (← peek) = some .parenOpen then
    let _ ← expect .parenOpen
    let source ← g.expr
    let _ ← expect .parenClose
    return some source
  return none

/-- An `inherit`. -/
def inherited : Reader Binding := do
  let word ← expect (.keyword .inheritWord)
  let source? ← g.inheritSource
  let names ← whileNext (· != some .semicolon) g.key
  let semicolon ← expect .semicolon
  return .inherited (word.span.join semicolon.span) names source?

/-- One more binding, up to the token that closes them. -/
def binding (closing : TokenKind) : Reader (Round Binding) := do
  match (← peek) with
  | none => refuse (.token closing)
  | some kind =>
    if kind = closing then return .stop
    else if kind = .keyword .inheritWord then return .more (← g.inherited)
    else return .more (.keyValue (← g.keyValue))

/-- The bindings up to the token that closes them. -/
def bindings (closing : TokenKind) : Reader (List Binding) :=
  loop (g.binding closing)

/-- Bindings between braces. -/
def attrSet : Reader (Span × List Binding) := do
  let first ← expect .braceOpen
  let bindings ← g.bindings .braceClose
  let last ← require .braceClose .closingBrace
  return (first.span.join last.span, bindings)

/-! ## Operands -/

/-- One more element of a list. -/
def element : Reader (Round Expr) := do
  match (← peek) with
  | none => refuse .closingBracket
  | some .bracketClose => return .stop
  | some _ => return .more (← g.operand)

/-- A list between brackets. -/
def list : Reader Expr := do
  let first ← expect .bracketOpen
  let elements ← loop g.element
  let last ← expect .bracketClose
  return ⟨first.span.join last.span, .list elements⟩

/-- An expression in parentheses. -/
def parenthesised : Reader Expr := do
  let _ ← expect .parenOpen
  let inner ← g.expr
  let _ ← require .parenClose .closingParen
  return inner

/-- An attribute set behind `rec`. -/
def recSet : Reader Expr := do
  let word ← expect (.keyword .recWord)
  let (span, bindings) ← g.attrSet
  return ⟨word.span.join span, .map bindings true⟩

/-- A token that is an expression by itself. -/
def atom (kind : TokenKind) (node : Text → Node) : Reader Expr := do
  let token ← expect kind
  return ⟨token.span, node token.lexeme⟩

/-- An integer.  Literals of more than `maxIntegerDigits` digits are refused. -/
def integer : Reader Expr := do
  let token ← expect .integer
  if maxIntegerDigits < token.lexeme.length then
    throw (.integerTooLong token.lexeme.length)
  return ⟨token.span, .integer (digitsValue token.lexeme)⟩

/-- A `let` in the place of an operand: a brace behind it shows the old form of
`let`, which is not read. -/
def misplacedLet : Reader Expr := fun ts =>
  match ts with
  | word :: brace :: _ =>
    if brace.kind = .braceOpen then .error (.legacyLet word.span)
    else .error (.unexpected (some word) .expression)
  | ts => .error (.unexpected ts.head? .expression)

/-- An expression that is a single token or stands between delimiters. -/
def simple : Reader Expr := do
  match (← peek) with
  | some .identifier => atom .identifier .identifier
  | some .integer => integer
  | some .float => atom .float fun t => .float (.ofText t)
  | some .path => atom .path .path
  | some .searchPath => atom .searchPath fun t => .searchPath (t.drop 1).dropLast
  | some .uri => atom .uri .uri
  | some .quote =>
    let (span, parts) ← g.quoted
    return ⟨span, .string parts⟩
  | some .indentQuote =>
    let (span, parts) ← g.indented
    return ⟨span, .indentedString parts⟩
  | some .parenOpen => g.parenthesised
  | some (.keyword .recWord) => g.recSet
  | some (.keyword .letWord) => misplacedLet
  | some .braceOpen =>
    let (span, bindings) ← g.attrSet
    return ⟨span, .map bindings false⟩
  | some .bracketOpen => g.list
  | _ => refuse .expression

/-- The default behind a selection, if there is one. -/
def selectDefault : Reader (Option Expr) := do
  if (← peek) = some (.keyword .orWord) then
    let _ ← expect (.keyword .orWord)
    return some (← g.operand)
  return none

/-- A simple expression, with a selection behind it if there is one. -/
def select : Reader Expr := do
  let source ← g.simple
  if (← peek) = some .dot then
    let _ ← expect .dot
    let (pathSpan, path) ← g.attrPath
    let default? ← g.selectDefault
    let last := default?.elim pathSpan Expr.span
    return ⟨source.span.join last, .select source path default?⟩
  return source

/-- Whether a token can begin the argument of a function. -/
def beginsArgument : Option TokenKind → Bool
  | some kind =>
    kind ∈ [.identifier, .integer, .float, .path, .searchPath, .uri, .quote, .indentQuote,
      .parenOpen, .braceOpen, .bracketOpen, .keyword .recWord]
  | none => false

/-- A function and the arguments that it is applied to, one after the other. -/
def application : Reader Expr := do
  let function ← g.select
  let arguments ← whileNext beginsArgument g.select
  return arguments.foldl (fun f a => ⟨f.span.join a.span, .apply f a⟩) function

/-- An expression with a test for an attribute behind it, if there is one. -/
def attrTest : Reader Expr := do
  let source ← signed (.operator .minus) .negate g.application
  if (← peek) = some .question then
    let _ ← expect .question
    let (pathSpan, path) ← g.attrPath
    return ⟨source.span.join pathSpan, .hasAttr source path⟩
  return source

/-- Operands with the operators of all levels between them. -/
def operation : Reader Expr :=
  levels looseLevels (signed .bang .complement (levels tightLevels g.attrTest))

/-! ## Functions -/

/-- Whether the tokens behind an opening brace show that it opens a parameter list
and not an attribute set. -/
def opensParameters : List TokenKind → Bool
  | .ellipsis :: _ => true
  | .braceClose :: .colon :: _ => true
  | .braceClose :: .atSign :: _ => true
  | .identifier :: .comma :: _ => true
  | .identifier :: .question :: _ => true
  | .identifier :: .braceClose :: .colon :: _ => true
  | .identifier :: .braceClose :: .atSign :: _ => true
  | _ => false

/-- The default of a parameter, if there is one. -/
def parameterDefault : Reader (Option Expr) := do
  if (← peek) = some .question then
    let _ ← expect .question
    return some (← g.expr)
  return none

/-- One named parameter. -/
def parameter : Reader Parameter := do
  let name ← require .identifier .parameterName
  let default? ← g.parameterDefault
  let last := default?.elim name.span Expr.span
  return ⟨name.span.join last, name.lexeme, default?⟩

/-- One more entry of a parameter list; the ellipsis is an entry without a
parameter, and always the last. -/
def parameterEntry : Reader (Round (Option Parameter)) := do
  match (← peek) with
  | some .braceClose => return .stop
  | some .ellipsis =>
    let _ ← expect .ellipsis
    return .last none
  | _ =>
    let parameter ← g.parameter
    if (← peek) = some .comma then
      let _ ← expect .comma
      return .more (some parameter)
    return .last (some parameter)

/-- A parameter list between braces. -/
def parameterList (whole? : Option Text) : Reader ParameterList := do
  let first ← expect .braceOpen
  let entries ← loop g.parameterEntry
  let last ← require .braceClose .lastParameter
  return ⟨first.span.join last.span, entries.filterMap id, entries.any Option.isNone, whole?⟩

/-- The body of a function, behind a colon, and the function from `start` on. -/
def body (start : Span) (head : Head) : Reader Expr := do
  let body ← g.expr
  return ⟨start.join body.span, .function head body⟩

/-- A function of one name. -/
def simpleFunction : Reader Expr := do
  let name ← expect .identifier
  let _ ← expect .colon
  g.body name.span (.simple name.span name.lexeme)

/-- A function of a parameter list with a name in front of it. -/
def namedFunction : Reader Expr := do
  let name ← expect .identifier
  let _ ← expect .atSign
  let list ← g.parameterList (some name.lexeme)
  let _ ← require .colon .colonAfterHead
  g.body name.span (.destructured list)

/-- The name behind a parameter list, if there is one. -/
def wholeName : Reader (Option Text) := do
  if (← peek) = some .atSign then
    let _ ← expect .atSign
    let name ← require .identifier .aliasName
    return some name.lexeme
  return none

/-- A function of a parameter list, with or without a name behind it. -/
def listFunction : Reader Expr := do
  let list ← g.parameterList none
  let whole? ← wholeName
  let _ ← require .colon .colonAfterHead
  g.body list.span (.destructured { list with whole? })

/-! ## Expressions -/

/-- An `assert` or a `with`: a keyword, an expression, a semicolon, the target. -/
def guarded (keyword : Keyword) (node : Expr → Expr → Node) : Reader Expr := do
  let word ← expect (.keyword keyword)
  let condition ← g.expr
  let _ ← expect .semicolon
  let target ← g.expr
  return ⟨word.span.join target.span, node condition target⟩

/-- A `let` with its bindings. -/
def letIn : Reader Expr := do
  let word ← expect (.keyword .letWord)
  let bindings ← g.bindings (.keyword .inWord)
  let _ ← require (.keyword .inWord) .inAfterLet
  let target ← g.expr
  return ⟨word.span.join target.span, .letIn bindings target⟩

/-- A conditional. -/
def conditional : Reader Expr := do
  let word ← expect (.keyword .ifWord)
  let condition ← g.expr
  let _ ← expect (.keyword .thenWord)
  let yes ← g.expr
  let _ ← expect (.keyword .elseWord)
  let no ← g.expr
  return ⟨word.span.join no.span, .ifThenElse condition yes no⟩

/-- The kinds of the next four tokens, which decide how an expression is read. -/
def lookahead : Reader (List TokenKind) := fun ts =>
  .ok ((ts.take 4).map Token.kind, ts)

/-- Any expression. -/
def expression : Reader Expr := do
  match (← lookahead) with
  | .identifier :: .colon :: _ => g.simpleFunction
  | .identifier :: .atSign :: .braceOpen :: _ => g.namedFunction
  | .braceOpen :: next => if opensParameters next then g.listFunction else g.operation
  | .keyword .assertWord :: _ => g.guarded .assertWord .assertion
  | .keyword .withWord :: _ => g.guarded .withWord .withScope
  | .keyword .letWord :: .braceOpen :: _ => g.operation
  | .keyword .letWord :: _ => g.letIn
  | .keyword .ifWord :: _ => g.conditional
  | _ => g.operation

/-! ## The knot -/

/-- Readers for expressions that nest at most `n` deep. -/
def limit : Nat → Nested
  | 0 => ⟨refuse .expression, refuse .expression⟩
  | n + 1 => ⟨(limit n).expression, (limit n).select⟩

end Nested

/-- An expression that takes up all the tokens. -/
def whole (ts : List Token) : Except Fault Expr := do
  let (e, rest) ← (Nested.limit (ts.length + 1)).expr ts
  if rest.isEmpty then return e
  throw (.unexpected rest.head? .endOfFile)

end Grammar
end FlakeInputs
