import FlakeInputs.SyntaxError
import FlakeInputs.Token.Literal
import FlakeInputs.Token.Word

/-!
# Scanning

A text is cut into pieces from left to right: tokens, and the gaps between them.
Inside a string literal other rules hold than outside, so the scanner keeps a
stack of the delimiters that are open.

Pieces know nothing of their positions.  Every piece is a stretch of the text,
so positions follow from the pieces before it.
-/

namespace FlakeInputs
namespace Scan

/-- A delimiter that is still open.  Outside of all of them, and inside `interp`
and `brace`, the text is read as an expression. -/
inductive Mode
  | quoted
  | indented
  | interp
  | brace
deriving DecidableEq, Repr

/-- Whether the innermost open delimiter is that of a string literal. -/
def inString : List Mode → Bool
  | .quoted :: _ => true
  | .indented :: _ => true
  | _ => false

/-- A stretch of the text: a token, or blanks and comments between tokens. -/
inductive Piece
  | gap (text : Text)
  | token (kind : TokenKind) (lexeme : Text)
deriving DecidableEq, Repr

/-- The text of a piece. -/
def Piece.text : Piece → Text
  | .gap t => t
  | .token _ t => t

/-- What one step of the scanner takes off the text. -/
structure Step where
  pieces : List Piece
  modes : List Mode
  rest : Text
deriving DecidableEq, Repr

/-- Why and where the text cannot be cut further: the problem, the text before
the faulty stretch, and that stretch. -/
structure Fault where
  problem : SyntaxProblem
  before : Text
  within : Text
deriving DecidableEq, Repr

/-- The span of the faulty stretch. -/
def Fault.span (f : Fault) : Span :=
  let start := Position.start.after f.before
  ⟨start, start.after f.within⟩

/-- Blanks between tokens. -/
def isGap (c : Char) : Bool :=
  c == ' ' || c == '\t' || c == '\r' || c == '\n'

/-- The tokens of fixed spelling; of two that fit, the earlier is meant. -/
def punctuation : List (String × TokenKind) :=
  [("...", .ellipsis), ("==", .operator .equal), ("!=", .operator .notEqual),
   ("<=", .operator .lessEq), (">=", .operator .greaterEq), ("&&", .operator .conj),
   ("||", .operator .disj), ("->", .operator .implies), ("//", .operator .update),
   ("++", .operator .concat), ("|>", .operator .pipeRight), ("<|", .operator .pipeLeft),
   ("[", .bracketOpen), ("]", .bracketClose), ("(", .parenOpen), (")", .parenClose),
   (";", .semicolon), (",", .comma), (".", .dot), ("=", .assign), (":", .colon),
   ("@", .atSign), ("?", .question), ("+", .operator .plus), ("-", .operator .minus),
   ("*", .operator .times), ("/", .operator .divide), ("!", .bang),
   ("<", .operator .less), (">", .operator .greater)]

/-- The token of fixed spelling with which a text begins. -/
def punctuation? (t : Text) : Option (TokenKind × Text) :=
  punctuation.findSome? fun (symbol, kind) =>
    if symbol.toList.isPrefixOf t then some (kind, symbol.toList) else none

/-- A delimiter that opens or closes a mode.  A closing brace closes whatever is
open. -/
def delimiter? (modes : List Mode) : Text → Option Step
  | '"' :: t => some ⟨[.token .quote ['"']], .quoted :: modes, t⟩
  | '\x27' :: '\x27' :: t =>
    some ⟨[.token .indentQuote ['\x27', '\x27']], .indented :: modes, t⟩
  | '$' :: '{' :: t => some ⟨[.token .interpolation ['$', '{']], .interp :: modes, t⟩
  | '{' :: t => some ⟨[.token .braceOpen ['{']], .brace :: modes, t⟩
  | '}' :: t => some ⟨[.token .braceClose ['}']], modes.tail, t⟩
  | _ => none

/-- The kind of a word: an identifier that is reserved is a keyword. -/
def wordKind (kind : TokenKind) (lexeme : Text) : TokenKind :=
  match kind, Keyword.ofText? lexeme with
  | .identifier, some k => .keyword k
  | kind, _ => kind

/-- The longest word, or else the token of fixed spelling, at the start of the
text `c :: t`. -/
def word (c : Char) (t : Text) : Except SyntaxProblem (TokenKind × Text) :=
  match Word.longest? (c :: t) with
  | some (kind, lexeme) =>
    if kind = .path ∧ lexeme.getLast? = some '/' then .error (.trailingSlash lexeme)
    else .ok (wordKind kind lexeme, lexeme)
  | none =>
    match punctuation? (c :: t) with
    | some found => .ok found
    | none => .error (.unexpectedCharacter c)

/-- One step through a token of an expression. -/
def tokenStep (modes : List Mode) (c : Char) (t : Text) : Except Fault Step :=
  match delimiter? modes (c :: t) with
  | some step => .ok step
  | none =>
    match word c t with
    | .error problem => .error ⟨problem, [], []⟩
    | .ok (kind, lexeme) =>
      .ok ⟨[.token kind lexeme], modes, (c :: t).drop lexeme.length⟩

/-- One step through an expression: a blank, a comment or a token. -/
def bareStep (modes : List Mode) (c : Char) (t : Text) : Except Fault Step :=
  if isGap c then .ok ⟨[.gap [c]], modes, t⟩
  else if c = '#' then
    .ok ⟨[.gap (c :: t.takeWhile (· != '\n'))], modes, t.dropWhile (· != '\n')⟩
  else
    match c, t with
    | '/', '*' :: r =>
      match Literal.comment? r with
      | some (body, rest) => .ok ⟨[.gap ('/' :: '*' :: body)], modes, rest⟩
      | none => .error ⟨.unterminatedComment, [], c :: t⟩
    | _, _ => tokenStep modes c t

/-- One step through a string literal: a stretch of text and what ends it. -/
def stringStep (closing : Piece) (mode : Mode) (outer : List Mode)
    (body : Option Literal.Body) (t : Text) : Except Fault Step :=
  match body with
  | none => .error ⟨.unterminatedString, t, []⟩
  | some ⟨text, .delimiter, rest⟩ => .ok ⟨[.token .text text, closing], outer, rest⟩
  | some ⟨text, .interpolation, rest⟩ =>
    .ok ⟨[.token .text text, .token .interpolation ['$', '{']], .interp :: mode :: outer, rest⟩

/-- One step through the text `c :: t`, by the innermost open delimiter. -/
def step (modes : List Mode) (c : Char) (t : Text) : Except Fault Step :=
  match modes with
  | .quoted :: outer =>
    stringStep (.token .quote ['"']) .quoted outer (Literal.quoted? (c :: t)) (c :: t)
  | .indented :: outer =>
    stringStep (.token .indentQuote ['\x27', '\x27']) .indented outer
      (Literal.indented? (c :: t)) (c :: t)
  | modes => bareStep modes c t

/-! ## Progress -/

theorem length_delimiter?_rest {modes : List Mode} {t : Text} {s : Step}
    (h : delimiter? modes t = some s) : s.rest.length < t.length := by
  unfold delimiter? at h
  split at h <;> grind

theorem punctuation?_ne_nil {t lexeme : Text} {kind : TokenKind}
    (h : punctuation? t = some (kind, lexeme)) : lexeme ≠ [] := by
  obtain ⟨⟨symbol, k⟩, hmem, heq⟩ := List.exists_of_findSome?_eq_some h
  dsimp only at heq
  split at heq
  · simp only [Option.some.injEq, Prod.mk.injEq] at heq
    obtain ⟨-, rfl⟩ := heq
    have hall : ∀ entry ∈ punctuation, entry.1.toList ≠ [] := by decide
    exact hall _ hmem
  · simp at heq

theorem word_ne_nil {c : Char} {t lexeme : Text} {kind : TokenKind}
    (h : word c t = .ok (kind, lexeme)) : lexeme ≠ [] := by
  unfold word at h
  split at h
  · next k l hl =>
    split at h
    · simp at h
    · simp only [Except.ok.injEq, Prod.mk.injEq] at h
      obtain ⟨-, rfl⟩ := h
      exact Word.longest?_ne_nil hl
  · split at h
    · next found hp =>
      simp only [Except.ok.injEq] at h
      subst h
      exact punctuation?_ne_nil hp
    · simp at h

theorem length_tokenStep_rest {modes : List Mode} {c : Char} {t : Text} {s : Step}
    (h : tokenStep modes c t = .ok s) : s.rest.length < (c :: t).length := by
  unfold tokenStep at h
  split at h
  · next st hd =>
    obtain rfl := Except.ok.inj h
    exact length_delimiter?_rest hd
  · split at h
    · simp at h
    · next kind lexeme hw =>
      obtain rfl := Except.ok.inj h
      have := List.length_pos_iff.2 (word_ne_nil hw)
      simp
      omega

theorem length_bareStep_rest {modes : List Mode} {c : Char} {t : Text} {s : Step}
    (h : bareStep modes c t = .ok s) : s.rest.length < (c :: t).length := by
  unfold bareStep at h
  split at h
  · obtain rfl := Except.ok.inj h
    simp
  · split at h
    · obtain rfl := Except.ok.inj h
      have := (List.dropWhile_sublist (p := (· != '\n')) (l := t)).length_le
      simp
      omega
    · split at h
      · next r _ _ _ =>
        split at h
        · next body rest hc =>
          obtain rfl := Except.ok.inj h
          simp [Literal.comment?_text hc]
          omega
        · simp at h
      · exact length_tokenStep_rest h

theorem length_stringStep_rest {closing : Piece} {mode : Mode} {outer : List Mode}
    {body : Option Literal.Body} {t : Text} {s : Step}
    (hbody : ∀ b, body = some b → ∃ mark : Text, mark ≠ [] ∧ t = b.text ++ mark ++ b.rest)
    (h : stringStep closing mode outer body t = .ok s) : s.rest.length < t.length := by
  unfold stringStep at h
  split at h
  · simp at h
  all_goals
    obtain rfl := Except.ok.inj h
    obtain ⟨mark, hm, rfl⟩ := hbody _ rfl
    have := List.length_pos_iff.2 hm
    simp
    omega

/-- Every step takes something off the text. -/
theorem length_step_rest {modes : List Mode} {c : Char} {t : Text} {s : Step}
    (h : step modes c t = .ok s) : s.rest.length < (c :: t).length := by
  unfold step at h
  split at h
  · exact length_stringStep_rest (fun _ hb => Literal.quoted?_text hb) h
  · exact length_stringStep_rest (fun _ hb => Literal.indented?_text hb) h
  · exact length_bareStep_rest h

/-! ## The scanner -/

/-- The text that a step takes off. -/
def Step.text (s : Step) : Text :=
  s.pieces.flatMap Piece.text

/-- The same fault in a longer text. -/
def Fault.behind (t : Text) (f : Fault) : Fault :=
  { f with before := t ++ f.before }

/-- The pieces of a text, read with the delimiters `modes` open. -/
def pieces (modes : List Mode) (t : Text) : Except Fault (List Piece) :=
  match t with
  | [] => if inString modes then .error ⟨.unterminatedString, [], []⟩ else .ok []
  | c :: t =>
    match _h : step modes c t with
    | .error fault => .error fault
    | .ok s =>
      match pieces s.modes s.rest with
      | .error fault => .error (fault.behind s.text)
      | .ok ps => .ok (s.pieces ++ ps)
termination_by t.length
decreasing_by exact length_step_rest _h

end Scan
end FlakeInputs
