import FlakeInputs.Grammar.Expression
import FlakeInputs.Proofs.Grammar.Readers

/-!
# Derivations

The grammar of expressions as a relation between tokens and what they spell,
apart from any reader.  A derivation says nothing about the tokens that follow
the derived ones: which tokens can follow is a matter of the readers.

Each symbol of the grammar has its own type of values.  Lists of phrases are
symbols too, so that one induction goes through the whole grammar.
-/

namespace FlakeInputs
namespace Grammar

/-- The two towers of operator levels: looser than `!`, and tighter. -/
inductive Tower
  | loose
  | tight
deriving DecidableEq

/-- The symbols of the grammar. -/
inductive Symbol
  | expr
  | levels (tower : Tower) (table : List Level)
  | links (tower : Tower) (level : Level) (table : List Level)
  | complemented
  | attrTest
  | negated
  | application
  | arguments
  | select
  | simple
  | elements
  | interpolation
  | parts (delimiter : TokenKind)
  | literal (delimiter : TokenKind) (closing : Expected)
  | key
  | pathRest
  | attrPath
  | names
  | keyValue
  | binding
  | bindings (closing : TokenKind)
  | attrSet
  | parameter
  | entries
  | parameterList (whole? : Option Text)

/-- What a phrase of a symbol spells. -/
abbrev Symbol.Val : Symbol → Type
  | links _ _ _ => List (Operator × Expr)
  | arguments | elements => List Expr
  | interpolation => Span × Expr
  | parts _ => List Part
  | literal _ _ => Span × List Part
  | key => Key
  | pathRest | names => List Key
  | attrPath => Span × List Key
  | keyValue => KeyValue
  | binding => Binding
  | bindings _ => List Binding
  | attrSet => Span × List Binding
  | parameter => Parameter
  | entries => List (Option Parameter)
  | parameterList _ => ParameterList
  | _ => Expr

/-- The expression that applies a function to arguments, one after the other. -/
def applyAll (function : Expr) (arguments : List Expr) : Expr :=
  arguments.foldl (fun f a => ⟨f.span.join a.span, .apply f a⟩) function

/-- The span of the last key of a path. -/
def lastSpan (first : Key) (rest : List Key) : Span :=
  (rest.getLast?.getD first).span

/-- The tokens `p` are a phrase of the symbol `s` that spells `v`. -/
inductive Derives : (s : Symbol) → List Token → s.Val → Prop
  | simpleFunction {name colon : Token} {p : List Token} {body : Expr}
      (hname : name.kind = .identifier) (hcolon : colon.kind = .colon)
      (hbody : Derives .expr p body) :
      Derives .expr (name :: colon :: p)
        ⟨name.span.join body.span, .function (.simple name.span name.lexeme) body⟩
  | namedFunction {name atSign colon : Token} {p q : List Token} {list : ParameterList}
      {body : Expr}
      (hname : name.kind = .identifier) (hat : atSign.kind = .atSign)
      (hlist : Derives (.parameterList (some name.lexeme)) p list)
      (hcolon : colon.kind = .colon) (hbody : Derives .expr q body) :
      Derives .expr (name :: atSign :: (p ++ colon :: q))
        ⟨name.span.join body.span, .function (.destructured list) body⟩
  | listFunction {colon : Token} {p q : List Token} {list : ParameterList} {body : Expr}
      (hlist : Derives (.parameterList none) p list) (hcolon : colon.kind = .colon)
      (hbody : Derives .expr q body) :
      Derives .expr (p ++ colon :: q)
        ⟨list.span.join body.span, .function (.destructured { list with whole? := none }) body⟩
  | aliasedFunction {atSign name colon : Token} {p q : List Token} {list : ParameterList}
      {body : Expr}
      (hlist : Derives (.parameterList none) p list) (hat : atSign.kind = .atSign)
      (hname : name.kind = .identifier) (hcolon : colon.kind = .colon)
      (hbody : Derives .expr q body) :
      Derives .expr (p ++ atSign :: name :: colon :: q)
        ⟨list.span.join body.span,
          .function (.destructured { list with whole? := some name.lexeme }) body⟩
  | assertion {word semicolon : Token} {p q : List Token} {condition target : Expr}
      (hword : word.kind = .keyword .assertWord) (hcondition : Derives .expr p condition)
      (hsemicolon : semicolon.kind = .semicolon) (htarget : Derives .expr q target) :
      Derives .expr (word :: (p ++ semicolon :: q))
        ⟨word.span.join target.span, .assertion condition target⟩
  | withScope {word semicolon : Token} {p q : List Token} {scope target : Expr}
      (hword : word.kind = .keyword .withWord) (hscope : Derives .expr p scope)
      (hsemicolon : semicolon.kind = .semicolon) (htarget : Derives .expr q target) :
      Derives .expr (word :: (p ++ semicolon :: q))
        ⟨word.span.join target.span, .withScope scope target⟩
  | letIn {word inWord : Token} {p q : List Token} {bindings : List Binding} {target : Expr}
      (hword : word.kind = .keyword .letWord)
      (hbindings : Derives (.bindings (.keyword .inWord)) p bindings)
      (hin : inWord.kind = .keyword .inWord) (htarget : Derives .expr q target) :
      Derives .expr (word :: (p ++ inWord :: q))
        ⟨word.span.join target.span, .letIn bindings target⟩
  | conditional {word thenWord elseWord : Token} {p q r : List Token} {condition yes no : Expr}
      (hword : word.kind = .keyword .ifWord) (hcondition : Derives .expr p condition)
      (hthen : thenWord.kind = .keyword .thenWord) (hyes : Derives .expr q yes)
      (helse : elseWord.kind = .keyword .elseWord) (hno : Derives .expr r no) :
      Derives .expr (word :: (p ++ thenWord :: (q ++ elseWord :: r)))
        ⟨word.span.join no.span, .ifThenElse condition yes no⟩
  | operation {p : List Token} {e : Expr} (h : Derives (.levels .loose looseLevels) p e) :
      Derives .expr p e
  | complementedBase {p : List Token} {e : Expr} (h : Derives .complemented p e) :
      Derives (.levels .loose []) p e
  | attrTestBase {p : List Token} {e : Expr} (h : Derives .attrTest p e) :
      Derives (.levels .tight []) p e
  | chain {tower : Tower} {level : Level} {table : List Level} {p q : List Token} {first : Expr}
      {rest : List (Operator × Expr)}
      (hfirst : Derives (.levels tower table) p first)
      (hrest : Derives (.links tower level table) q rest) :
      Derives (.levels tower (level :: table)) (p ++ q) (level.tree first rest)
  | noLink {tower : Tower} {level : Level} {table : List Level} :
      Derives (.links tower level table) [] []
  | link {tower : Tower} {level : Level} {table : List Level} {op : Operator} {sign : Token}
      {p q : List Token} {right : Expr} {rest : List (Operator × Expr)}
      (hsign : sign.kind = .operator op) (hop : op ∈ level.operators)
      (hright : Derives (.levels tower table) p right)
      (hrest : Derives (.links tower level table) q rest)
      (hsingle : level.grouping = .single → q = []) :
      Derives (.links tower level table) (sign :: (p ++ q)) ((op, right) :: rest)
  | uncomplemented {p : List Token} {e : Expr} (h : Derives (.levels .tight tightLevels) p e) :
      Derives .complemented p e
  | complement {sign : Token} {p : List Token} {e : Expr} (hsign : sign.kind = .bang)
      (h : Derives .complemented p e) :
      Derives .complemented (sign :: p) ⟨sign.span.join e.span, .complement e⟩
  | untested {p : List Token} {e : Expr} (h : Derives .negated p e) : Derives .attrTest p e
  | hasAttr {question : Token} {p q : List Token} {source : Expr} {span : Span}
      {path : List Key}
      (hsource : Derives .negated p source) (hquestion : question.kind = .question)
      (hpath : Derives .attrPath q (span, path)) :
      Derives .attrTest (p ++ question :: q) ⟨source.span.join span, .hasAttr source path⟩
  | unnegated {p : List Token} {e : Expr} (h : Derives .application p e) :
      Derives .negated p e
  | negate {sign : Token} {p : List Token} {e : Expr} (hsign : sign.kind = .operator .minus)
      (h : Derives .negated p e) :
      Derives .negated (sign :: p) ⟨sign.span.join e.span, .negate e⟩
  | apply {p q : List Token} {function : Expr} {arguments : List Expr}
      (hfunction : Derives .select p function) (harguments : Derives .arguments q arguments) :
      Derives .application (p ++ q) (applyAll function arguments)
  | noArgument : Derives .arguments [] []
  | argument {p q : List Token} {e : Expr} {es : List Expr}
      (he : Derives .select p e) (hes : Derives .arguments q es) :
      Derives .arguments (p ++ q) (e :: es)
  | unselected {p : List Token} {e : Expr} (h : Derives .simple p e) : Derives .select p e
  | selection {dot : Token} {p q : List Token} {source : Expr} {span : Span} {path : List Key}
      (hsource : Derives .simple p source) (hdot : dot.kind = .dot)
      (hpath : Derives .attrPath q (span, path)) :
      Derives .select (p ++ dot :: q) ⟨source.span.join span, .select source path none⟩
  | selectionOr {dot orWord : Token} {p q r : List Token} {source default : Expr} {span : Span}
      {path : List Key}
      (hsource : Derives .simple p source) (hdot : dot.kind = .dot)
      (hpath : Derives .attrPath q (span, path)) (hor : orWord.kind = .keyword .orWord)
      (hdefault : Derives .select r default) :
      Derives .select (p ++ dot :: (q ++ orWord :: r))
        ⟨source.span.join default.span, .select source path (some default)⟩
  | identifier {t : Token} (h : t.kind = .identifier) :
      Derives .simple [t] ⟨t.span, .identifier t.lexeme⟩
  | integer {t : Token} (h : t.kind = .integer) (hlength : t.lexeme.length ≤ maxIntegerDigits) :
      Derives .simple [t] ⟨t.span, .integer (digitsValue t.lexeme)⟩
  | float {t : Token} (h : t.kind = .float) :
      Derives .simple [t] ⟨t.span, .float (.ofText t.lexeme)⟩
  | path {t : Token} (h : t.kind = .path) : Derives .simple [t] ⟨t.span, .path t.lexeme⟩
  | searchPath {t : Token} (h : t.kind = .searchPath) :
      Derives .simple [t] ⟨t.span, .searchPath (t.lexeme.drop 1).dropLast⟩
  | uri {t : Token} (h : t.kind = .uri) : Derives .simple [t] ⟨t.span, .uri t.lexeme⟩
  | string {p : List Token} {span : Span} {parts : List Part}
      (h : Derives (.literal .quote .closingString) p (span, parts)) :
      Derives .simple p ⟨span, .string parts⟩
  | indentedString {p : List Token} {span : Span} {parts : List Part}
      (h : Derives (.literal .indentQuote .closingIndented) p (span, parts)) :
      Derives .simple p ⟨span, .indentedString parts⟩
  | parenthesised {opening closing : Token} {p : List Token} {e : Expr}
      (hopening : opening.kind = .parenOpen) (h : Derives .expr p e)
      (hclosing : closing.kind = .parenClose) :
      Derives .simple (opening :: (p ++ [closing])) e
  | recSet {word : Token} {p : List Token} {span : Span} {bindings : List Binding}
      (hword : word.kind = .keyword .recWord) (h : Derives .attrSet p (span, bindings)) :
      Derives .simple (word :: p) ⟨word.span.join span, .map bindings true⟩
  | map {p : List Token} {span : Span} {bindings : List Binding}
      (h : Derives .attrSet p (span, bindings)) :
      Derives .simple p ⟨span, .map bindings false⟩
  | list {opening closing : Token} {p : List Token} {elements : List Expr}
      (hopening : opening.kind = .bracketOpen) (h : Derives .elements p elements)
      (hclosing : closing.kind = .bracketClose) :
      Derives .simple (opening :: (p ++ [closing]))
        ⟨opening.span.join closing.span, .list elements⟩
  | noElement : Derives .elements [] []
  | element {p q : List Token} {e : Expr} {es : List Expr}
      (he : Derives .select p e) (hes : Derives .elements q es) :
      Derives .elements (p ++ q) (e :: es)
  | interpolation {opening closing : Token} {p : List Token} {e : Expr}
      (hopening : opening.kind = .interpolation) (h : Derives .expr p e)
      (hclosing : closing.kind = .braceClose) :
      Derives .interpolation (opening :: (p ++ [closing])) (opening.span.join closing.span, e)
  | noPart {delimiter : TokenKind} : Derives (.parts delimiter) [] []
  | textPart {delimiter : TokenKind} {t : Token} {q : List Token} {parts : List Part}
      (h : t.kind = .text) (hparts : Derives (.parts delimiter) q parts) :
      Derives (.parts delimiter) (t :: q) (.text t.span t.lexeme :: parts)
  | interpolationPart {delimiter : TokenKind} {p q : List Token} {span : Span} {e : Expr}
      {parts : List Part}
      (h : Derives .interpolation p (span, e)) (hparts : Derives (.parts delimiter) q parts) :
      Derives (.parts delimiter) (p ++ q) (.interpolation span e :: parts)
  | literal {delimiter : TokenKind} {expected : Expected} {opening closing : Token}
      {p : List Token} {parts : List Part}
      (hopening : opening.kind = delimiter) (h : Derives (.parts delimiter) p parts)
      (hclosing : closing.kind = delimiter) :
      Derives (.literal delimiter expected) (opening :: (p ++ [closing]))
        (opening.span.join closing.span, Part.compact parts)
  | bareKey {t : Token} (h : t.kind = .identifier ∨ t.kind = .keyword .orWord) :
      Derives .key [t] (.bare t.span t.lexeme)
  | quotedKey {p : List Token} {span : Span} {parts : List Part}
      (h : Derives (.literal .quote .closingString) p (span, parts)) :
      Derives .key p (.quoted span parts)
  | computedKey {p : List Token} {span : Span} {e : Expr}
      (h : Derives .interpolation p (span, e)) :
      Derives .key p (.computed span e)
  | pathEnd : Derives .pathRest [] []
  | pathStep {dot : Token} {p q : List Token} {k : Key} {ks : List Key}
      (hdot : dot.kind = .dot) (hk : Derives .key p k) (hks : Derives .pathRest q ks) :
      Derives .pathRest (dot :: (p ++ q)) (k :: ks)
  | attrPath {p q : List Token} {k : Key} {ks : List Key}
      (hk : Derives .key p k) (hks : Derives .pathRest q ks) :
      Derives .attrPath (p ++ q) (k.span.join (lastSpan k ks), k :: ks)
  | noName : Derives .names [] []
  | name {p q : List Token} {k : Key} {ks : List Key}
      (hk : Derives .key p k) (hks : Derives .names q ks) :
      Derives .names (p ++ q) (k :: ks)
  | keyValue {assign semicolon : Token} {p q : List Token} {span : Span} {path : List Key}
      {value : Expr}
      (hpath : Derives .attrPath p (span, path)) (hassign : assign.kind = .assign)
      (hvalue : Derives .expr q value) (hsemicolon : semicolon.kind = .semicolon) :
      Derives .keyValue (p ++ assign :: (q ++ [semicolon]))
        ⟨span.join semicolon.span, path, value⟩
  | keyValueBinding {p : List Token} {b : KeyValue} (h : Derives .keyValue p b) :
      Derives .binding p (.keyValue b)
  | inherited {word semicolon : Token} {p : List Token} {names : List Key}
      (hword : word.kind = .keyword .inheritWord) (hnames : Derives .names p names)
      (hsemicolon : semicolon.kind = .semicolon) :
      Derives .binding (word :: (p ++ [semicolon]))
        (.inherited (word.span.join semicolon.span) names none)
  | inheritedFrom {word opening closing semicolon : Token} {p q : List Token} {source : Expr}
      {names : List Key}
      (hword : word.kind = .keyword .inheritWord) (hopening : opening.kind = .parenOpen)
      (hsource : Derives .expr p source) (hclosing : closing.kind = .parenClose)
      (hnames : Derives .names q names) (hsemicolon : semicolon.kind = .semicolon) :
      Derives .binding (word :: opening :: (p ++ closing :: (q ++ [semicolon])))
        (.inherited (word.span.join semicolon.span) names (some source))
  | noBinding {closing : TokenKind} : Derives (.bindings closing) [] []
  | bindings {closing : TokenKind} {p q : List Token} {b : Binding} {bs : List Binding}
      (hb : Derives .binding p b) (hbs : Derives (.bindings closing) q bs) :
      Derives (.bindings closing) (p ++ q) (b :: bs)
  | attrSet {opening closing : Token} {p : List Token} {bindings : List Binding}
      (hopening : opening.kind = .braceOpen)
      (h : Derives (.bindings .braceClose) p bindings) (hclosing : closing.kind = .braceClose) :
      Derives .attrSet (opening :: (p ++ [closing])) (opening.span.join closing.span, bindings)
  | parameter {name : Token} (hname : name.kind = .identifier) :
      Derives .parameter [name] ⟨name.span.join name.span, name.lexeme, none⟩
  | parameterOr {name question : Token} {p : List Token} {default : Expr}
      (hname : name.kind = .identifier) (hquestion : question.kind = .question)
      (hdefault : Derives .expr p default) :
      Derives .parameter (name :: question :: p)
        ⟨name.span.join default.span, name.lexeme, some default⟩
  | noEntry : Derives .entries [] []
  | ellipsis {t : Token} (h : t.kind = .ellipsis) : Derives .entries [t] [none]
  | lastEntry {p : List Token} {x : Parameter} (h : Derives .parameter p x) :
      Derives .entries p [some x]
  | entry {comma : Token} {p q : List Token} {x : Parameter} {xs : List (Option Parameter)}
      (h : Derives .parameter p x) (hcomma : comma.kind = .comma)
      (hxs : Derives .entries q xs) :
      Derives .entries (p ++ comma :: q) (some x :: xs)
  | parameterList {whole? : Option Text} {opening closing : Token} {p : List Token}
      {entries : List (Option Parameter)}
      (hopening : opening.kind = .braceOpen) (h : Derives .entries p entries)
      (hclosing : closing.kind = .braceClose) :
      Derives (.parameterList whole?) (opening :: (p ++ [closing]))
        ⟨opening.span.join closing.span, entries.filterMap id, entries.any Option.isNone, whole?⟩

/-! ## First tokens -/

open Nested (beginsArgument)

/-- Whether a token can begin a key. -/
def beginsKey (kind : Option TokenKind) : Bool :=
  kind ∈ [some .identifier, some (.keyword .orWord), some .quote, some .interpolation]

/-- Whether a token can begin a binding. -/
def beginsBinding (kind : Option TokenKind) : Bool :=
  beginsKey kind || kind == some (.keyword .inheritWord)

/-- Whether a token can begin an operand of a tower. -/
def Tower.begins (tower : Tower) (kind : Option TokenKind) : Bool :=
  beginsArgument kind || kind == some (.operator .minus) ||
    (tower == .loose && kind == some .bang)

/-- Whether a phrase can begin with a token of the given kind, or be empty if there
is none. -/
def Symbol.begins : Symbol → Option TokenKind → Bool
  | expr, kind =>
    Tower.loose.begins kind ||
      kind ∈ [some (.keyword .assertWord), some (.keyword .withWord), some (.keyword .letWord),
        some (.keyword .ifWord)]
  | levels tower _, kind => tower.begins kind
  | links _ level _, kind => kind.isNone || (level.operator? kind).isSome
  | complemented, kind => Tower.loose.begins kind
  | attrTest, kind | negated, kind => Tower.tight.begins kind
  | application, kind | select, kind | simple, kind => beginsArgument kind
  | arguments, kind | elements, kind => kind.isNone || beginsArgument kind
  | interpolation, kind => kind == some .interpolation
  | parts _, kind => kind ∈ [none, some .text, some .interpolation]
  | literal delimiter _, kind => kind == some delimiter
  | key, kind | attrPath, kind | keyValue, kind => beginsKey kind
  | pathRest, kind => kind.isNone || kind == some .dot
  | names, kind => kind.isNone || beginsKey kind
  | binding, kind => beginsBinding kind
  | bindings _, kind => kind.isNone || beginsBinding kind
  | attrSet, kind | parameterList _, kind => kind == some .braceOpen
  | parameter, kind => kind == some .identifier
  | entries, kind => kind ∈ [none, some .identifier, some .ellipsis]

theorem Tower.begins_none (tower : Tower) : tower.begins none = false := by
  cases tower <;> rfl

theorem ne_nil_of_begins {f : Option TokenKind → Bool} (hf : f none = false)
    {p : List Token} (h : f (headKind p) = true) : p ≠ [] := by
  rintro rfl
  simp [hf] at h

theorem headKind_append_of_begins {f : Option TokenKind → Bool} (hf : f none = false)
    {p : List Token} (h : f (headKind p) = true) (q : List Token) :
    headKind (p ++ q) = headKind p :=
  headKind_append_of_ne_nil (ne_nil_of_begins hf h) q

/-- A phrase begins with a token that can begin one. -/
theorem Derives.begins {s : Symbol} {p : List Token} {v : s.Val} (h : Derives s p v) :
    s.begins (headKind p) = true := by
  induction h with
  | simpleFunction h | namedFunction h | assertion h | withScope h | letIn h | conditional h
  | complement h | negate h | identifier h | integer h | float h | path h | searchPath h | uri h
  | parenthesised h | recSet h | list h | interpolation h | textPart h | literal h
  | pathStep h | inherited h | inheritedFrom h | attrSet h | parameter h | parameterOr h
  | ellipsis h | parameterList h =>
    simp [Symbol.begins, Tower.begins, beginsArgument, beginsBinding, h]
  | bareKey h => rcases h with h | h <;> simp [Symbol.begins, beginsKey, h]
  | noLink | noArgument | noElement | noPart | pathEnd | noName | noBinding | noEntry => rfl
  | link hsign hop => simp [Symbol.begins, Level.operator?, hsign, hop]
  | operation _ ih | complementedBase _ ih | attrTestBase _ ih | untested _ ih | unselected _ ih
  | uncomplemented _ ih | unnegated _ ih | lastEntry _ ih | quotedKey _ ih | computedKey _ ih
  | string _ ih | indentedString _ ih | map _ ih | keyValueBinding _ ih =>
    simp_all [Symbol.begins, Tower.begins, beginsArgument, beginsBinding, beginsKey]
  | chain _ _ ih =>
    rw [headKind_append_of_begins (Tower.begins_none _) ih]
    exact ih
  | listFunction _ _ _ ih | aliasedFunction _ _ _ _ _ ih | hasAttr _ _ _ ih | apply _ _ ih
  | argument _ _ ih | selection _ _ _ ih | selectionOr _ _ _ _ _ ih | element _ _ ih
  | interpolationPart _ _ ih | attrPath _ _ ih | name _ _ ih | keyValue _ _ _ _ ih
  | bindings _ _ ih | entry _ _ _ ih =>
    rw [headKind_append_of_begins rfl ih]
    simp_all [Symbol.begins, Tower.begins, beginsArgument]

theorem Derives.ne_nil {s : Symbol} {p : List Token} {v : s.Val} (h : Derives s p v)
    (hs : s.begins none = false) : p ≠ [] :=
  ne_nil_of_begins hs h.begins

end Grammar
end FlakeInputs
