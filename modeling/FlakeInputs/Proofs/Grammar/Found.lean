import FlakeInputs.Proofs.Grammar.Soundness

/-!
# Phrases that are found

A reader takes a phrase of its symbol off the tokens if the token behind the phrase
cannot continue it, and if it may nest as deep as the phrase has tokens.  So it is for
strings, keys and bindings when it is so for the phrases in them.
-/

namespace FlakeInputs
namespace Grammar

open Nested (beginsArgument opensParameters)

/-- The levels of a tower, the loosest first. -/
def Tower.table : Tower → List Level
  | loose => looseLevels
  | tight => tightLevels

/-- Whether a token can continue a selection. -/
def continuesSelect (kind : Option TokenKind) : Bool :=
  kind == some .dot || kind == some (.keyword .orWord)

/-- Whether a token can continue an application. -/
def continuesApplication (kind : Option TokenKind) : Bool :=
  continuesSelect kind || beginsArgument kind

/-- Whether a token can continue a test for an attribute. -/
def continuesTest (kind : Option TokenKind) : Bool :=
  continuesApplication kind || kind == some .question

/-- Whether a token is an operator of one of the given levels. -/
def continuesLevels (table : List Level) (kind : Option TokenKind) : Bool :=
  table.any fun level => (level.operator? kind).isSome

/-- Whether a token can continue an operand at the bottom of a tower. -/
def Tower.continues : Tower → Option TokenKind → Bool
  | loose, kind => continuesLevels tightLevels kind || continuesTest kind
  | tight, kind => continuesTest kind

/-- Whether a token behind a phrase can make a reader go on.  Lists of phrases that
something closes go on up to that token.  Nothing is claimed for tables of levels that
are no tail of their tower, nor for closing tokens that can stand in the list. -/
def Symbol.continues : Symbol → Option TokenKind → Bool
  | expr, kind | parameter, kind =>
    continuesLevels looseLevels kind || Tower.loose.continues kind ||
      (kind == some .colon || kind == some .atSign)
  | levels tower table, kind =>
    !table.isSuffixOf tower.table || continuesLevels table kind || tower.continues kind
  | links tower level table, kind =>
    !(level :: table).isSuffixOf tower.table || continuesLevels (level :: table) kind ||
      tower.continues kind
  | complemented, kind => Tower.loose.continues kind
  | attrTest, kind => continuesTest kind
  | negated, kind | application, kind | arguments, kind => continuesApplication kind
  | select, kind => continuesSelect kind
  | elements, kind => kind != some .bracketClose
  | parts delimiter, kind =>
    kind != some delimiter || delimiter ∈ [TokenKind.text, TokenKind.interpolation]
  | literal delimiter _, _ => delimiter ∈ [TokenKind.text, TokenKind.interpolation]
  | pathRest, kind | attrPath, kind => kind == some .dot
  | names, kind => kind != some .semicolon
  | bindings closing, kind => kind != some closing || beginsBinding (some closing)
  | entries, kind => kind != some .braceClose
  | simple, _ | interpolation, _ | key, _ | keyValue, _ | binding, _ | attrSet, _
  | parameterList _, _ => false

namespace Nested

/-- The reader for the operands at the bottom of a tower. -/
def base (g : Nested) : Tower → Reader Expr
  | .loose => signed .bang .complement (Grammar.levels tightLevels g.attrTest)
  | .tight => g.attrTest

/-- The reader for a symbol. -/
def reader (g : Nested) : (s : Symbol) → Reader s.Val
  | .expr => g.expression
  | .levels tower table => Grammar.levels table (g.base tower)
  | .links tower level table => loop (level.link (Grammar.levels table (g.base tower)))
  | .complemented => g.base .loose
  | .attrTest => g.attrTest
  | .negated => signed (.operator .minus) .negate g.application
  | .application => g.application
  | .arguments => whileNext beginsArgument g.select
  | .select => g.select
  | .simple => g.simple
  | .elements => loop g.element
  | .interpolation => g.interpolation
  | .parts delimiter => loop (g.part delimiter)
  | .literal delimiter closing => g.literal delimiter closing
  | .key => g.key
  | .pathRest => whileNext (· == some .dot) do let _ ← expect .dot; g.key
  | .attrPath => g.attrPath
  | .names => whileNext (· != some .semicolon) g.key
  | .keyValue => g.keyValue
  | .binding => do
    if (← peek) = some (.keyword .inheritWord) then g.inherited else .keyValue <$> g.keyValue
  | .bindings closing => g.bindings closing
  | .attrSet => g.attrSet
  | .parameter => g.parameter
  | .entries => loop g.parameterEntry
  | .parameterList whole? => g.parameterList whole?

end Nested

/-- How much deeper than it has tokens a phrase may nest.  The elements of a list are
nested in it, but the bracket in front of them is no part of the elements. -/
def Symbol.margin : Symbol → Nat
  | elements => 1
  | _ => 0

/-- The reader for `s` takes the phrase `p` off any tokens in which it stops behind the
phrase, however the tokens go on from there. -/
def Found (s : Symbol) (p : List Token) (v : s.Val) : Prop :=
  ∀ n rest, p.length ≤ n → s.continues (headKind rest) = false →
    (Nested.limit (n + s.margin)).reader s (p ++ rest) = .ok (v, rest)

/-- A nested expression has one level less to nest in. -/
theorem Found.nested {p : List Token} {e : Expr} (h : Found .expr p e) {n : Nat}
    {rest : List Token} (hn : p.length < n)
    (hrest : Symbol.expr.continues (headKind rest) = false) :
    (Nested.limit n).expr (p ++ rest) = .ok (e, rest) := by
  obtain ⟨m, rfl⟩ := Nat.exists_eq_add_of_lt hn
  exact h (p.length + m) rest (Nat.le_add_right _ _) hrest

theorem Found.nestedOperand {p : List Token} {e : Expr} (h : Found .select p e) {n : Nat}
    {rest : List Token} (hn : p.length < n)
    (hrest : Symbol.select.continues (headKind rest) = false) :
    (Nested.limit n).operand (p ++ rest) = .ok (e, rest) := by
  obtain ⟨m, rfl⟩ := Nat.exists_eq_add_of_lt hn
  exact h (p.length + m) rest (Nat.le_add_right _ _) hrest

theorem continuesSelect_of_beginsArgument {kind : Option TokenKind}
    (h : beginsArgument kind = true) : continuesSelect kind = false := by
  cases kind with
  | none => rfl
  | some kind => cases kind <;> simp_all [beginsArgument, continuesSelect]

theorem exists_operator {level : Level} {kind : TokenKind}
    (h : (level.operator? (some kind)).isSome = true) :
    ∃ op, kind = .operator op ∧ op ∈ level.operators := by
  unfold Level.operator? at h
  split at h
  · next op heq =>
    split at h
    · next hop => exact ⟨op, Option.some.inj heq, hop⟩
    · contradiction
  · contradiction

theorem operator?_of_mem {level : Level} {op : Operator} (h : op ∈ level.operators) :
    level.operator? (some (.operator op)) = some op := by
  simp [Level.operator?, h]

/-- The operators of a level belong to no tighter level. -/
theorem operator_stops {tower : Tower} {level : Level} {table : List Level}
    (hsuffix : (level :: table).isSuffixOf tower.table = true) {op : Operator}
    (hop : op ∈ level.operators) :
    (Symbol.levels tower table).continues (some (.operator op)) = false := by
  have hcases := List.isSuffixOf_iff_suffix.1 hsuffix
  clear hsuffix
  revert op
  cases tower with
  | loose =>
    simp only [Tower.table, looseLevels, List.suffix_cons_iff, List.suffix_nil, List.cons.injEq,
      reduceCtorEq, or_false] at hcases
    rcases hcases with ⟨rfl, rfl⟩ | ⟨rfl, rfl⟩ | ⟨rfl, rfl⟩ | ⟨rfl, rfl⟩ | ⟨rfl, rfl⟩ |
      ⟨rfl, rfl⟩ | ⟨rfl, rfl⟩ | ⟨rfl, rfl⟩
    all_goals decide
  | tight =>
    simp only [Tower.table, tightLevels, List.suffix_cons_iff, List.suffix_nil, List.cons.injEq,
      reduceCtorEq, or_false] at hcases
    rcases hcases with ⟨rfl, rfl⟩ | ⟨rfl, rfl⟩ | ⟨rfl, rfl⟩
    all_goals decide

theorem length_lt_of_ne_nil {p : List Token} (hp : p ≠ []) (rest : List Token) :
    rest.length < (p ++ rest).length := by
  have := List.length_pos_iff.2 hp
  rw [List.length_append]
  omega

namespace Found

/-! ## Strings and keys -/

theorem interpolation {opening closing : Token} {p : List Token} {e : Expr}
    (hopening : opening.kind = .interpolation) (h : Found .expr p e)
    (hclosing : closing.kind = .braceClose) :
    Found .interpolation (opening :: (p ++ [closing])) (opening.span.join closing.span, e) := by
  intro n rest hn _
  have hlength : p.length < n := by simp at hn; omega
  simp only [Nested.reader, Nested.interpolation, bind_eq_ok, expect_eq_ok, require_eq_ok,
    pure_eq_ok, List.cons_append, List.append_assoc, List.nil_append]
  exact ⟨_, _, ⟨hopening, rfl⟩, _, _, h.nested hlength (by rw [headKind_cons, hclosing]; rfl),
    _, _, ⟨hclosing, rfl⟩, rfl⟩

theorem noPart {delimiter : TokenKind} : Found (.parts delimiter) [] [] := by
  intro n rest _ hrest
  simp only [Symbol.continues, Bool.or_eq_false_iff, bne_eq_false_iff_eq] at hrest
  apply loop_stop
  simp only [Nested.part, bind_eq_ok, peek_eq_ok]
  refine ⟨_, _, rfl, ?_⟩
  rw [List.nil_append, if_pos hrest.1]
  rfl

theorem textPart {delimiter : TokenKind} {t : Token} {q : List Token} {parts : List Part}
    (ht : t.kind = .text) (hparts : Found (.parts delimiter) q parts) :
    Found (.parts delimiter) (t :: q) (.text t.span t.lexeme :: parts) := by
  intro n rest hn hrest
  have hne : delimiter ≠ .text := by
    rintro rfl
    simp [Symbol.continues] at hrest
  refine loop_more ?_ (by simp) (hparts n rest (by simp at hn; omega) hrest)
  simp only [Nested.part, bind_eq_ok, peek_eq_ok]
  refine ⟨_, _, rfl, ?_⟩
  rw [List.cons_append, headKind_cons, ht, if_neg (by simpa using hne.symm), if_pos rfl]
  simp only [bind_eq_ok, expect_eq_ok]
  exact ⟨_, _, ⟨ht, rfl⟩, rfl⟩

theorem interpolationPart {delimiter : TokenKind} {p q : List Token} {span : Span} {e : Expr}
    {parts : List Part} (hp : Derives .interpolation p (span, e))
    (h : Found .interpolation p (span, e)) (hparts : Found (.parts delimiter) q parts) :
    Found (.parts delimiter) (p ++ q) (.interpolation span e :: parts) := by
  intro n rest hn hrest
  have hne : delimiter ≠ .interpolation := by
    rintro rfl
    simp [Symbol.continues] at hrest
  have hkind : headKind (p ++ (q ++ rest)) = some .interpolation := by
    rw [headKind_append_of_begins rfl hp.begins]
    simpa [Symbol.begins] using hp.begins
  rw [List.length_append] at hn
  rw [List.append_assoc]
  refine loop_more ?_ (length_lt_of_ne_nil (ne_nil_of_begins rfl hp.begins) _)
    (hparts n rest (by omega) hrest)
  simp only [Nested.part, bind_eq_ok, peek_eq_ok]
  refine ⟨_, _, rfl, ?_⟩
  rw [hkind, if_neg (by simpa using hne.symm), if_neg (by simp), if_pos rfl]
  simp only [bind_eq_ok]
  exact ⟨_, _, h n _ (by omega) rfl, rfl⟩

theorem literal {delimiter : TokenKind} {expected : Expected} {opening closing : Token}
    {p : List Token} {parts : List Part} (hopening : opening.kind = delimiter)
    (h : Found (.parts delimiter) p parts) (hclosing : closing.kind = delimiter) :
    Found (.literal delimiter expected) (opening :: (p ++ [closing]))
      (opening.span.join closing.span, Part.compact parts) := by
  intro n rest hn hrest
  have hlength : p.length ≤ n := by simp at hn; omega
  simp only [Nested.reader, Nested.literal, bind_eq_ok, expect_eq_ok, require_eq_ok,
    pure_eq_ok, List.cons_append, List.append_assoc, List.nil_append]
  refine ⟨_, _, ⟨hopening, rfl⟩, _, _, h n _ hlength ?_, _, _, ⟨hclosing, rfl⟩, rfl⟩
  simpa [Symbol.continues, hclosing] using hrest

theorem bareKey {t : Token} (h : t.kind = .identifier ∨ t.kind = .keyword .orWord) :
    Found .key [t] (.bare t.span t.lexeme) := by
  intro n rest _ _
  simp only [Nested.reader, Nested.key, bind_eq_ok, peek_eq_ok]
  refine ⟨_, _, rfl, ?_⟩
  rcases h with h | h
  all_goals
    rw [List.singleton_append, headKind_cons, h]
    simp only [bind_eq_ok, expect_eq_ok]
    exact ⟨_, _, ⟨h, rfl⟩, rfl⟩

theorem quotedKey {p : List Token} {span : Span} {parts : List Part}
    (hp : Derives (.literal .quote .closingString) p (span, parts))
    (h : Found (.literal .quote .closingString) p (span, parts)) :
    Found .key p (.quoted span parts) := by
  intro n rest hn _
  have hkind : headKind (p ++ rest) = some .quote := by
    rw [headKind_append_of_begins rfl hp.begins]
    simpa [Symbol.begins] using hp.begins
  simp only [Nested.reader, Nested.key, bind_eq_ok, peek_eq_ok]
  refine ⟨_, _, rfl, ?_⟩
  rw [hkind]
  simp only [bind_eq_ok]
  exact ⟨_, _, h n _ hn rfl, rfl⟩

theorem computedKey {p : List Token} {span : Span} {e : Expr}
    (hp : Derives .interpolation p (span, e)) (h : Found .interpolation p (span, e)) :
    Found .key p (.computed span e) := by
  intro n rest hn _
  have hkind : headKind (p ++ rest) = some .interpolation := by
    rw [headKind_append_of_begins rfl hp.begins]
    simpa [Symbol.begins] using hp.begins
  simp only [Nested.reader, Nested.key, bind_eq_ok, peek_eq_ok]
  refine ⟨_, _, rfl, ?_⟩
  rw [hkind]
  simp only [bind_eq_ok]
  exact ⟨_, _, h n _ hn rfl, rfl⟩

theorem pathEnd : Found .pathRest [] [] := by
  intro n rest _ hrest
  exact whileNext_stop hrest

theorem pathStep {dot : Token} {p q : List Token} {k : Key} {ks : List Key}
    (hdot : dot.kind = .dot) (hk : Found .key p k) (hks : Found .pathRest q ks) :
    Found .pathRest (dot :: (p ++ q)) (k :: ks) := by
  intro n rest hn hrest
  rw [List.length_cons, List.length_append] at hn
  rw [List.cons_append, List.append_assoc]
  refine whileNext_more (by simp [hdot]) ?_
    (by simp only [List.length_cons, List.length_append]; omega) (hks n rest (by omega) hrest)
  simp only [bind_eq_ok, expect_eq_ok]
  exact ⟨_, _, ⟨hdot, rfl⟩, hk n _ (by omega) rfl⟩

theorem attrPath {p q : List Token} {k : Key} {ks : List Key} (hk : Found .key p k)
    (hks : Found .pathRest q ks) :
    Found .attrPath (p ++ q) (k.span.join (lastSpan k ks), k :: ks) := by
  intro n rest hn hrest
  rw [List.length_append] at hn
  simp only [Nested.reader, Nested.attrPath, bind_eq_ok, pure_eq_ok, List.append_assoc]
  exact ⟨_, _, hk n _ (by omega) rfl, _, _, hks n _ (by omega) hrest, rfl⟩

theorem noName : Found .names [] [] := by
  intro n rest _ hrest
  exact whileNext_stop hrest

theorem name {p q : List Token} {k : Key} {ks : List Key} (hp : Derives .key p k)
    (hk : Found .key p k) (hks : Found .names q ks) : Found .names (p ++ q) (k :: ks) := by
  intro n rest hn hrest
  have hbegins := hp.begins
  rw [List.length_append] at hn
  rw [List.append_assoc]
  refine whileNext_more ?_ (hk n _ (by omega) rfl)
    (length_lt_of_ne_nil (ne_nil_of_begins rfl hbegins) _) (hks n rest (by omega) hrest)
  rw [headKind_append_of_begins rfl hbegins, bne_iff_ne]
  intro hsemicolon
  simp [Symbol.begins, beginsKey, hsemicolon] at hbegins

/-! ## Bindings -/

theorem keyValue {assign semicolon : Token} {p q : List Token} {span : Span} {path : List Key}
    {value : Expr} (hpath : Found .attrPath p (span, path)) (hassign : assign.kind = .assign)
    (hvalue : Found .expr q value) (hsemicolon : semicolon.kind = .semicolon) :
    Found .keyValue (p ++ assign :: (q ++ [semicolon]))
      ⟨span.join semicolon.span, path, value⟩ := by
  intro n rest hn _
  have hlength : p.length + q.length + 2 ≤ n := by simp at hn; omega
  simp only [Nested.reader, Nested.keyValue, bind_eq_ok, require_eq_ok, pure_eq_ok,
    List.cons_append, List.append_assoc, List.nil_append]
  exact ⟨_, _, hpath n _ (by omega) (by rw [headKind_cons, hassign]; rfl), _, _,
    ⟨hassign, rfl⟩, _, _, hvalue.nested (by omega) (by rw [headKind_cons, hsemicolon]; rfl),
    _, _, ⟨hsemicolon, rfl⟩, rfl⟩

theorem keyValueBinding {p : List Token} {b : KeyValue} (hp : Derives .keyValue p b)
    (h : Found .keyValue p b) : Found .binding p (.keyValue b) := by
  intro n rest hn _
  have hbegins := hp.begins
  have hkind : headKind (p ++ rest) ≠ some (.keyword .inheritWord) := by
    rw [headKind_append_of_begins rfl hbegins]
    intro hword
    simp [Symbol.begins, beginsKey, hword] at hbegins
  simp only [Nested.reader, bind_eq_ok, peek_eq_ok]
  refine ⟨_, _, rfl, ?_⟩
  rw [if_neg hkind, map_eq_pure_bind, bind_eq_ok]
  exact ⟨_, _, h n rest hn rfl, rfl⟩

theorem inherited {word semicolon : Token} {p : List Token} {names : List Key}
    (hword : word.kind = .keyword .inheritWord) (hp : Derives .names p names)
    (hnames : Found .names p names) (hsemicolon : semicolon.kind = .semicolon) :
    Found .binding (word :: (p ++ [semicolon]))
      (.inherited (word.span.join semicolon.span) names none) := by
  intro n rest hn _
  have hparen : headKind (p ++ semicolon :: rest) ≠ some .parenOpen := by
    refine headKind_append_ne ?_ (by simp [hsemicolon])
    intro hopen
    simpa [Symbol.begins, beginsKey, hopen] using hp.begins
  simp only [Nested.reader, Nested.inherited, Nested.inheritSource, bind_eq_ok, peek_eq_ok,
    List.cons_append, List.append_assoc, List.nil_append]
  refine ⟨_, _, rfl, ?_⟩
  rw [headKind_cons, hword, if_pos rfl]
  simp only [bind_eq_ok, peek_eq_ok, expect_eq_ok]
  refine ⟨_, _, ⟨hword, rfl⟩, none, _, ⟨_, _, rfl, ?_⟩, _, _,
    hnames n _ (by simp at hn; omega) (by simp [Symbol.continues, hsemicolon]), _, _,
    ⟨hsemicolon, rfl⟩, rfl⟩
  rw [if_neg hparen]
  rfl

theorem inheritedFrom {word opening closing semicolon : Token} {p q : List Token} {source : Expr}
    {names : List Key} (hword : word.kind = .keyword .inheritWord)
    (hopening : opening.kind = .parenOpen) (hsource : Found .expr p source)
    (hclosing : closing.kind = .parenClose) (hnames : Found .names q names)
    (hsemicolon : semicolon.kind = .semicolon) :
    Found .binding (word :: opening :: (p ++ closing :: (q ++ [semicolon])))
      (.inherited (word.span.join semicolon.span) names (some source)) := by
  intro n rest hn _
  have hlength : p.length + q.length + 2 ≤ n := by simp at hn; omega
  simp only [Nested.reader, Nested.inherited, Nested.inheritSource, bind_eq_ok, peek_eq_ok,
    List.cons_append, List.append_assoc, List.nil_append]
  refine ⟨_, _, rfl, ?_⟩
  rw [headKind_cons, hword, if_pos rfl]
  simp only [bind_eq_ok, peek_eq_ok, expect_eq_ok]
  refine ⟨_, _, ⟨hword, rfl⟩, some source, _, ⟨_, _, rfl, ?_⟩, _, _,
    hnames n _ (by omega) (by simp [Symbol.continues, hsemicolon]), _, _,
    ⟨hsemicolon, rfl⟩, rfl⟩
  rw [headKind_cons, hopening, if_pos rfl]
  simp only [bind_eq_ok, expect_eq_ok]
  exact ⟨_, _, ⟨hopening, rfl⟩, _, _,
    hsource.nested (by omega) (by rw [headKind_cons, hclosing]; rfl), _, _, ⟨hclosing, rfl⟩, rfl⟩

theorem noBinding {closing : TokenKind} : Found (.bindings closing) [] [] := by
  intro n rest _ hrest
  simp only [Symbol.continues, Bool.or_eq_false_iff, bne_eq_false_iff_eq] at hrest
  apply loop_stop
  simp only [Nested.binding, bind_eq_ok, peek_eq_ok]
  refine ⟨_, _, rfl, ?_⟩
  rw [List.nil_append, hrest.1]
  simp only [if_true]
  rfl

theorem bindings {closing : TokenKind} {p q : List Token} {b : Binding} {bs : List Binding}
    (hp : Derives .binding p b) (hb : Found .binding p b) (hbs : Found (.bindings closing) q bs) :
    Found (.bindings closing) (p ++ q) (b :: bs) := by
  intro n rest hn hrest
  have hbegins := hp.begins
  have hne := ne_nil_of_begins rfl hbegins
  rw [List.length_append] at hn
  rw [List.append_assoc]
  refine loop_more ?_ (length_lt_of_ne_nil hne _) (hbs n rest (by omega) hrest)
  have hread := hb n (q ++ rest) (by omega) rfl
  rw [← headKind_append_of_ne_nil hne (q ++ rest)] at hbegins
  simp only [Nested.reader, bind_eq_ok, peek_eq_ok] at hread
  obtain ⟨kind, _, heq, hread⟩ := hread
  obtain ⟨rfl, rfl⟩ := Prod.mk.inj heq
  simp only [Nested.binding, bind_eq_ok, peek_eq_ok]
  refine ⟨_, _, rfl, ?_⟩
  cases hkind : headKind (p ++ (q ++ rest)) with
  | none => simp [hkind, Symbol.begins, beginsBinding, beginsKey] at hbegins
  | some kind =>
    have hclosing : kind ≠ closing := by
      rintro rfl
      simp only [Symbol.continues, Bool.or_eq_false_iff] at hrest
      rw [hkind, Symbol.begins, hrest.2] at hbegins
      exact Bool.noConfusion hbegins
    rw [hkind] at hread
    simp only [if_neg hclosing]
    by_cases hword : kind = .keyword .inheritWord
    · rw [if_pos hword]
      rw [if_pos (congrArg some hword)] at hread
      simp only [bind_eq_ok]
      exact ⟨_, _, hread, rfl⟩
    · rw [if_neg hword]
      rw [if_neg (by simpa using hword), map_eq_pure_bind, bind_eq_ok] at hread
      obtain ⟨kv, mid, hkv, hread⟩ := hread
      obtain ⟨rfl, rfl⟩ := Prod.mk.inj (pure_eq_ok.1 hread)
      simp only [bind_eq_ok]
      exact ⟨_, _, hkv, rfl⟩

theorem attrSet {opening closing : Token} {p : List Token} {bindings : List Binding}
    (hopening : opening.kind = .braceOpen) (h : Found (.bindings .braceClose) p bindings)
    (hclosing : closing.kind = .braceClose) :
    Found .attrSet (opening :: (p ++ [closing])) (opening.span.join closing.span, bindings) := by
  intro n rest hn _
  simp only [Nested.reader, Nested.attrSet, bind_eq_ok, expect_eq_ok, require_eq_ok,
    pure_eq_ok, List.cons_append, List.append_assoc, List.nil_append]
  refine ⟨_, _, ⟨hopening, rfl⟩, _, _, h n _ (by simp at hn; omega) ?_, _, _, ⟨hclosing, rfl⟩,
    rfl⟩
  rw [headKind_cons, hclosing]
  rfl

end Found

end Grammar
end FlakeInputs
