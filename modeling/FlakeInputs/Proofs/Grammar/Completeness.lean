import FlakeInputs.Proofs.Grammar.Operands

/-!
# Readers find every phrase

The first tokens of an expression tell how it is read, so every phrase is found.  With
the soundness of readers, the tokens of a whole text have a tree exactly if the grammar
derives them, and only one.
-/

namespace FlakeInputs
namespace Grammar

open Nested (beginsArgument opensParameters)

/-! ## How an expression is read -/

theorem lookahead_bind {α : Type} (f : List TokenKind → Reader α) (ts : List Token) :
    (Nested.lookahead >>= f) ts = f ((ts.take 4).map Token.kind) ts := rfl

theorem peek_bind {α : Type} (f : Option TokenKind → Reader α) (ts : List Token) :
    (peek >>= f) ts = f (headKind ts) ts := rfl

theorem expression_of_assert (g : Nested) (ts : List Token)
    (hts : headKind ts = some (.keyword .assertWord)) :
    g.expression ts = g.guarded .assertWord .assertion ts := by
  cases ts with
  | nil => simp at hts
  | cons word ts =>
    rw [headKind_cons, Option.some.injEq] at hts
    rw [Nested.expression, lookahead_bind, List.take_succ_cons, List.map_cons, hts]

theorem expression_of_with (g : Nested) (ts : List Token)
    (hts : headKind ts = some (.keyword .withWord)) :
    g.expression ts = g.guarded .withWord .withScope ts := by
  cases ts with
  | nil => simp at hts
  | cons word ts =>
    rw [headKind_cons, Option.some.injEq] at hts
    rw [Nested.expression, lookahead_bind, List.take_succ_cons, List.map_cons, hts]

theorem expression_of_parameters (g : Nested) {opening : Token} {ts : List Token}
    (hopening : opening.kind = .braceOpen)
    (hparameters : opensParameters ((ts.take 3).map Token.kind) = true) :
    g.expression (opening :: ts) = g.listFunction (opening :: ts) := by
  rw [Nested.expression, lookahead_bind]
  simp only [List.take_succ_cons, List.map_cons, hopening, hparameters, if_true]

theorem expression_of_let (g : Nested) {word : Token} {ts : List Token}
    (hword : word.kind = .keyword .letWord) (hbrace : headKind ts ≠ some .braceOpen) :
    g.expression (word :: ts) = g.letIn (word :: ts) := by
  rw [Nested.expression, lookahead_bind, List.take_succ_cons, List.map_cons, hword]
  cases ts with
  | nil => rfl
  | cons t ts =>
    rw [headKind_cons] at hbrace
    generalize hkinds : TokenKind.keyword .letWord :: ((t :: ts).take 3).map Token.kind = kinds
    split
    · simp at hkinds
    · simp at hkinds
    · simp at hkinds
    · simp at hkinds
    · simp at hkinds
    · exact absurd (congrArg some (List.cons.inj (List.cons.inj hkinds).2).1) hbrace
    · rfl
    · simp at hkinds
    · next hlet _ => exact absurd hkinds.symm (hlet _)

/-- A parameter list shows itself as one by its first tokens. -/
theorem opensParameters_of_list {whole? : Option Text} {p : List Token}
    {list : ParameterList} (h : Derives (.parameterList whole?) p list) (rest : List Token)
    (hrest : headKind rest ∈ [some .colon, some .atSign]) :
    ∃ opening ts, p ++ rest = opening :: ts ∧ opening.kind = .braceOpen ∧
      opensParameters ((ts.take 3).map Token.kind) = true := by
  obtain ⟨next, rest, rfl⟩ : ∃ next tail, rest = next :: tail := by
    cases rest with
    | nil => simp at hrest
    | cons next tail => exact ⟨next, tail, rfl⟩
  have hnext : next.kind = .colon ∨ next.kind = .atSign := by simpa using hrest
  cases h with
  | @parameterList _ opening closing q entries hopening hentries hclosing =>
    refine ⟨opening, q ++ [closing] ++ next :: rest, rfl, hopening, ?_⟩
    cases hentries with
    | noEntry => rcases hnext with hnext | hnext <;> simp [opensParameters, hclosing, hnext]
    | ellipsis hellipsis => simp [opensParameters, hellipsis]
    | lastEntry hlast =>
      cases hlast with
      | parameter hname =>
        rcases hnext with hnext | hnext <;> simp [opensParameters, hname, hclosing, hnext]
      | parameterOr hname hquestion _ => simp [opensParameters, hname, hquestion]
    | entry hfirst hcomma _ =>
      cases hfirst with
      | parameter hname => simp [opensParameters, hname, hcomma]
      | parameterOr hname hquestion _ => simp [opensParameters, hname, hquestion]

/-- A binding shows by its first tokens that it is no parameter. -/
theorem opensParameters_of_binding {p : List Token} {b : Binding} (h : Derives .binding p b)
    (rest : List Token) : opensParameters (((p ++ rest).take 3).map Token.kind) = false := by
  cases h with
  | inherited hword => simp [opensParameters, hword]
  | inheritedFrom hword => simp [opensParameters, hword]
  | keyValueBinding h =>
    cases h with
    | keyValue hpath hassign =>
      cases hpath with
      | attrPath hkey hrest =>
        cases hkey with
        | bareKey hkind =>
          cases hrest with
          | pathEnd => rcases hkind with hkind | hkind <;> simp [opensParameters, hkind, hassign]
          | pathStep hdot =>
            rcases hkind with hkind | hkind <;> simp [opensParameters, hkind, hdot]
        | quotedKey hliteral =>
          cases hliteral with
          | literal hopening => simp [opensParameters, hopening]
        | computedKey hinterpolation =>
          cases hinterpolation with
          | interpolation hopening => simp [opensParameters, hopening]

/-- The tokens are read as an operation if they are read as an expression. -/
def Operates (ts : List Token) : Prop :=
  ∀ g : Nested, g.expression ts = g.operation ts

theorem operates_of_kind {t : Token} {ts : List Token}
    (ht : t.kind ∉ [.identifier, .braceOpen, .keyword .assertWord, .keyword .withWord,
      .keyword .letWord, .keyword .ifWord]) : Operates (t :: ts) := by
  intro g
  rw [Nested.expression, lookahead_bind, List.take_succ_cons, List.map_cons]
  generalize hkinds : t.kind :: (ts.take 3).map Token.kind = kinds
  split <;> simp_all

theorem operates_of_identifier {t : Token} {ts : List Token} (ht : t.kind = .identifier)
    (hcolon : headKind ts ≠ some .colon) (hat : headKind ts ≠ some .atSign) :
    Operates (t :: ts) := by
  intro g
  rw [Nested.expression, lookahead_bind, List.take_succ_cons, List.map_cons, ht]
  cases ts with
  | nil => rfl
  | cons u us =>
    rw [headKind_cons] at hcolon hat
    generalize hkinds : TokenKind.identifier :: ((u :: us).take 3).map Token.kind = kinds
    split <;> simp_all

theorem operates_of_braceOpen {t : Token} {ts : List Token} (ht : t.kind = .braceOpen)
    (hts : opensParameters ((ts.take 3).map Token.kind) = false) : Operates (t :: ts) := by
  intro g
  rw [Nested.expression, lookahead_bind, List.take_succ_cons, List.map_cons, ht]
  simp only [hts, Bool.false_eq_true, if_false]

/-- Symbols whose phrases are operands or are made of operands. -/
def Symbol.operand : Symbol → Bool
  | levels _ _ | complemented | attrTest | negated | application | select | simple => true
  | _ => false

/-- An operation shows itself as one by its first tokens, unless a colon or an at sign
behind it makes a function of it. -/
theorem Derives.operates {s : Symbol} {p : List Token} {v : s.Val} (h : Derives s p v) :
    s.operand = true → ∀ rest, headKind rest ≠ some .colon → headKind rest ≠ some .atSign →
      Operates (p ++ rest) := by
  induction h with
  | complementedBase _ ih | attrTestBase _ ih | uncomplemented _ ih | untested _ ih
  | unnegated _ ih | unselected _ ih =>
    intro _ rest hcolon hat
    exact ih rfl rest hcolon hat
  | @chain tower level table p q first items _ hq ih =>
    intro _ rest hcolon hat
    rw [List.append_assoc]
    have hbegins := hq.begins
    refine ih rfl _ (headKind_append_ne ?_ hcolon) (headKind_append_ne ?_ hat)
    all_goals
      intro heq
      simp [heq, Symbol.begins, Level.operator?] at hbegins
  | apply _ hq ih =>
    intro _ rest hcolon hat
    rw [List.append_assoc]
    have hbegins := hq.begins
    refine ih rfl _ (headKind_append_ne ?_ hcolon) (headKind_append_ne ?_ hat)
    all_goals
      intro heq
      simp [heq, Symbol.begins, beginsArgument] at hbegins
  | hasAttr _ hmark _ ih | selection _ hmark _ ih | selectionOr _ hmark _ _ _ ih =>
    intro _ rest _ _
    rw [List.append_assoc]
    refine ih rfl _ ?_ ?_ <;> simp [hmark]
  | identifier ht =>
    intro _ rest hcolon hat
    exact operates_of_identifier ht hcolon hat
  | map hset =>
    intro _ rest hcolon hat
    cases hset with
    | attrSet hopening hbindings hclosing =>
      rw [List.cons_append, List.append_assoc]
      refine operates_of_braceOpen hopening ?_
      cases hbindings with
      | noBinding =>
        cases rest with
        | nil => simp [hclosing, opensParameters]
        | cons next rest =>
          rw [headKind_cons] at hcolon hat
          unfold opensParameters
          split <;> simp_all
      | bindings hb _ =>
        rw [List.append_assoc]
        exact opensParameters_of_binding hb _
  | string hliteral | indentedString hliteral =>
    intro _ rest _ _
    cases hliteral with
    | literal hopening => exact operates_of_kind (by simp [hopening])
  | complement ht | negate ht | integer ht | float ht | path ht | searchPath ht | uri ht
  | parenthesised ht | recSet ht | list ht =>
    intro _ rest _ _
    exact operates_of_kind (by simp [ht])
  | _ => intro hoperand; exact absurd hoperand Bool.false_ne_true

namespace Found

/-! ## Expressions -/

theorem operation {p : List Token} {e : Expr} (hp : Derives (.levels .loose looseLevels) p e)
    (h : Found (.levels .loose looseLevels) p e) : Found .expr p e := by
  intro n rest hn hrest
  simp only [Symbol.continues, Bool.or_eq_false_iff, beq_eq_false_iff_ne] at hrest
  obtain ⟨⟨hlevels, htower⟩, hcolon, hat⟩ := hrest
  rw [Nested.reader, hp.operates rfl rest hcolon hat]
  refine h n rest hn ?_
  have hsuffix : looseLevels.isSuffixOf Tower.loose.table = true := by decide
  simp [Symbol.continues, hsuffix, hlevels, htower]

theorem simpleFunction {name colon : Token} {p : List Token} {body : Expr}
    (hname : name.kind = .identifier) (hcolon : colon.kind = .colon) (hbody : Found .expr p body) :
    Found .expr (name :: colon :: p)
      ⟨name.span.join body.span, .function (.simple name.span name.lexeme) body⟩ := by
  intro n rest hn hrest
  rw [List.length_cons, List.length_cons] at hn
  rw [Nested.reader, Nested.expression, lookahead_bind]
  simp only [List.cons_append, List.take_succ_cons, List.map_cons, hname, hcolon]
  simp only [Nested.simpleFunction, Nested.body, bind_eq_ok, expect_eq_ok]
  exact ⟨_, _, ⟨hname, rfl⟩, _, _, ⟨hcolon, rfl⟩, _, _, hbody.nested (by omega) hrest, rfl⟩

theorem namedFunction {name atSign colon : Token} {p q : List Token} {list : ParameterList}
    {body : Expr} (hname : name.kind = .identifier) (hat : atSign.kind = .atSign)
    (hp : Derives (.parameterList (some name.lexeme)) p list)
    (hlist : Found (.parameterList (some name.lexeme)) p list) (hcolon : colon.kind = .colon)
    (hbody : Found .expr q body) :
    Found .expr (name :: atSign :: (p ++ colon :: q))
      ⟨name.span.join body.span, .function (.destructured list) body⟩ := by
  intro n rest hn hrest
  have hlength : p.length + q.length + 3 ≤ n := by simp at hn; omega
  obtain ⟨opening, ts, hts, hopening, -⟩ :=
    opensParameters_of_list hp (colon :: (q ++ rest)) (by simp [hcolon])
  simp only [List.cons_append, List.append_assoc]
  rw [Nested.reader, Nested.expression, lookahead_bind]
  simp only [hts, List.take_succ_cons, List.map_cons, hname, hat, hopening]
  rw [← hts]
  simp only [Nested.namedFunction, Nested.body, bind_eq_ok, expect_eq_ok, require_eq_ok]
  exact ⟨_, _, ⟨hname, rfl⟩, _, _, ⟨hat, rfl⟩, _, _, hlist n _ (by omega) rfl, _, _,
    ⟨hcolon, rfl⟩, _, _, hbody.nested (by omega) hrest, rfl⟩

theorem listFunction {colon : Token} {p q : List Token} {list : ParameterList} {body : Expr}
    (hp : Derives (.parameterList none) p list) (hlist : Found (.parameterList none) p list)
    (hcolon : colon.kind = .colon) (hbody : Found .expr q body) :
    Found .expr (p ++ colon :: q)
      ⟨list.span.join body.span,
        .function (.destructured { list with whole? := none }) body⟩ := by
  intro n rest hn hrest
  rw [List.length_append, List.length_cons] at hn
  obtain ⟨opening, ts, hts, hopening, hparameters⟩ :=
    opensParameters_of_list hp (colon :: (q ++ rest)) (by simp [hcolon])
  rw [Nested.reader, List.append_assoc, List.cons_append, hts,
    expression_of_parameters _ hopening hparameters, ← hts]
  simp only [Nested.listFunction, Nested.wholeName, Nested.body, bind_eq_ok, require_eq_ok,
    peek_eq_ok]
  refine ⟨_, _, hlist n _ (by omega) rfl, none, _, ⟨_, _, rfl, ?_⟩, _, _, ⟨hcolon, rfl⟩, _, _,
    hbody.nested (by omega) hrest, rfl⟩
  rw [headKind_cons, hcolon, if_neg (by simp)]
  rfl

theorem aliasedFunction {atSign name colon : Token} {p q : List Token} {list : ParameterList}
    {body : Expr} (hp : Derives (.parameterList none) p list)
    (hlist : Found (.parameterList none) p list) (hat : atSign.kind = .atSign)
    (hname : name.kind = .identifier) (hcolon : colon.kind = .colon) (hbody : Found .expr q body) :
    Found .expr (p ++ atSign :: name :: colon :: q)
      ⟨list.span.join body.span,
        .function (.destructured { list with whole? := some name.lexeme }) body⟩ := by
  intro n rest hn hrest
  have hlength : p.length + q.length + 3 ≤ n := by simp at hn; omega
  obtain ⟨opening, ts, hts, hopening, hparameters⟩ :=
    opensParameters_of_list hp (atSign :: name :: colon :: (q ++ rest)) (by simp [hat])
  simp only [List.cons_append, List.append_assoc]
  rw [Nested.reader, hts, expression_of_parameters _ hopening hparameters, ← hts]
  simp only [Nested.listFunction, Nested.wholeName, Nested.body, bind_eq_ok, require_eq_ok,
    peek_eq_ok]
  refine ⟨_, _, hlist n _ (by omega) rfl, some name.lexeme, _, ⟨_, _, rfl, ?_⟩, _, _,
    ⟨hcolon, rfl⟩, _, _, hbody.nested (by omega) hrest, rfl⟩
  rw [headKind_cons, hat, if_pos rfl]
  simp only [bind_eq_ok, expect_eq_ok, require_eq_ok]
  exact ⟨_, _, ⟨hat, rfl⟩, _, _, ⟨hname, rfl⟩, rfl⟩

theorem guarded {keyword : Keyword} {node : Expr → Expr → Node} {word semicolon : Token}
    {p q : List Token} {condition target : Expr}
    (hexpression : ∀ (g : Nested) ts, headKind ts = some (.keyword keyword) →
      g.expression ts = g.guarded keyword node ts)
    (hword : word.kind = .keyword keyword) (hcondition : Found .expr p condition)
    (hsemicolon : semicolon.kind = .semicolon) (htarget : Found .expr q target) :
    Found .expr (word :: (p ++ semicolon :: q))
      ⟨word.span.join target.span, node condition target⟩ := by
  intro n rest hn hrest
  have hlength : p.length + q.length + 2 ≤ n := by simp at hn; omega
  rw [Nested.reader, List.cons_append, hexpression _ _ (by rw [headKind_cons, hword])]
  simp only [Nested.guarded, bind_eq_ok, expect_eq_ok, List.append_assoc, List.cons_append]
  exact ⟨_, _, ⟨hword, rfl⟩, _, _,
    hcondition.nested (by omega) (by rw [headKind_cons, hsemicolon]; rfl), _, _,
    ⟨hsemicolon, rfl⟩, _, _, htarget.nested (by omega) hrest, rfl⟩

theorem letIn {word inWord : Token} {p q : List Token} {bindings : List Binding} {target : Expr}
    (hword : word.kind = .keyword .letWord)
    (hp : Derives (.bindings (.keyword .inWord)) p bindings)
    (hbindings : Found (.bindings (.keyword .inWord)) p bindings)
    (hin : inWord.kind = .keyword .inWord) (htarget : Found .expr q target) :
    Found .expr (word :: (p ++ inWord :: q))
      ⟨word.span.join target.span, .letIn bindings target⟩ := by
  intro n rest hn hrest
  have hlength : p.length + q.length + 2 ≤ n := by simp at hn; omega
  -- A brace behind the word would be the old form, but no binding begins with one.
  have hbrace : headKind (p ++ inWord :: (q ++ rest)) ≠ some .braceOpen := by
    refine headKind_append_ne ?_ (by simp [hin])
    intro hbrace
    have hbegins := hp.begins
    simp [hbrace, Symbol.begins, beginsBinding, beginsKey] at hbegins
  rw [Nested.reader, List.cons_append, List.append_assoc, List.cons_append,
    expression_of_let _ hword hbrace]
  simp only [Nested.letIn, bind_eq_ok, expect_eq_ok, require_eq_ok]
  exact ⟨_, _, ⟨hword, rfl⟩, _, _, hbindings n _ (by omega) (by rw [headKind_cons, hin]; rfl), _, _,
    ⟨hin, rfl⟩, _, _, htarget.nested (by omega) hrest, rfl⟩

theorem conditional {word thenWord elseWord : Token} {p q r : List Token}
    {condition yes no : Expr} (hword : word.kind = .keyword .ifWord)
    (hcondition : Found .expr p condition) (hthen : thenWord.kind = .keyword .thenWord)
    (hyes : Found .expr q yes) (helse : elseWord.kind = .keyword .elseWord)
    (hno : Found .expr r no) :
    Found .expr (word :: (p ++ thenWord :: (q ++ elseWord :: r)))
      ⟨word.span.join no.span, .ifThenElse condition yes no⟩ := by
  intro n rest hn hrest
  have hlength : p.length + q.length + r.length + 3 ≤ n := by simp at hn; omega
  rw [Nested.reader, Nested.expression, lookahead_bind]
  simp only [List.cons_append, List.take_succ_cons, List.map_cons, hword]
  simp only [Nested.conditional, bind_eq_ok, expect_eq_ok, List.append_assoc, List.cons_append]
  exact ⟨_, _, ⟨hword, rfl⟩, _, _,
    hcondition.nested (by omega) (by rw [headKind_cons, hthen]; rfl), _, _, ⟨hthen, rfl⟩, _, _,
    hyes.nested (by omega) (by rw [headKind_cons, helse]; rfl), _, _, ⟨helse, rfl⟩, _, _,
    hno.nested (by omega) hrest, rfl⟩

end Found

/-! ## The whole grammar -/

/-- Every phrase is found. -/
theorem Derives.found {s : Symbol} {p : List Token} {v : s.Val} (h : Derives s p v) :
    Found s p v := by
  induction h with
  | simpleFunction hname hcolon _ ih => exact .simpleFunction hname hcolon ih
  | namedFunction hname hat hp hcolon _ ihlist ihbody =>
    exact .namedFunction hname hat hp ihlist hcolon ihbody
  | listFunction hp hcolon _ ihlist ihbody => exact .listFunction hp ihlist hcolon ihbody
  | aliasedFunction hp hat hname hcolon _ ihlist ihbody =>
    exact .aliasedFunction hp ihlist hat hname hcolon ihbody
  | assertion hword _ hsemicolon _ ihcondition ihtarget =>
    exact .guarded expression_of_assert hword ihcondition hsemicolon ihtarget
  | withScope hword _ hsemicolon _ ihscope ihtarget =>
    exact .guarded expression_of_with hword ihscope hsemicolon ihtarget
  | letIn hword hp hin _ ihbindings ihtarget => exact .letIn hword hp ihbindings hin ihtarget
  | conditional hword _ hthen _ helse _ ihcondition ihyes ihno =>
    exact .conditional hword ihcondition hthen ihyes helse ihno
  | operation hp ih => exact .operation hp ih
  | complementedBase _ ih => exact .complementedBase ih
  | attrTestBase _ ih => exact .attrTestBase ih
  | chain _ hq ihfirst ihrest => exact .chain hq ihfirst ihrest
  | noLink => exact .noLink
  | link hsign hop _ hq hsingle ihright ihrest => exact .link hsign hop hq ihright ihrest hsingle
  | uncomplemented hp ih => exact .uncomplemented hp ih
  | complement hsign _ ih => exact .complement hsign ih
  | untested _ ih => exact .untested ih
  | hasAttr _ hquestion _ ihsource ihpath => exact .hasAttr ihsource hquestion ihpath
  | unnegated hp ih => exact .unnegated hp ih
  | negate hsign _ ih => exact .negate hsign ih
  | apply _ hq ihfunction iharguments => exact .apply hq ihfunction iharguments
  | noArgument => exact .noArgument
  | argument hp hq ihe ihes => exact .argument hp hq ihe ihes
  | unselected _ ih => exact .unselected ih
  | selection _ hdot _ ihsource ihpath => exact .selection ihsource hdot ihpath
  | selectionOr _ hdot _ hor _ ihsource ihpath ihdefault =>
    exact .selectionOr ihsource hdot ihpath hor ihdefault
  | identifier ht => exact .atom .identifier ht fun _ _ hts => by rw [Nested.simple, peek_bind, hts]
  | integer ht hlength => exact .integer ht hlength
  | float ht =>
    exact .atom (fun t => .float (.ofText t)) ht
      fun _ _ hts => by rw [Nested.simple, peek_bind, hts]
  | path ht => exact .atom .path ht fun _ _ hts => by rw [Nested.simple, peek_bind, hts]
  | searchPath ht =>
    exact .atom (fun t => .searchPath (t.drop 1).dropLast) ht
      fun _ _ hts => by rw [Nested.simple, peek_bind, hts]
  | uri ht => exact .atom .uri ht fun _ _ hts => by rw [Nested.simple, peek_bind, hts]
  | string hp ih => exact .string hp ih
  | indentedString hp ih => exact .indentedString hp ih
  | parenthesised hopening _ hclosing ih => exact .parenthesised hopening ih hclosing
  | recSet hword _ ih => exact .recSet hword ih
  | map hp ih => exact .map hp ih
  | list hopening _ hclosing ih => exact .list hopening ih hclosing
  | noElement => exact .noElement
  | element hp hq ihe ihes => exact .element hp hq ihe ihes
  | interpolation hopening _ hclosing ih => exact .interpolation hopening ih hclosing
  | noPart => exact .noPart
  | textPart ht _ ih => exact .textPart ht ih
  | interpolationPart hp _ ih ihparts => exact .interpolationPart hp ih ihparts
  | literal hopening _ hclosing ih => exact .literal hopening ih hclosing
  | bareKey ht => exact .bareKey ht
  | quotedKey hp ih => exact .quotedKey hp ih
  | computedKey hp ih => exact .computedKey hp ih
  | pathEnd => exact .pathEnd
  | pathStep hdot _ _ ihk ihks => exact .pathStep hdot ihk ihks
  | attrPath _ _ ihk ihks => exact .attrPath ihk ihks
  | noName => exact .noName
  | name hp _ ihk ihks => exact .name hp ihk ihks
  | keyValue _ hassign _ hsemicolon ihpath ihvalue =>
    exact .keyValue ihpath hassign ihvalue hsemicolon
  | keyValueBinding hp ih => exact .keyValueBinding hp ih
  | inherited hword hp hsemicolon ih => exact .inherited hword hp ih hsemicolon
  | inheritedFrom hword hopening _ hclosing _ hsemicolon ihsource ihnames =>
    exact .inheritedFrom hword hopening ihsource hclosing ihnames hsemicolon
  | noBinding => exact .noBinding
  | bindings hp _ ihb ihbs => exact .bindings hp ihb ihbs
  | attrSet hopening _ hclosing ih => exact .attrSet hopening ih hclosing
  | parameter hname => exact .parameter hname
  | parameterOr hname hquestion _ ih => exact .parameterOr hname hquestion ih
  | noEntry => exact .noEntry
  | ellipsis ht => exact .ellipsis ht
  | lastEntry hp ih => exact .lastEntry hp ih
  | entry hp hcomma _ ih ihxs => exact .entry hp ih hcomma ihxs
  | parameterList hopening _ hclosing ih => exact .parameterList hopening ih hclosing

/-- The tokens of a whole text have a tree exactly if the grammar derives them, and that
tree is the only one. -/
theorem whole_iff {ts : List Token} {e : Expr} : whole ts = .ok e ↔ Derives .expr ts e := by
  refine ⟨derives_of_whole, fun h => ?_⟩
  have hread := h.found ts.length [] (Nat.le_refl _) rfl
  rw [List.append_nil] at hread
  change (Nested.limit (ts.length + 1)).expr ts = _ at hread
  rw [whole, hread]
  rfl

end Grammar
end FlakeInputs
