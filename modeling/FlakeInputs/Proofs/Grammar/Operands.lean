import FlakeInputs.Proofs.Grammar.Found

/-!
# Operands and operators that are found

What an operator, an argument or a path stands behind is taken first, and no token of a
looser operator continues it.
-/

namespace FlakeInputs
namespace Grammar

open Nested (beginsArgument)

namespace Found

/-! ## Operands -/

theorem atom {kind : TokenKind} (node : Text → Node) {t : Token} (ht : t.kind = kind)
    (hsimple : ∀ (g : Nested) ts, headKind ts = some kind →
      g.simple ts = Nested.atom kind node ts) :
    Found .simple [t] ⟨t.span, node t.lexeme⟩ := by
  intro n rest _ _
  rw [Nested.reader, List.singleton_append, hsimple _ _ (by rw [headKind_cons, ht])]
  simp only [Nested.atom, bind_eq_ok, expect_eq_ok]
  exact ⟨_, _, ⟨ht, rfl⟩, rfl⟩

theorem integer {t : Token} (ht : t.kind = .integer)
    (hlength : t.lexeme.length ≤ maxIntegerDigits) :
    Found .simple [t] ⟨t.span, .integer (digitsValue t.lexeme)⟩ := by
  intro n rest _ _
  simp only [Nested.reader, Nested.simple, bind_eq_ok, peek_eq_ok]
  refine ⟨_, _, rfl, ?_⟩
  rw [List.singleton_append, headKind_cons, ht]
  simp only [Nested.integer, bind_eq_ok, expect_eq_ok]
  refine ⟨_, _, ⟨ht, rfl⟩, ?_⟩
  rw [if_neg (Nat.not_lt.2 hlength)]
  rfl

theorem string {p : List Token} {span : Span} {parts : List Part}
    (hp : Derives (.literal .quote .closingString) p (span, parts))
    (h : Found (.literal .quote .closingString) p (span, parts)) :
    Found .simple p ⟨span, .string parts⟩ := by
  intro n rest hn _
  have hkind : headKind (p ++ rest) = some .quote := by
    rw [headKind_append_of_begins rfl hp.begins]
    simpa [Symbol.begins] using hp.begins
  simp only [Nested.reader, Nested.simple, bind_eq_ok, peek_eq_ok]
  refine ⟨_, _, rfl, ?_⟩
  rw [hkind]
  simp only [bind_eq_ok]
  exact ⟨_, _, h n _ hn rfl, rfl⟩

theorem indentedString {p : List Token} {span : Span} {parts : List Part}
    (hp : Derives (.literal .indentQuote .closingIndented) p (span, parts))
    (h : Found (.literal .indentQuote .closingIndented) p (span, parts)) :
    Found .simple p ⟨span, .indentedString parts⟩ := by
  intro n rest hn _
  have hkind : headKind (p ++ rest) = some .indentQuote := by
    rw [headKind_append_of_begins rfl hp.begins]
    simpa [Symbol.begins] using hp.begins
  simp only [Nested.reader, Nested.simple, bind_eq_ok, peek_eq_ok]
  refine ⟨_, _, rfl, ?_⟩
  rw [hkind]
  simp only [bind_eq_ok]
  exact ⟨_, _, h n _ hn rfl, rfl⟩

theorem map {p : List Token} {span : Span} {bindings : List Binding}
    (hp : Derives .attrSet p (span, bindings)) (h : Found .attrSet p (span, bindings)) :
    Found .simple p ⟨span, .map bindings false⟩ := by
  intro n rest hn _
  have hkind : headKind (p ++ rest) = some .braceOpen := by
    rw [headKind_append_of_begins rfl hp.begins]
    simpa [Symbol.begins] using hp.begins
  simp only [Nested.reader, Nested.simple, bind_eq_ok, peek_eq_ok]
  refine ⟨_, _, rfl, ?_⟩
  rw [hkind]
  simp only [bind_eq_ok]
  exact ⟨_, _, h n _ hn rfl, rfl⟩

theorem parenthesised {opening closing : Token} {p : List Token} {e : Expr}
    (hopening : opening.kind = .parenOpen) (h : Found .expr p e)
    (hclosing : closing.kind = .parenClose) : Found .simple (opening :: (p ++ [closing])) e := by
  intro n rest hn _
  have hlength : p.length < n := by simp at hn; omega
  simp only [Nested.reader, Nested.simple, bind_eq_ok, peek_eq_ok]
  refine ⟨_, _, rfl, ?_⟩
  rw [List.cons_append, headKind_cons, hopening]
  simp only [Nested.parenthesised, bind_eq_ok, expect_eq_ok, require_eq_ok, pure_eq_ok,
    List.append_assoc, List.singleton_append]
  exact ⟨_, _, ⟨hopening, rfl⟩, _, _, h.nested hlength (by rw [headKind_cons, hclosing]; rfl),
    _, _, ⟨hclosing, rfl⟩, rfl⟩

theorem recSet {word : Token} {p : List Token} {span : Span} {bindings : List Binding}
    (hword : word.kind = .keyword .recWord) (h : Found .attrSet p (span, bindings)) :
    Found .simple (word :: p) ⟨word.span.join span, .map bindings true⟩ := by
  intro n rest hn _
  simp only [Nested.reader, Nested.simple, bind_eq_ok, peek_eq_ok]
  refine ⟨_, _, rfl, ?_⟩
  rw [List.cons_append, headKind_cons, hword]
  simp only [Nested.recSet, bind_eq_ok, expect_eq_ok]
  exact ⟨_, _, ⟨hword, rfl⟩, _, _, h n _ (by simp at hn; omega) rfl, rfl⟩

theorem noElement : Found .elements [] [] := by
  intro n rest _ hrest
  simp only [Symbol.continues, bne_eq_false_iff_eq] at hrest
  apply loop_stop
  simp only [Nested.element, bind_eq_ok, peek_eq_ok]
  refine ⟨_, _, rfl, ?_⟩
  rw [List.nil_append, hrest]
  rfl

theorem element {p q : List Token} {e : Expr} {es : List Expr} (hp : Derives .select p e)
    (hq : Derives .elements q es) (he : Found .select p e) (hes : Found .elements q es) :
    Found .elements (p ++ q) (e :: es) := by
  intro n rest hn hrest
  have hbegins := hp.begins
  have hne := ne_nil_of_begins rfl hbegins
  rw [List.length_append] at hn
  have hread : (Nested.limit (n + 1)).operand (p ++ (q ++ rest)) = .ok (e, q ++ rest) := by
    refine he.nestedOperand (by omega) (headKind_append_false ?_ ?_)
    · intro kind hkind
      have hbegins := hq.begins
      rw [hkind] at hbegins
      exact continuesSelect_of_beginsArgument hbegins
    · simp only [Symbol.continues, bne_eq_false_iff_eq] at hrest
      rw [hrest]
      rfl
  rw [List.append_assoc]
  refine loop_more ?_ (length_lt_of_ne_nil hne _) (hes n rest (by omega) hrest)
  rw [Symbol.begins, ← headKind_append_of_ne_nil hne (q ++ rest)] at hbegins
  simp only [Nested.element, bind_eq_ok, peek_eq_ok]
  refine ⟨_, _, rfl, ?_⟩
  generalize headKind (p ++ (q ++ rest)) = kind at hbegins
  split
  · exact Bool.noConfusion hbegins
  · exact Bool.noConfusion hbegins
  · simp only [bind_eq_ok]
    exact ⟨_, _, hread, rfl⟩

theorem list {opening closing : Token} {p : List Token} {elements : List Expr}
    (hopening : opening.kind = .bracketOpen) (h : Found .elements p elements)
    (hclosing : closing.kind = .bracketClose) :
    Found .simple (opening :: (p ++ [closing]))
      ⟨opening.span.join closing.span, .list elements⟩ := by
  intro n rest hn _
  obtain ⟨m, rfl⟩ : ∃ m, n = m + 1 := ⟨n - 1, by simp at hn; omega⟩
  simp only [Nested.reader, Nested.simple, bind_eq_ok, peek_eq_ok]
  refine ⟨_, _, rfl, ?_⟩
  rw [List.cons_append, headKind_cons, hopening]
  simp only [Nested.list, bind_eq_ok, expect_eq_ok, pure_eq_ok, List.append_assoc,
    List.singleton_append]
  refine ⟨_, _, ⟨hopening, rfl⟩, _, _, h m _ (by simp at hn; omega) ?_, _, _, ⟨hclosing, rfl⟩,
    rfl⟩
  rw [headKind_cons, hclosing]
  rfl

theorem unselected {p : List Token} {e : Expr} (h : Found .simple p e) : Found .select p e := by
  intro n rest hn hrest
  have hdot : headKind rest ≠ some .dot := by
    intro hdot
    simp [Symbol.continues, continuesSelect, hdot] at hrest
  simp only [Nested.reader, Nested.select, bind_eq_ok, peek_eq_ok]
  refine ⟨_, _, h n rest hn rfl, _, _, rfl, ?_⟩
  rw [if_neg hdot]
  rfl

theorem selection {dot : Token} {p q : List Token} {source : Expr} {span : Span}
    {path : List Key} (hsource : Found .simple p source) (hdot : dot.kind = .dot)
    (hpath : Found .attrPath q (span, path)) :
    Found .select (p ++ dot :: q) ⟨source.span.join span, .select source path none⟩ := by
  intro n rest hn hrest
  rw [List.length_append, List.length_cons] at hn
  simp only [Symbol.continues, continuesSelect, Bool.or_eq_false_iff, beq_eq_false_iff_ne] at hrest
  simp only [Nested.reader, Nested.select, Nested.selectDefault, bind_eq_ok, peek_eq_ok,
    List.append_assoc, List.cons_append]
  refine ⟨_, _, hsource n _ (by omega) rfl, _, _, rfl, ?_⟩
  rw [headKind_cons, hdot, if_pos rfl]
  simp only [bind_eq_ok, peek_eq_ok, expect_eq_ok]
  refine ⟨_, _, ⟨hdot, rfl⟩, _, _,
    hpath n rest (by omega) (by simpa [Symbol.continues] using hrest.1),
    none, _, ⟨_, _, rfl, ?_⟩, rfl⟩
  rw [if_neg hrest.2]
  rfl

theorem selectionOr {dot orWord : Token} {p q r : List Token} {source default : Expr}
    {span : Span} {path : List Key} (hsource : Found .simple p source) (hdot : dot.kind = .dot)
    (hpath : Found .attrPath q (span, path)) (hor : orWord.kind = .keyword .orWord)
    (hdefault : Found .select r default) :
    Found .select (p ++ dot :: (q ++ orWord :: r))
      ⟨source.span.join default.span, .select source path (some default)⟩ := by
  intro n rest hn hrest
  have hlength : p.length + q.length + r.length + 2 ≤ n := by simp at hn; omega
  simp only [Nested.reader, Nested.select, Nested.selectDefault, bind_eq_ok, peek_eq_ok,
    List.append_assoc, List.cons_append]
  refine ⟨_, _, hsource n _ (by omega) rfl, _, _, rfl, ?_⟩
  rw [headKind_cons, hdot, if_pos rfl]
  simp only [bind_eq_ok, peek_eq_ok, expect_eq_ok]
  refine ⟨_, _, ⟨hdot, rfl⟩, _, _, hpath n _ (by omega) (by rw [headKind_cons, hor]; rfl),
    some default, _, ⟨_, _, rfl, ?_⟩, rfl⟩
  rw [headKind_cons, hor, if_pos rfl]
  simp only [bind_eq_ok, expect_eq_ok]
  exact ⟨_, _, ⟨hor, rfl⟩, _, _, hdefault.nestedOperand (by omega) hrest, rfl⟩

/-! ## Operators -/

theorem noArgument : Found .arguments [] [] := by
  intro n rest _ hrest
  simp only [Symbol.continues, continuesApplication, Bool.or_eq_false_iff] at hrest
  exact whileNext_stop hrest.2

/-- Behind a function or an argument the selection is over, for what follows is an
argument or the end of the application. -/
theorem select_stops {q rest : List Token} {es : List Expr} (hq : Derives .arguments q es)
    (hrest : continuesApplication (headKind rest) = false) :
    continuesSelect (headKind (q ++ rest)) = false := by
  refine headKind_append_false ?_ (Bool.or_eq_false_iff.1 hrest).1
  intro kind hkind
  have hbegins := hq.begins
  rw [hkind] at hbegins
  exact continuesSelect_of_beginsArgument hbegins

theorem argument {p q : List Token} {e : Expr} {es : List Expr} (hp : Derives .select p e)
    (hq : Derives .arguments q es) (he : Found .select p e) (hes : Found .arguments q es) :
    Found .arguments (p ++ q) (e :: es) := by
  intro n rest hn hrest
  have hbegins := hp.begins
  have hne := ne_nil_of_begins rfl hbegins
  rw [List.length_append] at hn
  rw [List.append_assoc]
  refine whileNext_more ?_ (he n _ (by omega) (select_stops hq hrest))
    (length_lt_of_ne_nil hne _) (hes n rest (by omega) hrest)
  rw [headKind_append_of_ne_nil hne]
  exact hbegins

theorem apply {p q : List Token} {function : Expr} {arguments : List Expr}
    (hq : Derives .arguments q arguments) (hfunction : Found .select p function)
    (harguments : Found .arguments q arguments) :
    Found .application (p ++ q) (applyAll function arguments) := by
  intro n rest hn hrest
  rw [List.length_append] at hn
  simp only [Nested.reader, Nested.application, bind_eq_ok, List.append_assoc]
  exact ⟨_, _, hfunction n _ (by omega) (select_stops hq hrest), _, _,
    harguments n rest (by omega) hrest, rfl⟩

theorem unnegated {p : List Token} {e : Expr} (hp : Derives .application p e)
    (h : Found .application p e) : Found .negated p e := by
  intro n rest hn hrest
  refine signed_base ?_ (h n rest hn hrest)
  rw [headKind_append_of_begins rfl hp.begins]
  intro hminus
  simpa [Symbol.begins, beginsArgument, hminus] using hp.begins

theorem negate {sign : Token} {p : List Token} {e : Expr} (hsign : sign.kind = .operator .minus)
    (h : Found .negated p e) :
    Found .negated (sign :: p) ⟨sign.span.join e.span, .negate e⟩ := by
  intro n rest hn hrest
  exact signed_cons hsign (h n rest (Nat.le_of_succ_le hn) hrest)

theorem untested {p : List Token} {e : Expr} (h : Found .negated p e) : Found .attrTest p e := by
  intro n rest hn hrest
  simp only [Symbol.continues, continuesTest, Bool.or_eq_false_iff, beq_eq_false_iff_ne] at hrest
  simp only [Nested.reader, Nested.attrTest, bind_eq_ok, peek_eq_ok]
  refine ⟨_, _, h n rest hn hrest.1, _, _, rfl, ?_⟩
  rw [if_neg hrest.2]
  rfl

theorem hasAttr {question : Token} {p q : List Token} {source : Expr} {span : Span}
    {path : List Key} (hsource : Found .negated p source) (hquestion : question.kind = .question)
    (hpath : Found .attrPath q (span, path)) :
    Found .attrTest (p ++ question :: q) ⟨source.span.join span, .hasAttr source path⟩ := by
  intro n rest hn hrest
  rw [List.length_append, List.length_cons] at hn
  have hdot : Symbol.attrPath.continues (headKind rest) = false := by
    rw [Symbol.continues, beq_eq_false_iff_ne]
    intro hdot
    rw [hdot] at hrest
    exact Bool.noConfusion hrest
  simp only [Nested.reader, Nested.attrTest, bind_eq_ok, peek_eq_ok, List.append_assoc,
    List.cons_append]
  refine ⟨_, _, hsource n _ (by omega) (by rw [headKind_cons, hquestion]; rfl), _, _, rfl, ?_⟩
  rw [headKind_cons, hquestion, if_pos rfl]
  simp only [bind_eq_ok, expect_eq_ok]
  exact ⟨_, _, ⟨hquestion, rfl⟩, _, _, hpath n rest (by omega) hdot, rfl⟩

/-- Behind an operand of a level no tighter operator follows, for what follows is an
operator of the level or the end of the chain. -/
theorem operand_stops {tower : Tower} {level : Level} {table : List Level} {q rest : List Token}
    {items : List (Operator × Expr)} (hq : Derives (.links tower level table) q items)
    (hrest : (Symbol.links tower level table).continues (headKind rest) = false) :
    (Symbol.levels tower table).continues (headKind (q ++ rest)) = false := by
  simp only [Symbol.continues, continuesLevels, List.any_cons, Bool.or_eq_false_iff,
    Bool.not_eq_false'] at hrest
  obtain ⟨⟨hsuffix, -, hlevels⟩, htower⟩ := hrest
  refine headKind_append_false ?_ ?_
  · intro kind hkind
    have hbegins := hq.begins
    rw [hkind] at hbegins
    obtain ⟨op, rfl, hop⟩ := exists_operator hbegins
    exact operator_stops hsuffix hop
  · have htable : table.isSuffixOf tower.table = true :=
      List.isSuffixOf_iff_suffix.2
        ((List.suffix_cons _ _).trans (List.isSuffixOf_iff_suffix.1 hsuffix))
    simp [Symbol.continues, continuesLevels, htable, hlevels, htower]

theorem complementedBase {p : List Token} {e : Expr} (h : Found .complemented p e) :
    Found (.levels .loose []) p e := by
  intro n rest hn hrest
  rw [Symbol.continues, Bool.or_eq_false_iff] at hrest
  exact h n rest hn hrest.2

theorem attrTestBase {p : List Token} {e : Expr} (h : Found .attrTest p e) :
    Found (.levels .tight []) p e := by
  intro n rest hn hrest
  rw [Symbol.continues, Bool.or_eq_false_iff] at hrest
  exact h n rest hn hrest.2

theorem chain {tower : Tower} {level : Level} {table : List Level} {p q : List Token}
    {first : Expr} {items : List (Operator × Expr)}
    (hq : Derives (.links tower level table) q items)
    (hfirst : Found (.levels tower table) p first)
    (hitems : Found (.links tower level table) q items) :
    Found (.levels tower (level :: table)) (p ++ q) (level.tree first items) := by
  intro n rest hn hrest
  rw [List.length_append] at hn
  change level.chain (Grammar.levels table ((Nested.limit n).base tower)) _ = _
  simp only [Level.chain, bind_eq_ok, List.append_assoc]
  exact ⟨_, _, hfirst n _ (by omega) (operand_stops hq hrest), _, _,
    hitems n rest (by omega) hrest, rfl⟩

theorem noLink {tower : Tower} {level : Level} {table : List Level} :
    Found (.links tower level table) [] [] := by
  intro n rest _ hrest
  simp only [Symbol.continues, continuesLevels, List.any_cons, Bool.or_eq_false_iff,
    Option.isSome_eq_false_iff, Option.isNone_iff_eq_none] at hrest
  apply loop_stop
  simp only [Level.link, bind_eq_ok, peek_eq_ok]
  refine ⟨_, _, rfl, ?_⟩
  rw [List.nil_append, hrest.1.2.1]
  rfl

theorem link {tower : Tower} {level : Level} {table : List Level} {op : Operator} {sign : Token}
    {p q : List Token} {right : Expr} {items : List (Operator × Expr)}
    (hsign : sign.kind = .operator op) (hop : op ∈ level.operators)
    (hq : Derives (.links tower level table) q items)
    (hright : Found (.levels tower table) p right)
    (hitems : Found (.links tower level table) q items)
    (hsingle : level.grouping = .single → q = []) :
    Found (.links tower level table) (sign :: (p ++ q)) ((op, right) :: items) := by
  intro n rest hn hrest
  rw [List.length_cons, List.length_append] at hn
  have hoperand := hright n (q ++ rest) (by omega) (operand_stops hq hrest)
  have htail := hitems n rest (by omega) hrest
  rw [List.cons_append, List.append_assoc]
  by_cases hgrouping : level.grouping = .single
  · -- An operator that does not group ends its chain, so nothing is left to be read.
    obtain rfl := hsingle hgrouping
    have hnone := @noLink tower level table n rest (Nat.zero_le _) hrest
    obtain ⟨rfl, -⟩ := Prod.mk.inj (Except.ok.inj (htail.symm.trans hnone))
    apply loop_last
    simp only [Level.link, bind_eq_ok, peek_eq_ok]
    refine ⟨_, _, rfl, ?_⟩
    rw [headKind_cons, hsign, operator?_of_mem hop]
    simp only [bind_eq_ok, expect_eq_ok, hgrouping, if_true]
    exact ⟨_, _, ⟨hsign, rfl⟩, _, _, hoperand, rfl⟩
  · refine loop_more ?_ (by simp only [List.length_cons, List.length_append]; omega) htail
    simp only [Level.link, bind_eq_ok, peek_eq_ok]
    refine ⟨_, _, rfl, ?_⟩
    rw [headKind_cons, hsign, operator?_of_mem hop]
    simp only [bind_eq_ok, expect_eq_ok, hgrouping, if_false]
    exact ⟨_, _, ⟨hsign, rfl⟩, _, _, hoperand, rfl⟩

theorem uncomplemented {p : List Token} {e : Expr}
    (hp : Derives (.levels .tight tightLevels) p e) (h : Found (.levels .tight tightLevels) p e) :
    Found .complemented p e := by
  intro n rest hn hrest
  refine signed_base ?_ (h n rest hn ?_)
  · rw [headKind_append_of_begins (Tower.begins_none _) hp.begins]
    intro hbang
    simpa [Symbol.begins, Tower.begins, beginsArgument, hbang] using hp.begins
  · simpa [Symbol.continues, Tower.continues, Tower.table] using hrest

theorem complement {sign : Token} {p : List Token} {e : Expr} (hsign : sign.kind = .bang)
    (h : Found .complemented p e) :
    Found .complemented (sign :: p) ⟨sign.span.join e.span, .complement e⟩ := by
  intro n rest hn hrest
  exact signed_cons hsign (h n rest (Nat.le_of_succ_le hn) hrest)

/-! ## Functions -/

theorem parameter {name : Token} (hname : name.kind = .identifier) :
    Found .parameter [name] ⟨name.span.join name.span, name.lexeme, none⟩ := by
  intro n rest _ hrest
  have hquestion : headKind rest ≠ some .question := by
    intro hquestion
    rw [hquestion] at hrest
    exact Bool.noConfusion hrest
  simp only [Nested.reader, Nested.parameter, Nested.parameterDefault, bind_eq_ok, require_eq_ok,
    peek_eq_ok, List.singleton_append]
  refine ⟨_, _, ⟨hname, rfl⟩, none, _, ⟨_, _, rfl, ?_⟩, rfl⟩
  rw [if_neg hquestion]
  rfl

theorem parameterOr {name question : Token} {p : List Token} {default : Expr}
    (hname : name.kind = .identifier) (hquestion : question.kind = .question)
    (hdefault : Found .expr p default) :
    Found .parameter (name :: question :: p)
      ⟨name.span.join default.span, name.lexeme, some default⟩ := by
  intro n rest hn hrest
  rw [List.length_cons, List.length_cons] at hn
  simp only [Nested.reader, Nested.parameter, Nested.parameterDefault, bind_eq_ok, require_eq_ok,
    peek_eq_ok, List.cons_append]
  refine ⟨_, _, ⟨hname, rfl⟩, some default, _, ⟨_, _, rfl, ?_⟩, rfl⟩
  rw [headKind_cons, hquestion, if_pos rfl]
  simp only [bind_eq_ok, expect_eq_ok]
  exact ⟨_, _, ⟨hquestion, rfl⟩, _, _, hdefault.nested (by omega) hrest, rfl⟩

theorem noEntry : Found .entries [] [] := by
  intro n rest _ hrest
  simp only [Symbol.continues, bne_eq_false_iff_eq] at hrest
  apply loop_stop
  simp only [Nested.parameterEntry, bind_eq_ok, peek_eq_ok]
  refine ⟨_, _, rfl, ?_⟩
  rw [List.nil_append, hrest]
  rfl

theorem ellipsis {t : Token} (ht : t.kind = .ellipsis) : Found .entries [t] [none] := by
  intro n rest _ _
  apply loop_last
  simp only [Nested.parameterEntry, bind_eq_ok, peek_eq_ok]
  refine ⟨_, _, rfl, ?_⟩
  rw [List.singleton_append, headKind_cons, ht]
  simp only [bind_eq_ok, expect_eq_ok]
  exact ⟨_, _, ⟨ht, rfl⟩, rfl⟩

theorem lastEntry {p : List Token} {x : Parameter} (hp : Derives .parameter p x)
    (h : Found .parameter p x) : Found .entries p [some x] := by
  intro n rest hn hrest
  simp only [Symbol.continues, bne_eq_false_iff_eq] at hrest
  have hkind : headKind (p ++ rest) = some .identifier := by
    rw [headKind_append_of_begins rfl hp.begins]
    simpa [Symbol.begins] using hp.begins
  apply loop_last
  simp only [Nested.parameterEntry, bind_eq_ok, peek_eq_ok]
  refine ⟨_, _, rfl, ?_⟩
  rw [hkind]
  simp only [bind_eq_ok, peek_eq_ok]
  refine ⟨_, _, h n rest hn (by rw [hrest]; rfl), _, _, rfl, ?_⟩
  rw [hrest, if_neg (by simp)]
  rfl

theorem entry {comma : Token} {p q : List Token} {x : Parameter} {xs : List (Option Parameter)}
    (hp : Derives .parameter p x) (h : Found .parameter p x) (hcomma : comma.kind = .comma)
    (hxs : Found .entries q xs) : Found .entries (p ++ comma :: q) (some x :: xs) := by
  intro n rest hn hrest
  have hkind : headKind (p ++ comma :: (q ++ rest)) = some .identifier := by
    rw [headKind_append_of_begins rfl hp.begins]
    simpa [Symbol.begins] using hp.begins
  rw [List.length_append, List.length_cons] at hn
  rw [List.append_assoc, List.cons_append]
  refine loop_more ?_ (by simp only [List.length_cons, List.length_append]; omega)
    (hxs n rest (by omega) hrest)
  simp only [Nested.parameterEntry, bind_eq_ok, peek_eq_ok]
  refine ⟨_, _, rfl, ?_⟩
  rw [hkind]
  simp only [bind_eq_ok, peek_eq_ok]
  refine ⟨_, _, h n _ (by omega) (by rw [headKind_cons, hcomma]; rfl), _, _, rfl, ?_⟩
  rw [headKind_cons, hcomma, if_pos rfl]
  simp only [bind_eq_ok, expect_eq_ok]
  exact ⟨_, _, ⟨hcomma, rfl⟩, rfl⟩

theorem parameterList {whole? : Option Text} {opening closing : Token} {p : List Token}
    {entries : List (Option Parameter)} (hopening : opening.kind = .braceOpen)
    (h : Found .entries p entries) (hclosing : closing.kind = .braceClose) :
    Found (.parameterList whole?) (opening :: (p ++ [closing]))
      ⟨opening.span.join closing.span, entries.filterMap id, entries.any Option.isNone,
        whole?⟩ := by
  intro n rest hn _
  simp only [Nested.reader, Nested.parameterList, bind_eq_ok, expect_eq_ok, require_eq_ok,
    pure_eq_ok, List.cons_append, List.append_assoc, List.nil_append]
  refine ⟨_, _, ⟨hopening, rfl⟩, _, _, h n _ (by simp at hn; omega) ?_, _, _, ⟨hclosing, rfl⟩,
    rfl⟩
  rw [headKind_cons, hclosing]
  rfl

end Found

end Grammar
end FlakeInputs
