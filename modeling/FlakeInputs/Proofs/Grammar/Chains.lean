import FlakeInputs.Proofs.Grammar.Completeness
import FlakeInputs.Proofs.Grammar.Frames

/-!
# Chains of operands

A chain is a row of operands with an operator between every two.  The reader of a level cuts a
chain at the operators of that level and leaves what is between them to the next tighter one.  On a
level that does not group, it stops at the second operator, and so do all the looser ones.
-/

namespace FlakeInputs
namespace Grammar

/-! ## Grouping by level -/

namespace Level

variable (level : Level)

/-- Whether the operator in front of an operand belongs to the level. -/
def has (item : Operator × Expr) : Bool :=
  item.1 ∈ level.operators

theorem has_iff {item : Operator × Expr} : level.has item = true ↔ item.1 ∈ level.operators :=
  decide_eq_true_iff

/-- The operands in front of the first operator of the level. -/
def before (rest : List (Operator × Expr)) : List (Operator × Expr) :=
  rest.takeWhile fun item => !level.has item

/-- The operands from the first operator of the level on. -/
def since (rest : List (Operator × Expr)) : List (Operator × Expr) :=
  rest.dropWhile fun item => !level.has item

/-- The operands of the level, each of them grouped by what is tighter, of a chain whose first
operator is one of the level.  Two operators that do not group make it fail. -/
def links (group : Expr → List (Operator × Expr) → Option Expr) :
    List (Operator × Expr) → Option (List (Operator × Expr))
  | [] => some []
  | (op, right) :: rest => do
    let operand ← group right (level.before rest)
    if level.grouping = .single then
      if (level.since rest).isEmpty then some [(op, operand)] else none
    else
      let items ← links group (level.since rest)
      return (op, operand) :: items
termination_by rest => rest.length
decreasing_by exact Nat.lt_succ_of_le (List.dropWhile_sublist _).length_le

/-- The tree of a chain that is cut at the operators of the level. -/
def group (group : Expr → List (Operator × Expr) → Option Expr) (first : Expr)
    (rest : List (Operator × Expr)) : Option Expr := do
  let operand ← group first (level.before rest)
  let items ← level.links group (level.since rest)
  return level.tree operand items

end Level

/-- The tree of a chain with operators of several levels, the loosest first. -/
def groups (table : List Level) (group : Expr → List (Operator × Expr) → Option Expr) :
    Expr → List (Operator × Expr) → Option Expr :=
  table.foldr Level.group group

/-! ## Chains of tokens -/

/-- What is taken for an operand: an identifier, or an expression in parentheses. -/
inductive IsOperand : List Token → Expr → Prop
  | identifier {t : Token} (h : t.kind = .identifier) :
      IsOperand [t] ⟨t.span, .identifier t.lexeme⟩
  | parenthesised {opening closing : Token} {p : List Token} {e : Expr}
      (hopening : opening.kind = .parenOpen) (h : whole p = .ok e)
      (hclosing : closing.kind = .parenClose) : IsOperand (opening :: (p ++ [closing])) e

/-- An operand with its tokens. -/
structure Operand where
  tokens : List Token
  value : Expr
  isOperand : IsOperand tokens value

/-- An operator with its token and the operand behind it. -/
structure Link where
  sign : Token
  op : Operator
  kind_eq : sign.kind = .operator op
  operand : Operand

/-- The operator and the operand of a link, without their tokens. -/
def Link.item (l : Link) : Operator × Expr :=
  (l.op, l.operand.value)

/-- The tokens of some links of a chain. -/
def chainTokens (rest : List Link) : List Token :=
  rest.flatMap fun l => l.sign :: l.operand.tokens

@[simp]
theorem chainTokens_nil : chainTokens [] = [] := rfl

theorem chainTokens_cons (l : Link) (rest : List Link) :
    chainTokens (l :: rest) = l.sign :: (l.operand.tokens ++ chainTokens rest) := rfl

@[simp]
theorem chainTokens_append (rest rest' : List Link) :
    chainTokens (rest ++ rest') = chainTokens rest ++ chainTokens rest' :=
  List.flatMap_append

theorem Operand.derives (o : Operand) : Derives .simple o.tokens o.value := by
  obtain ⟨tokens, value, h⟩ := o
  cases h with
  | identifier h => exact .identifier h
  | parenthesised hopening h hclosing => exact .parenthesised hopening (whole_iff.1 h) hclosing

theorem Operand.headKind (o : Operand) :
    headKind o.tokens = some .identifier ∨ headKind o.tokens = some .parenOpen := by
  obtain ⟨tokens, value, h⟩ := o
  cases h with
  | identifier h => exact .inl (congrArg some h)
  | parenthesised hopening => exact .inr (congrArg some hopening)

theorem Operand.tokens_ne_nil (o : Operand) : o.tokens ≠ [] := by
  obtain ⟨tokens, value, h⟩ := o
  cases h <;> exact List.cons_ne_nil _ _

/-! ## Readers on chains -/

/-- The links of a chain have operators among the given ones, and the operands nest at most `n`
deep. -/
def Within (n : Nat) (ops : List Operator) (rest : List Link) : Prop :=
  ∀ l ∈ rest, l.op ∈ ops ∧ l.operand.tokens.length ≤ n

/-- Behind a chain with the given operators the tokens end, or go on with another operator. -/
def Stops (ops : List Operator) (tail : List Token) : Prop :=
  ∀ kind ∈ headKind tail, ∃ op, kind = .operator op ∧ op ∉ ops

/-- What is read of some links in front of the tokens `tail`: all of them if they group, and
otherwise all but the last ones. -/
def Takes {α : Type} (read : Except Fault (α × List Token)) (value? : Option α) (rest : List Link)
    (tail : List Token) : Prop :=
  match value? with
  | some v => read = .ok (v, tail)
  | none => ∃ v left, left ≠ [] ∧ left <:+ rest ∧ read = .ok (v, chainTokens left ++ tail)

/-- The reader reads chains with the given operators, and groups them as `group` says. -/
def GroupsBy (n : Nat) (reader : Reader Expr) (group : Expr → List (Operator × Expr) → Option Expr)
    (ops : List Operator) : Prop :=
  ∀ (first : Operand) (rest : List Link) (tail : List Token), first.tokens.length ≤ n →
    Within n ops rest → Stops ops tail →
      Takes (reader (first.tokens ++ (chainTokens rest ++ tail)))
        (group first.value (rest.map Link.item)) rest tail

section
variable {n : Nat} {level : Level} {ops : List Operator} {rest left : List Link} {tail : List Token}

theorem Within.of_suffix (h : Within n ops rest) (hleft : left <:+ rest) : Within n ops left :=
  fun l hl => h l (hleft.subset hl)

/-- Where a chain goes on with an operator that is none of the given ones. -/
theorem stops_chain (htail : Stops ops tail) (hrest : ∀ l ∈ rest.head?, l.op ∉ ops) :
    Stops ops (chainTokens rest ++ tail) := by
  cases rest with
  | nil => exact htail
  | cons l rest =>
    intro kind hkind
    rw [chainTokens_cons, List.cons_append, headKind_cons, Option.mem_some] at hkind
    exact ⟨l.op, hkind ▸ l.kind_eq, hrest l rfl⟩

theorem Stops.operator?_eq_none (h : Stops ops tail) (hops : ∀ op ∈ level.operators, op ∈ ops) :
    level.operator? (headKind tail) = none := by
  cases hkind : headKind tail with
  | none => rfl
  | some kind =>
    obtain ⟨op, rfl, hop⟩ := h kind hkind
    exact if_neg fun hmem => hop (hops op hmem)

theorem link_stop {operand : Reader Expr} (h : level.operator? (headKind tail) = none) :
    level.link operand tail = .ok (.stop, tail) := by
  simp only [Level.link, bind_eq_ok, peek_eq_ok]
  refine ⟨_, _, rfl, ?_⟩
  rw [h]
  rfl

theorem link_operand {operand : Reader Expr} {l : Link} {ts : List Token} {e : Expr}
    (hop : l.op ∈ level.operators) (h : operand ts = .ok (e, tail)) :
    level.link operand (l.sign :: ts) =
      .ok (if level.grouping = .single then .last (l.op, e) else .more (l.op, e), tail) := by
  simp only [Level.link, bind_eq_ok, peek_eq_ok]
  refine ⟨_, _, rfl, ?_⟩
  rw [headKind_cons, l.kind_eq, operator?_of_mem hop]
  simp only [bind_eq_ok, expect_eq_ok]
  exact ⟨_, _, ⟨l.kind_eq, rfl⟩, _, _, h, rfl⟩

end

section
variable {n : Nat} {level : Level} {ops : List Operator} {rest : List Link} {tail : List Token}

/-- The links in front of the first operator of the level. -/
def linksBefore (level : Level) (rest : List Link) : List Link :=
  rest.takeWhile fun l => !level.has l.item

/-- The links from the first operator of the level on. -/
def linksSince (level : Level) (rest : List Link) : List Link :=
  rest.dropWhile fun l => !level.has l.item

theorem before_map_item :
    level.before (rest.map Link.item) = (linksBefore level rest).map Link.item :=
  List.takeWhile_map

theorem since_map_item :
    level.since (rest.map Link.item) = (linksSince level rest).map Link.item :=
  List.dropWhile_map

theorem linksBefore_append_linksSince (level : Level) (rest : List Link) :
    linksBefore level rest ++ linksSince level rest = rest :=
  List.takeWhile_append_dropWhile

theorem not_mem_of_linksBefore {l : Link} (h : l ∈ linksBefore level rest) :
    l.op ∉ level.operators := by
  have hall := List.all_takeWhile (p := fun l : Link => !level.has l.item) (l := rest)
  have hnot := List.all_eq_true.1 hall l h
  rw [Bool.not_eq_true', ← Bool.not_eq_true, Level.has_iff] at hnot
  exact hnot

theorem mem_of_linksSince {l : Link} (h : l ∈ (linksSince level rest).head?) :
    l.op ∈ level.operators := by
  have hhead := List.head?_dropWhile_not (fun l : Link => !level.has l.item) rest
  rw [linksSince, Option.mem_def] at h
  rw [h] at hhead
  exact level.has_iff.1 ((Bool.not_eq_false' _).mp hhead)

theorem Within.linksBefore (h : Within n (level.operators ++ ops) rest) :
    Within n ops (linksBefore level rest) := by
  intro l hl
  obtain ⟨hop, hlength⟩ := h l ((List.takeWhile_sublist _).subset hl)
  exact ⟨(List.mem_append.1 hop).resolve_left (not_mem_of_linksBefore hl), hlength⟩

/-- An operand of a level is read up to the next operator of the level. -/
theorem GroupsBy.takes_before {operand : Reader Expr}
    {group : Expr → List (Operator × Expr) → Option Expr} (h : GroupsBy n operand group ops)
    (hdisjoint : ∀ op ∈ level.operators, op ∉ ops) {first : Operand}
    (hfirst : first.tokens.length ≤ n) (hrest : Within n (level.operators ++ ops) rest)
    (htail : Stops (level.operators ++ ops) tail) :
    Takes (operand (first.tokens ++ (chainTokens rest ++ tail)))
      (group first.value (level.before (rest.map Link.item))) (linksBefore level rest)
      (chainTokens (linksSince level rest) ++ tail) := by
  have hstops : Stops ops (chainTokens (linksSince level rest) ++ tail) := by
    refine stops_chain ?_ fun l hl => hdisjoint _ (mem_of_linksSince hl)
    intro kind hkind
    obtain ⟨op, rfl, hop⟩ := htail kind hkind
    exact ⟨op, rfl, fun hmem => hop (List.mem_append_right _ hmem)⟩
  have htakes := h first _ _ hfirst hrest.linksBefore hstops
  rwa [← List.append_assoc (chainTokens _), ← chainTokens_append, linksBefore_append_linksSince,
    ← before_map_item] at htakes

/-- What is left of the operands in front of an operator of the level ends the loop. -/
theorem operator?_of_left {left : List Link} (hne : left ≠ [])
    (hleft : left <:+ linksBefore level rest) (tail : List Token) :
    level.operator? (headKind (chainTokens left ++ tail)) = none := by
  obtain ⟨l, left, rfl⟩ := List.exists_cons_of_ne_nil hne
  rw [chainTokens_cons, List.cons_append, headKind_cons, l.kind_eq]
  exact if_neg (not_mem_of_linksBefore (hleft.subset List.mem_cons_self))

theorem suffix_linksSince {left : List Link} (hleft : left <:+ linksBefore level rest) :
    left ++ linksSince level rest <:+ rest := by
  obtain ⟨front, hfront⟩ := hleft
  exact ⟨front, by rw [← List.append_assoc, hfront, linksBefore_append_linksSince]⟩

theorem length_chainTokens_le {left : List Link} (h : left <:+ rest) (tail : List Token) :
    (chainTokens left ++ tail).length ≤ (chainTokens rest ++ tail).length := by
  obtain ⟨front, rfl⟩ := h
  simp only [chainTokens_append, List.length_append]
  omega

/-- Behind a link, the rest of a chain is shorter. -/
theorem length_lt_of_suffix {left : List Link} (h : left <:+ rest) (l : Link) (tail : List Token) :
    (chainTokens left ++ tail).length <
      (l.sign :: (l.operand.tokens ++ (chainTokens rest ++ tail))).length := by
  have hle := length_chainTokens_le h tail
  simp only [List.length_cons, List.length_append] at hle ⊢
  omega

/-- A link is the last one on a level that does not group, or if no operator of the level follows
it. -/
theorem loop_link {operand : Reader Expr} {item : Operator × Expr} {ts rest : List Token}
    (h : level.link operand ts =
      .ok (if level.grouping = .single then .last item else .more item, rest))
    (hlt : rest.length < ts.length)
    (hstop : level.grouping = .single ∨ level.operator? (headKind rest) = none) :
    loop (level.link operand) ts = .ok ([item], rest) := by
  by_cases hsingle : level.grouping = .single
  · rw [if_pos hsingle] at h
    exact loop_last h
  · rw [if_neg hsingle] at h
    exact loop_more h hlt (loop_stop (link_stop (hstop.resolve_left hsingle)))

/-- An operand that is not read to its end is the last one of the loop: what is left of it begins
with an operator of a tighter level. -/
theorem takes_loop_of_left {operand : Reader Expr} {l : Link} {left : List Link} {e : Expr}
    (hop : l.op ∈ level.operators) (hne : left ≠ []) (hleft : left <:+ linksBefore level rest)
    (hread : operand (l.operand.tokens ++ (chainTokens rest ++ tail)) =
      .ok (e, chainTokens left ++ (chainTokens (linksSince level rest) ++ tail))) :
    Takes (Grammar.loop (level.link operand) (chainTokens (l :: rest) ++ tail)) none (l :: rest)
      tail := by
  have hsuffix := suffix_linksSince hleft
  have hshorter := length_lt_of_suffix hsuffix l tail
  refine ⟨[(l.op, e)], left ++ linksSince level rest, List.append_ne_nil_of_left_ne_nil hne _,
    hsuffix.trans (List.suffix_cons l rest), ?_⟩
  rw [chainTokens_append, List.append_assoc] at hshorter ⊢
  rw [chainTokens_cons, List.cons_append, List.append_assoc]
  exact loop_link (link_operand hop hread) hshorter (.inr (operator?_of_left hne hleft _))

/-- On a level that does not group, the first link is the last one of the loop. -/
theorem takes_loop_of_single {operand : Reader Expr} {l : Link} {e : Expr}
    (hsingle : level.grouping = .single) (hop : l.op ∈ level.operators)
    (hread : operand (l.operand.tokens ++ (chainTokens rest ++ tail)) =
      .ok (e, chainTokens (linksSince level rest) ++ tail)) :
    Takes (Grammar.loop (level.link operand) (chainTokens (l :: rest) ++ tail))
      (if (linksSince level rest).isEmpty then some [(l.op, e)] else none) (l :: rest) tail := by
  have hsuffix : linksSince level rest <:+ rest := List.dropWhile_suffix _
  have hloop := loop_link (link_operand hop hread) (length_lt_of_suffix hsuffix l tail)
    (.inl hsingle)
  rw [chainTokens_cons, List.cons_append, List.append_assoc]
  cases hsince : linksSince level rest with
  | nil =>
    rw [hsince] at hloop
    exact hloop
  | cons l' left =>
    rw [hsince] at hloop hsuffix
    exact ⟨_, l' :: left, List.cons_ne_nil l' left, hsuffix.trans (List.suffix_cons l rest), hloop⟩

/-- The loop of a level groups the links from the first operator of the level on. -/
theorem GroupsBy.loop {operand : Reader Expr}
    {group : Expr → List (Operator × Expr) → Option Expr} (h : GroupsBy n operand group ops)
    (hdisjoint : ∀ op ∈ level.operators, op ∉ ops) (hrest : Within n (level.operators ++ ops) rest)
    (hfirst : ∀ l ∈ rest.head?, l.op ∈ level.operators)
    (htail : Stops (level.operators ++ ops) tail) :
    Takes (Grammar.loop (level.link operand) (chainTokens rest ++ tail))
      (level.links group (rest.map Link.item)) rest tail := by
  induction hn : rest.length using Nat.strongRecOn generalizing rest with
  | _ k ih =>
    subst hn
    cases rest with
    | nil =>
      rw [List.map_nil, Level.links]
      exact loop_stop (link_stop (htail.operator?_eq_none fun op hop => List.mem_append_left _ hop))
    | cons l rest =>
      have hop := hfirst l rfl
      have hbehind : Within n (level.operators ++ ops) rest :=
        hrest.of_suffix (List.suffix_cons l rest)
      have htakes := h.takes_before hdisjoint (hrest l List.mem_cons_self).2 hbehind htail
      rw [List.map_cons, Link.item, Level.links]
      cases hgroup : group l.operand.value (level.before (rest.map Link.item)) with
      | none =>
        rw [hgroup] at htakes
        obtain ⟨e, left, hne, hleft, hread⟩ := htakes
        exact takes_loop_of_left hop hne hleft hread
      | some e =>
        rw [hgroup] at htakes
        rw [since_map_item]
        simp only [Option.bind_eq_bind, Option.bind_some]
        by_cases hsingle : level.grouping = .single
        · rw [if_pos hsingle, List.isEmpty_map]
          exact takes_loop_of_single hsingle hop htakes
        · have hsuffix : linksSince level rest <:+ rest := List.dropWhile_suffix _
          have hshorter := length_lt_of_suffix hsuffix l tail
          have hlink := link_operand hop htakes
          rw [if_neg hsingle] at hlink ⊢
          have hloop := ih (linksSince level rest).length (Nat.lt_succ_of_le hsuffix.length_le)
            (hbehind.of_suffix hsuffix) (fun l' hl' => mem_of_linksSince hl') rfl
          rw [chainTokens_cons, List.cons_append, List.append_assoc]
          cases hlinks : level.links group ((linksSince level rest).map Link.item) with
          | none =>
            rw [hlinks] at hloop
            obtain ⟨items, left, hne, hleft, hread⟩ := hloop
            exact ⟨_, left, hne, (hleft.trans hsuffix).trans (List.suffix_cons l rest),
              loop_more hlink hshorter hread⟩
          | some items =>
            rw [hlinks] at hloop
            exact loop_more hlink hshorter hloop

theorem chain_eq_ok {operand : Reader Expr} {e : Expr} {items : List (Operator × Expr)}
    {ts mid rest : List Token} (h : operand ts = .ok (e, mid))
    (hloop : loop (level.link operand) mid = .ok (items, rest)) :
    level.chain operand ts = .ok (level.tree e items, rest) := by
  simp only [Level.chain, bind_eq_ok]
  exact ⟨_, _, h, _, _, hloop, rfl⟩

/-- The reader of a level groups chains as the level does. -/
theorem GroupsBy.chain {operand : Reader Expr}
    {group : Expr → List (Operator × Expr) → Option Expr} (h : GroupsBy n operand group ops)
    (hdisjoint : ∀ op ∈ level.operators, op ∉ ops) :
    GroupsBy n (level.chain operand) (level.group group) (level.operators ++ ops) := by
  intro first rest tail hfirst hrest htail
  have htakes := h.takes_before hdisjoint hfirst hrest htail
  unfold Level.group
  cases hgroup : group first.value (level.before (rest.map Link.item)) with
  | none =>
    rw [hgroup] at htakes
    obtain ⟨e, left, hne, hleft, hread⟩ := htakes
    have hloop : Grammar.loop (level.link operand) _ = _ := loop_stop (link_stop
      (operator?_of_left hne hleft (chainTokens (linksSince level rest) ++ tail)))
    rw [← List.append_assoc (chainTokens left), ← chainTokens_append] at hread hloop
    exact ⟨_, left ++ linksSince level rest, List.append_ne_nil_of_left_ne_nil hne _,
      suffix_linksSince hleft, chain_eq_ok hread hloop⟩
  | some e =>
    rw [hgroup] at htakes
    have hsuffix : linksSince level rest <:+ rest := List.dropWhile_suffix _
    have hloop := h.loop hdisjoint (hrest.of_suffix hsuffix)
      (fun l hl => mem_of_linksSince hl) htail
    rw [since_map_item]
    cases hlinks : level.links group ((linksSince level rest).map Link.item) with
    | none =>
      rw [hlinks] at hloop
      obtain ⟨items, left, hne, hleft, hread⟩ := hloop
      exact ⟨_, left, hne, hleft.trans hsuffix, chain_eq_ok htakes hread⟩
    | some items =>
      rw [hlinks] at hloop
      exact chain_eq_ok htakes hloop

/-- The readers of several levels group chains as the levels do, the loosest first. -/
theorem GroupsBy.levels {table : List Level} {operand : Reader Expr}
    {group : Expr → List (Operator × Expr) → Option Expr} (h : GroupsBy n operand group ops)
    (hnodup : (table.flatMap Level.operators ++ ops).Nodup) :
    GroupsBy n (Grammar.levels table operand) (groups table group)
      (table.flatMap Level.operators ++ ops) := by
  induction table with
  | nil => exact h
  | cons level table ih =>
    rw [List.flatMap_cons, List.append_assoc] at hnodup ⊢
    obtain ⟨-, hbehind, hdisjoint⟩ := List.nodup_append.1 hnodup
    exact (ih hbehind).chain fun op hop hmem => hdisjoint op hop op hmem rfl

theorem GroupsBy.signed {kind : TokenKind} {node : Expr → Node} {operand : Reader Expr}
    {group : Expr → List (Operator × Expr) → Option Expr} (h : GroupsBy n operand group ops)
    (hidentifier : kind ≠ .identifier) (hparen : kind ≠ .parenOpen) :
    GroupsBy n (Grammar.signed kind node operand) group ops := by
  intro first rest tail hfirst hrest htail
  have htakes := h first rest tail hfirst hrest htail
  have hkind : headKind (first.tokens ++ (chainTokens rest ++ tail)) ≠ some kind := by
    rw [headKind_append_of_ne_nil first.tokens_ne_nil]
    rcases first.headKind with hhead | hhead <;> rw [hhead]
    · exact fun heq => hidentifier (Option.some.inj heq).symm
    · exact fun heq => hparen (Option.some.inj heq).symm
  unfold Takes at htakes ⊢
  split at htakes
  · exact signed_base hkind htakes
  · obtain ⟨e, left, hne, hleft, hread⟩ := htakes
    exact ⟨e, left, hne, hleft, signed_base hkind hread⟩

end

/-! ## Whole chains -/

/-- An operand by itself is read as it is. -/
theorem groupsBy_attrTest (n : Nat) :
    GroupsBy n (Nested.limit n).attrTest (fun first _ => some first) [] := by
  intro first rest tail hfirst hrest htail
  obtain rfl : rest = [] :=
    List.eq_nil_iff_forall_not_mem.2 fun l hl => List.not_mem_nil (hrest l hl).1
  refine first.derives.attrTest_of_simple.found n tail hfirst ?_
  cases hkind : headKind tail with
  | none => rfl
  | some kind =>
    obtain ⟨op, rfl, -⟩ := htail kind hkind
    cases op <;> rfl

/-- Every operator belongs to one level. -/
theorem mem_operators (op : Operator) :
    op ∈ looseLevels.flatMap Level.operators ++ (tightLevels.flatMap Level.operators ++ []) := by
  cases op <;> decide

theorem groupsBy_operation (n : Nat) :
    GroupsBy n (Nested.limit n).operation
      (groups (looseLevels ++ tightLevels) fun first _ => some first)
      (looseLevels.flatMap Level.operators ++ (tightLevels.flatMap Level.operators ++ [])) := by
  have htight : GroupsBy n (levels tightLevels (Nested.limit n).attrTest) _ _ :=
    (groupsBy_attrTest n).levels (by decide)
  have hsigned : GroupsBy n (signed .bang .complement _) _ _ :=
    htight.signed (by decide) (by decide)
  rw [groups, List.foldr_append]
  exact hsigned.levels (by decide)

theorem Operand.operates (o : Operand) (rest : List Link) :
    Operates (o.tokens ++ chainTokens rest) := by
  refine o.derives.operates rfl _ ?_ ?_ <;> cases rest with
  | nil => exact nofun
  | cons l rest =>
    rw [chainTokens_cons, headKind_cons, l.kind_eq]
    exact nofun

theorem length_operand_le {l : Link} {rest : List Link} (h : l ∈ rest) :
    l.operand.tokens.length ≤ (chainTokens rest).length := by
  obtain ⟨before, after, rfl⟩ := List.append_of_mem h
  rw [chainTokens_append, chainTokens_cons, List.length_append, List.length_cons,
    List.length_append]
  omega

/-- A chain is read as its levels group it, and refused where they do not. -/
theorem whole_eq_groups (first : Operand) (rest : List Link) :
    (whole (first.tokens ++ chainTokens rest)).toOption =
      groups (looseLevels ++ tightLevels) (fun first _ => some first) first.value
        (rest.map Link.item) := by
  have hlength : (first.tokens ++ chainTokens rest).length =
      first.tokens.length + (chainTokens rest).length := List.length_append
  have hwithin : Within (first.tokens ++ chainTokens rest).length _ rest :=
    fun l hl => ⟨mem_operators l.op, by have := length_operand_le hl; omega⟩
  have htakes := groupsBy_operation _ first rest [] (by omega) hwithin (by exact nofun)
  rw [List.append_nil, ← first.operates rest] at htakes
  have hexpr : (Nested.limit ((first.tokens ++ chainTokens rest).length + 1)).expr
        (first.tokens ++ chainTokens rest) =
      (Nested.limit (first.tokens ++ chainTokens rest).length).expression
        (first.tokens ++ chainTokens rest) := rfl
  rw [whole, hexpr]
  unfold Takes at htakes
  split at htakes
  · next e heq =>
    rw [htakes, heq]
    rfl
  · next heq =>
    obtain ⟨e, left, hne, -, hread⟩ := htakes
    rw [hread, heq]
    obtain ⟨l, left, rfl⟩ := List.exists_cons_of_ne_nil hne
    rfl

end Grammar
end FlakeInputs
