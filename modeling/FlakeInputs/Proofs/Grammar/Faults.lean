import FlakeInputs.Grammar.Expression

/-!
# What readers blame

A reader leaves no other tokens than those that it was given, and when it refuses, it blames one of
them or the end of the text.  The property is closed under the ways in which readers are put
together, so it holds of every production.
-/

namespace FlakeInputs
namespace Grammar

variable {α β : Type}

/-- What a fault blames is among the given tokens. -/
def Fault.Among (ts : List Token) : Fault → Prop
  | .unexpected (some t) _ => t ∈ ts
  | .unexpected none _ => True
  | .legacyLet span => ∃ t ∈ ts, t.span = span
  | .integerTooLong _ => True

theorem Fault.Among.mono {ts ts' : List Token} {fault : Fault} (h : fault.Among ts)
    (hts : ts ⊆ ts') : fault.Among ts' := by
  cases fault with
  | unexpected found expected =>
    cases found with
    | none => trivial
    | some t => exact hts h
  | legacyLet span =>
    obtain ⟨t, ht, hspan⟩ := h
    exact ⟨t, hts ht, hspan⟩
  | integerTooLong digits => trivial

/-- What a reader may answer to some tokens. -/
def Answers (ts : List Token) : Except Fault (α × List Token) → Prop
  | .ok (_, rest) => rest ⊆ ts
  | .error fault => fault.Among ts

theorem Answers.mono {ts ts' : List Token} {answer : Except Fault (α × List Token)}
    (h : Answers ts answer) (hts : ts ⊆ ts') : Answers ts' answer := by
  cases answer with
  | ok read => exact List.Subset.trans h hts
  | error fault => exact Fault.Among.mono h hts

/-- A reader that keeps to the tokens that it is given. -/
def Local (r : Reader α) : Prop :=
  ∀ ts, Answers ts (r ts)

/-! ## Combinators -/

theorem local_pure (a : α) : Local (pure a) :=
  fun ts => List.Subset.refl ts

theorem Local.bind {x : Reader α} {f : α → Reader β} (hx : Local x) (hf : ∀ a, Local (f a)) :
    Local (x >>= f) := by
  intro ts
  have hfirst := hx ts
  change Answers ts (StateT.bind x f ts)
  unfold StateT.bind
  cases hread : x ts with
  | error fault =>
    rw [hread] at hfirst
    exact hfirst
  | ok read =>
    obtain ⟨a, rest⟩ := read
    rw [hread] at hfirst
    exact (hf a rest).mono hfirst

theorem local_peek : Local peek :=
  fun ts => List.Subset.refl ts

theorem local_lookahead : Local Nested.lookahead :=
  fun ts => List.Subset.refl ts

theorem local_refuse (expected : Expected) : Local (refuse expected : Reader α) := by
  intro ts
  cases ts with
  | nil => trivial
  | cons t ts => exact List.mem_cons_self

theorem local_require (kind : TokenKind) (expected : Expected) : Local (require kind expected) := by
  intro ts
  cases ts with
  | nil => trivial
  | cons t ts =>
    by_cases hkind : t.kind = kind
    · simp only [require, if_pos hkind]
      exact List.subset_cons_self t ts
    · simp only [require, if_neg hkind]
      exact List.mem_cons_self

theorem local_expect (kind : TokenKind) : Local (expect kind) :=
  local_require kind (.token kind)

theorem local_run (kind : TokenKind) : Local (run kind) :=
  fun _ => (List.dropWhile_sublist _).subset

theorem local_loop {round : Reader (Round α)} (h : Local round) : Local (loop round) := by
  intro ts
  induction hn : ts.length using Nat.strongRecOn generalizing ts with
  | _ n ih =>
    subst hn
    have hround := h ts
    rw [loop]
    split
    · next fault hfault =>
      rw [hfault] at hround
      exact hround
    · next rest hstop =>
      rw [hstop] at hround
      exact hround
    · next item rest hlast =>
      rw [hlast] at hround
      exact hround
    · next item rest hmore =>
      rw [hmore] at hround
      split
      · next hless =>
        have hrest := (ih _ hless rest rfl).mono hround
        split
        · next fault hfault =>
          rw [hfault] at hrest
          exact hrest
        · next items rest' hitems =>
          rw [hitems] at hrest
          exact hrest
      · exact hround

theorem local_ite {condition : Prop} [Decidable condition] {yes no : Reader α} (hyes : Local yes)
    (hno : Local no) : Local (if condition then yes else no) := by
  by_cases h : condition
  · rwa [if_pos h]
  · rwa [if_neg h]

theorem local_whileNext {more : Option TokenKind → Bool} {item : Reader α} (h : Local item) :
    Local (whileNext more item) :=
  local_loop <| local_peek.bind fun _ =>
    local_ite (h.bind fun _ => local_pure _) (local_pure _)

/-! ## Operators -/

theorem Local.chain {operand : Reader Expr} (h : Local operand) (level : Level) :
    Local (level.chain operand) := by
  refine h.bind fun first => (local_loop ?_).bind fun rest => local_pure _
  refine local_peek.bind fun next => ?_
  split
  · exact local_pure _
  · exact (local_expect _).bind fun _ => h.bind fun _ => local_pure _

theorem Local.levels {operand : Reader Expr} (h : Local operand) (table : List Level) :
    Local (levels table operand) := by
  induction table with
  | nil => exact h
  | cons level table ih => exact ih.chain level

theorem Local.signed {operand : Reader Expr} (h : Local operand) (kind : TokenKind)
    (node : Expr → Node) : Local (signed kind node operand) :=
  (local_run kind).bind fun _ => h.bind fun _ => local_pure _

/-! ## Productions -/

namespace Nested

/-- Readers for nested expressions that keep to their tokens. -/
structure IsLocal (g : Nested) : Prop where
  expr : Local g.expr
  operand : Local g.operand

namespace IsLocal

variable {g : Nested} (hg : g.IsLocal)
include hg

theorem interpolation : Local g.interpolation :=
  (local_expect _).bind fun _ => hg.expr.bind fun _ =>
    (local_require _ _).bind fun _ => local_pure _

theorem part (delimiter : TokenKind) : Local (g.part delimiter) := by
  refine local_peek.bind fun next => local_ite (local_pure _) (local_ite ?_ (local_ite ?_ ?_))
  · exact (local_expect _).bind fun _ => local_pure _
  · exact hg.interpolation.bind fun _ => local_pure _
  · exact local_refuse _

theorem literal (delimiter : TokenKind) (closing : Expected) :
    Local (g.literal delimiter closing) :=
  (local_expect _).bind fun _ => (local_loop (hg.part delimiter)).bind fun _ =>
    (local_require _ _).bind fun _ => local_pure _

theorem key : Local g.key := by
  refine local_peek.bind fun next => ?_
  split
  · exact (local_expect _).bind fun _ => local_pure _
  · exact (local_expect _).bind fun _ => local_pure _
  · exact (hg.literal _ _).bind fun _ => local_pure _
  · exact hg.interpolation.bind fun _ => local_pure _
  · exact local_refuse _

theorem attrPath : Local g.attrPath :=
  hg.key.bind fun _ => (local_whileNext ((local_expect _).bind fun _ => hg.key)).bind fun _ =>
    local_pure _

theorem keyValue : Local g.keyValue :=
  hg.attrPath.bind fun _ => (local_require _ _).bind fun _ => hg.expr.bind fun _ =>
    (local_require _ _).bind fun _ => local_pure _

theorem inheritSource : Local g.inheritSource :=
  local_peek.bind fun _ => local_ite
    ((local_expect _).bind fun _ => hg.expr.bind fun _ => (local_expect _).bind fun _ =>
      local_pure _)
    (local_pure _)

theorem inherited : Local g.inherited :=
  (local_expect _).bind fun _ => hg.inheritSource.bind fun _ =>
    (local_whileNext hg.key).bind fun _ => (local_expect _).bind fun _ => local_pure _

theorem binding (closing : TokenKind) : Local (g.binding closing) := by
  refine local_peek.bind fun next => ?_
  split
  · exact local_refuse _
  · refine local_ite (local_pure _) (local_ite ?_ ?_)
    · exact hg.inherited.bind fun _ => local_pure _
    · exact hg.keyValue.bind fun _ => local_pure _

theorem bindings (closing : TokenKind) : Local (g.bindings closing) :=
  local_loop (hg.binding closing)

theorem attrSet : Local g.attrSet :=
  (local_expect _).bind fun _ => (hg.bindings _).bind fun _ => (local_require _ _).bind fun _ =>
    local_pure _

theorem list : Local g.list := by
  refine (local_expect _).bind fun _ => (local_loop ?_).bind fun _ => (local_expect _).bind fun _ =>
    local_pure _
  refine local_peek.bind fun next => ?_
  split
  · exact local_refuse _
  · exact local_pure _
  · exact hg.operand.bind fun _ => local_pure _

theorem parenthesised : Local g.parenthesised :=
  (local_expect _).bind fun _ => hg.expr.bind fun _ => (local_require _ _).bind fun _ =>
    local_pure _

theorem recSet : Local g.recSet :=
  (local_expect _).bind fun _ => hg.attrSet.bind fun _ => local_pure _

omit hg in
theorem atom (kind : TokenKind) (node : Text → Node) : Local (atom kind node) :=
  (local_expect _).bind fun _ => local_pure _

omit hg in
theorem integer : Local integer := by
  refine (local_expect _).bind fun token => ?_
  split
  · exact fun _ => trivial
  · exact local_pure _

omit hg in
theorem misplacedLet : Local misplacedLet := by
  intro ts
  unfold Nested.misplacedLet
  split
  · next word brace rest =>
    split
    · exact ⟨word, List.mem_cons_self, rfl⟩
    · exact List.mem_cons_self
  · exact local_refuse (α := Expr) .expression ts

theorem simple : Local g.simple := by
  refine local_peek.bind fun next => ?_
  split
  · exact atom _ _
  · exact integer
  · exact atom _ _
  · exact atom _ _
  · exact atom _ _
  · exact atom _ _
  · exact (hg.literal _ _).bind fun _ => local_pure _
  · exact (hg.literal _ _).bind fun _ => local_pure _
  · exact hg.parenthesised
  · exact hg.recSet
  · exact misplacedLet
  · exact hg.attrSet.bind fun _ => local_pure _
  · exact hg.list
  · exact local_refuse _

theorem selectDefault : Local g.selectDefault :=
  local_peek.bind fun _ => local_ite
    ((local_expect _).bind fun _ => hg.operand.bind fun _ => local_pure _) (local_pure _)

theorem select : Local g.select :=
  hg.simple.bind fun _ => local_peek.bind fun _ => local_ite
    ((local_expect _).bind fun _ => hg.attrPath.bind fun _ => hg.selectDefault.bind fun _ =>
      local_pure _)
    (local_pure _)

theorem application : Local g.application :=
  hg.select.bind fun _ => (local_whileNext hg.select).bind fun _ => local_pure _

theorem attrTest : Local g.attrTest :=
  (hg.application.signed _ _).bind fun _ => local_peek.bind fun _ => local_ite
    ((local_expect _).bind fun _ => hg.attrPath.bind fun _ => local_pure _) (local_pure _)

theorem operation : Local g.operation :=
  ((hg.attrTest.levels _).signed _ _).levels _

theorem parameter : Local g.parameter :=
  (local_require _ _).bind fun _ => Local.bind
    (local_peek.bind fun _ => local_ite
      ((local_expect _).bind fun _ => hg.expr.bind fun _ => local_pure _) (local_pure _))
    fun _ => local_pure _

theorem parameterList (whole? : Option Text) : Local (g.parameterList whole?) := by
  refine (local_expect _).bind fun _ => (local_loop ?_).bind fun _ =>
    (local_require _ _).bind fun _ => local_pure _
  refine local_peek.bind fun next => ?_
  split
  · exact local_pure _
  · exact (local_expect _).bind fun _ => local_pure _
  · exact hg.parameter.bind fun _ => local_peek.bind fun _ => local_ite
      ((local_expect _).bind fun _ => local_pure _) (local_pure _)

theorem body (start : Span) (head : Head) : Local (g.body start head) :=
  hg.expr.bind fun _ => local_pure _

theorem simpleFunction : Local g.simpleFunction :=
  (local_expect _).bind fun _ => (local_expect _).bind fun _ => hg.body _ _

theorem namedFunction : Local g.namedFunction :=
  (local_expect _).bind fun _ => (local_expect _).bind fun _ => (hg.parameterList _).bind fun _ =>
    (local_require _ _).bind fun _ => hg.body _ _

omit hg in
theorem wholeName : Local wholeName :=
  local_peek.bind fun _ => local_ite
    ((local_expect _).bind fun _ => (local_require _ _).bind fun _ => local_pure _) (local_pure _)

theorem listFunction : Local g.listFunction :=
  (hg.parameterList _).bind fun _ => wholeName.bind fun _ => (local_require _ _).bind fun _ =>
    hg.body _ _

theorem guarded (keyword : Keyword) (node : Expr → Expr → Node) : Local (g.guarded keyword node) :=
  (local_expect _).bind fun _ => hg.expr.bind fun _ => (local_expect _).bind fun _ =>
    hg.expr.bind fun _ => local_pure _

theorem letIn : Local g.letIn :=
  (local_expect _).bind fun _ => (hg.bindings _).bind fun _ => (local_require _ _).bind fun _ =>
    hg.expr.bind fun _ => local_pure _

theorem conditional : Local g.conditional :=
  (local_expect _).bind fun _ => hg.expr.bind fun _ => (local_expect _).bind fun _ =>
    hg.expr.bind fun _ => (local_expect _).bind fun _ => hg.expr.bind fun _ => local_pure _

theorem expression : Local g.expression := by
  refine local_lookahead.bind fun next => ?_
  split
  · exact hg.simpleFunction
  · exact hg.namedFunction
  · exact local_ite hg.listFunction hg.operation
  · exact hg.guarded _ _
  · exact hg.guarded _ _
  · exact hg.operation
  · exact hg.letIn
  · exact hg.conditional
  · exact hg.operation

end IsLocal

theorem isLocal_limit (n : Nat) : (limit n).IsLocal := by
  induction n with
  | zero => exact ⟨local_refuse _, local_refuse _⟩
  | succ n ih => exact ⟨ih.expression, ih.select⟩

end Nested

/-- What the reader of a whole text blames is one of its tokens or the end of the text. -/
theorem among_of_whole {ts : List Token} {fault : Fault} (h : whole ts = .error fault) :
    fault.Among ts := by
  have hread := (Nested.isLocal_limit (ts.length + 1)).expr ts
  unfold whole at h
  cases hexpr : (Nested.limit (ts.length + 1)).expr ts with
  | error fault' =>
    rw [hexpr] at h hread
    obtain rfl := Except.error.inj h
    exact hread
  | ok read =>
    obtain ⟨e, rest⟩ := read
    rw [hexpr] at h hread
    cases rest with
    | nil => simp [bind, Except.bind, pure, Except.pure] at h
    | cons t rest =>
      obtain rfl := Except.error.inj h
      exact hread List.mem_cons_self

end Grammar
end FlakeInputs
