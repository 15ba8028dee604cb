import FlakeInputs.Grammar.Parse
import FlakeInputs.Proofs.Grammar.Progress
import FlakeInputs.Proofs.Outcome

/-!
# The recursion of the grammar

The productions call each other without end in sight, but never without a token taken in between.
So there is one way to read without a limit on the nesting, the limit that a list of tokens is read
with is never met, and no loop goes round without taking a token.
-/

namespace FlakeInputs
namespace Grammar

open Nested (beginsArgument limit)

variable {α : Type}

/-- The symbols whose phrases are lists, and so can be empty. -/
def Symbol.isList : Symbol → Bool
  | links _ _ _ | arguments | elements | parts _ | pathRest | names | bindings _ | entries => true
  | _ => false

/-! ## Loops -/

/-- A round of a loop and the rounds behind it, whether the round has taken a token or not. -/
def unrolled (round : Reader (Round α)) (ts : List Token) : Except Fault (List α × List Token) :=
  match round ts with
  | .error fault => .error fault
  | .ok (.stop, rest) => .ok ([], rest)
  | .ok (.last item, rest) => .ok ([item], rest)
  | .ok (.more item, rest) =>
    match loop round rest with
    | .error fault => .error fault
    | .ok (items, rest) => .ok (item :: items, rest)

/-- If the rounds advance, then no loop is ended for want of a token. -/
theorem loop_eq_unrolled {round : Reader (Round α)} (h : Advances round) (ts : List Token) :
    loop round ts = unrolled round ts := by
  rw [loop, unrolled]
  cases hread : round ts with
  | error fault => rfl
  | ok read =>
    obtain ⟨r, rest⟩ := read
    have hdrops := h ts r rest hread
    cases r with
    | stop | last item => rfl
    | more item =>
      have hless : rest.length < ts.length := hdrops.length
      cases hrest : loop round rest <;> simp only [if_pos hless, hrest]

namespace Nested

/-- All that reads a phrase takes a token or refuses, and so does each round of a loop that does
not stop. -/
structure Progressing (g : Nested) : Prop where
  phrases : ∀ s : Symbol, s.isList = false → Progresses (g.reader s)
  inherited : Progresses g.inherited
  operators : ∀ (tower : Tower) (level : Level) (table : List Level),
    Advances (level.link (Grammar.levels table (g.base tower)))
  arguments : Advances (whileRound beginsArgument g.select)
  elements : Advances g.element
  parts : ∀ delimiter, Advances (g.part delimiter)
  path : Advances (whileRound (· == some .dot) do let _ ← expect .dot; g.key)
  names : Advances (whileRound (· != some .semicolon) g.key)
  bindings : ∀ closing, Advances (g.binding closing)
  parameters : Advances g.parameterEntry

namespace AgreeBelow

variable {k : Nat} {g h : Nested}

theorem zero (g h : Nested) : AgreeBelow 0 g h :=
  ⟨fun _ hts => absurd hts (Nat.not_lt_zero _), fun _ hts => absurd hts (Nat.not_lt_zero _)⟩

/-- What a phrase is read as depends only on how nested expressions of fewer tokens are read. -/
theorem reader (hgh : AgreeBelow k g h) (s : Symbol) (hs : s.isList = false) :
    Grammar.AgreeBelow (k + 1) 1 (g.reader s) (h.reader s) := by
  cases s with
  | expr => exact hgh.expression
  | levels tower table => exact (hgh.base tower).levels table
  | complemented => exact hgh.base .loose
  | attrTest => exact hgh.attrTest
  | negated => exact hgh.application.signed _ _
  | application => exact hgh.application
  | select => exact hgh.select
  | simple => exact hgh.simple
  | interpolation => exact hgh.interpolation
  | literal delimiter closing => exact hgh.literal delimiter closing
  | key => exact hgh.key
  | attrPath => exact hgh.attrPath
  | keyValue => exact hgh.keyValue
  | binding =>
    refine agreeBelow_peek.bind fun next => agreeBelow_ite hgh.inherited ?_
    rw [map_eq_pure_bind, map_eq_pure_bind]
    exact hgh.keyValue.then fun _ => agreeBelow_pure _
  | attrSet => exact hgh.attrSet
  | parameter => exact hgh.parameter
  | parameterList whole? => exact hgh.parameterList whole?
  | links | arguments | elements | parts | pathRest | names | bindings | entries => cases hs

end AgreeBelow

/-- Readers make progress if those for what is nested do. -/
theorem progressing_of_agreeBelow {g : Nested} (h : ∀ k, AgreeBelow k g g) : g.Progressing where
  phrases s hs := progresses_of_agreeBelow fun k => (h k).reader s hs
  inherited := progresses_of_agreeBelow fun k => (h k).inherited
  operators tower level table :=
    advances_of_roundsAgreeBelow fun k => (((h k).base tower).levels table).link level
  arguments := advances_of_roundsAgreeBelow fun k => (h k).select.whileRound _
  elements := advances_of_roundsAgreeBelow fun k => (h (k + 1)).element
  parts delimiter := advances_of_roundsAgreeBelow fun k => (h k).part delimiter
  path := advances_of_roundsAgreeBelow fun k => (h k).pathStep.whileRound _
  names := advances_of_roundsAgreeBelow fun k => (h k).key.whileRound _
  bindings closing := advances_of_roundsAgreeBelow fun k => (h k).binding closing
  parameters := advances_of_roundsAgreeBelow fun k => (h k).parameterEntry

/-! ## Without a limit -/

/-- Readers for expressions that nest as deep as they have tokens. -/
def unlimited : Nested where
  expr ts := (limit (ts.length + 1)).expr ts
  operand ts := (limit (ts.length + 1)).operand ts

/-- Limits that are not below the number of tokens do not differ. -/
theorem limit_agreeBelow {k m n : Nat} (hm : k ≤ m) (hn : k ≤ n) :
    AgreeBelow k (limit m) (limit n) := by
  induction k generalizing m n with
  | zero => exact .zero _ _
  | succ k ih =>
    obtain ⟨m, rfl⟩ := Nat.exists_eq_add_of_lt hm
    obtain ⟨n, rfl⟩ := Nat.exists_eq_add_of_lt hn
    have hbelow := ih (Nat.le_add_right k m) (Nat.le_add_right k n)
    exact ⟨hbelow.expression, hbelow.select⟩

theorem limit_agreeBelow_unlimited {k n : Nat} (h : k ≤ n) :
    AgreeBelow k (limit n) unlimited := by
  have hlimit : ∀ ts : List Token, ts.length < k →
      AgreeBelow (ts.length + 1) (limit n) (limit (ts.length + 1)) :=
    fun ts hts => limit_agreeBelow (Nat.le_trans hts h) (Nat.le_refl _)
  exact ⟨fun ts hts => (hlimit ts hts).expr ts (Nat.lt_succ_self _),
    fun ts hts => (hlimit ts hts).operand ts (Nat.lt_succ_self _)⟩

theorem unlimited_agreeBelow (k : Nat) : AgreeBelow k unlimited unlimited := by
  have hlimit := limit_agreeBelow_unlimited (Nat.le_refl k)
  exact ⟨fun ts hts => ⟨rfl, (hlimit.expr ts hts).2⟩,
    fun ts hts => ⟨rfl, (hlimit.operand ts hts).2⟩⟩

theorem unlimited_expr : unlimited.expr = unlimited.expression := by
  funext ts
  exact ((limit_agreeBelow_unlimited (Nat.le_refl ts.length)).expression ts (Nat.lt_succ_self _)).1

theorem unlimited_operand : unlimited.operand = unlimited.select := by
  funext ts
  exact ((limit_agreeBelow_unlimited (Nat.le_refl ts.length)).select ts (Nat.lt_succ_self _)).1

/-- The productions have no other readers than the unlimited ones. -/
theorem eq_unlimited {g : Nested} (hexpr : g.expr = g.expression)
    (hoperand : g.operand = g.select) : g = unlimited := by
  have hagree : ∀ k, AgreeBelow k g unlimited := by
    intro k
    induction k with
    | zero => exact .zero _ _
    | succ k ih =>
      constructor
      · rw [hexpr, unlimited_expr]
        exact ih.expression
      · rw [hoperand, unlimited_operand]
        exact ih.select
  have hexpr' : g.expr = unlimited.expr :=
    funext fun ts => ((hagree (ts.length + 1)).expr ts (Nat.lt_succ_self _)).1
  have hoperand' : g.operand = unlimited.operand :=
    funext fun ts => ((hagree (ts.length + 1)).operand ts (Nat.lt_succ_self _)).1
  cases g
  exact congr (congrArg Nested.mk hexpr') hoperand'

end Nested

open Nested (unlimited)

/-- Reading makes progress.  Without a limit on the nesting, all that reads a phrase takes a token
off the front or refuses, and so does each round of a loop that does not stop; so loops need no
test.  The productions call each other with fewer tokens only, so these readers are the only ones,
and those with a limit above the number of tokens do the same. -/
theorem reading_progresses :
    unlimited.Progressing ∧
    (∀ (α : Type) (round : Reader (Round α)), Advances round →
      ∀ ts, loop round ts = unrolled round ts) ∧
    unlimited.expr = unlimited.expression ∧ unlimited.operand = unlimited.select ∧
    (∀ (k : Nat) (g : Nested), (∀ ts : List Token, ts.length < k →
        g.expr ts = unlimited.expr ts ∧ g.operand ts = unlimited.operand ts) →
      ∀ s : Symbol, s.isList = false → ∀ ts : List Token, ts.length ≤ k →
        g.reader s ts = unlimited.reader s ts) ∧
    (∀ g : Nested, g.expr = g.expression → g.operand = g.select → g = unlimited) ∧
    ∀ (n : Nat) (ts : List Token), ts.length < n →
      (limit n).expr ts = unlimited.expr ts ∧ (limit n).operand ts = unlimited.operand ts := by
  refine ⟨Nested.progressing_of_agreeBelow Nested.unlimited_agreeBelow,
    fun _ _ hround ts => loop_eq_unrolled hround ts, Nested.unlimited_expr,
    Nested.unlimited_operand, fun k g hg s hs ts hts => ?_, fun _ => Nested.eq_unlimited,
    fun n ts hts => ?_⟩
  · have hunlimited := Nested.unlimited_agreeBelow k
    have hagree : Nested.AgreeBelow k g unlimited :=
      ⟨fun ts hts => ⟨(hg ts hts).1, (hunlimited.expr ts hts).2⟩,
        fun ts hts => ⟨(hg ts hts).2, (hunlimited.operand ts hts).2⟩⟩
    exact (hagree.reader s hs ts (Nat.lt_succ_of_le hts)).1
  · have hagree := Nested.limit_agreeBelow_unlimited (Nat.le_refl n)
    exact ⟨(hagree.expr ts hts).1, (hagree.operand ts hts).1⟩

/-- A list with a token behind it: it is read off five tokens, and a limit of five is none. -/
theorem reading_progresses_list :
    ∃ (ts rest : List Token) (e : Expr), Token.tokenize "[ a b ] ;".toList = .ok ts ∧
      unlimited.reader .simple ts = .ok (e, rest) ∧ rest.length = 1 ∧ Drops 1 ts rest ∧
      loop unlimited.element ts.tail = unrolled unlimited.element ts.tail ∧
      (limit 5).reader .simple ts = unlimited.reader .simple ts ∧
      (limit 6).expr ts = unlimited.expr ts := by
  have htokens : (Token.tokenize "[ a b ] ;".toList).toOption.any (fun ts =>
      ts.length == 5 && (unlimited.simple ts).toOption.any fun r => r.2.length == 1) = true := by
    decide +kernel
  obtain ⟨ts, hts, htest⟩ := Outcome.exists_of_any htokens
  obtain ⟨hlength, htest⟩ := Bool.and_eq_true_iff.1 htest
  obtain ⟨⟨e, rest⟩, hread, hrest⟩ := Outcome.exists_of_any htest
  rw [beq_iff_eq] at hlength hrest
  obtain ⟨hprogress, hloop, -, -, hlocal, -, hlimit⟩ := reading_progresses
  exact ⟨ts, rest, e, hts, hread, hrest, hprogress.phrases .simple rfl ts e rest hread,
    hloop _ _ hprogress.elements ts.tail,
    hlocal 5 (limit 5) (fun us hus => hlimit 5 us hus) .simple rfl ts (Nat.le_of_eq hlength),
    (hlimit 6 ts (by omega)).1⟩

end Grammar
end FlakeInputs
