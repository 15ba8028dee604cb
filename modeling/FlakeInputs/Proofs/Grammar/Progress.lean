import FlakeInputs.Proofs.Grammar.Completeness

/-!
# Readers make progress

Each production takes at least one token off the front, or refuses, and each round of a loop that
goes on takes one too.  So what a production does with some tokens depends only on what the nested
readers do with fewer.  Two readers are compared on the tokens of bounded number, and the comparison
is closed under the ways in which readers are put together.
-/

namespace FlakeInputs
namespace Grammar

open Nested (beginsArgument)

variable {α β : Type}

/-- What is left of some tokens behind at least `n` of them. -/
def Drops (n : Nat) (ts rest : List Token) : Prop :=
  ∃ taken : List Token, n ≤ taken.length ∧ ts = taken ++ rest

theorem Drops.refl (ts : List Token) : Drops 0 ts ts :=
  ⟨[], Nat.le_refl 0, rfl⟩

theorem Drops.trans {m n : Nat} {ts mid rest : List Token} (h : Drops m ts mid)
    (h' : Drops n mid rest) : Drops (m + n) ts rest := by
  obtain ⟨p, hp, rfl⟩ := h
  obtain ⟨q, hq, rfl⟩ := h'
  refine ⟨p ++ q, ?_, (List.append_assoc p q rest).symm⟩
  rw [List.length_append]
  exact Nat.add_le_add hp hq

theorem Drops.mono {m n : Nat} {ts rest : List Token} (h : Drops n ts rest) (hmn : m ≤ n) :
    Drops m ts rest := by
  obtain ⟨p, hp, rfl⟩ := h
  exact ⟨p, Nat.le_trans hmn hp, rfl⟩

theorem Drops.length {n : Nat} {ts rest : List Token} (h : Drops n ts rest) :
    rest.length + n ≤ ts.length := by
  obtain ⟨p, hp, rfl⟩ := h
  rw [List.length_append]
  omega

/-- How many tokens a round has to take: one, unless it stops. -/
def Round.least : Round α → Nat
  | .stop => 0
  | .last _ | .more _ => 1

/-- A reader that takes at least one token off the front, or refuses. -/
def Progresses (r : Reader α) : Prop :=
  ∀ ts a rest, r ts = .ok (a, rest) → Drops 1 ts rest

/-- A round of a loop that stops, takes at least one token off the front, or refuses. -/
def Advances (round : Reader (Round α)) : Prop :=
  ∀ ts r rest, round ts = .ok (r, rest) → Drops r.least ts rest

/-! ## Readers that agree on few tokens -/

/-- On fewer than `k` tokens two readers do the same, and what they read takes at least `n`
tokens. -/
def AgreeBelow (k n : Nat) (r s : Reader α) : Prop :=
  ∀ ts, ts.length < k → r ts = s ts ∧ ∀ a rest, s ts = .ok (a, rest) → Drops n ts rest

/-- The same for the rounds of two loops. -/
def RoundsAgreeBelow (k : Nat) (r s : Reader (Round α)) : Prop :=
  ∀ ts, ts.length < k →
    r ts = s ts ∧ ∀ round rest, s ts = .ok (round, rest) → Drops round.least ts rest

theorem progresses_of_agreeBelow {r : Reader α} (h : ∀ k, AgreeBelow (k + 1) 1 r r) :
    Progresses r :=
  fun ts => (h ts.length ts (Nat.lt_succ_self _)).2

theorem advances_of_roundsAgreeBelow {r : Reader (Round α)}
    (h : ∀ k, RoundsAgreeBelow (k + 1) r r) : Advances r :=
  fun ts => (h ts.length ts (Nat.lt_succ_self _)).2

theorem AgreeBelow.mono {k k' n n' : Nat} {r s : Reader α} (h : AgreeBelow k n r s) (hk : k' ≤ k)
    (hn : n' ≤ n) : AgreeBelow k' n' r s := by
  intro ts hts
  obtain ⟨heq, hdrops⟩ := h ts (Nat.lt_of_lt_of_le hts hk)
  exact ⟨heq, fun a rest hread => (hdrops a rest hread).mono hn⟩

/-- What takes a token takes at least none. -/
theorem AgreeBelow.weak {k : Nat} {r s : Reader α} (h : AgreeBelow k 1 r s) : AgreeBelow k 0 r s :=
  h.mono (Nat.le_refl k) (Nat.zero_le 1)

/-- Behind a token there are fewer than before it. -/
theorem AgreeBelow.behind {k n : Nat} {r s : Reader α} (h : AgreeBelow (k + 1) n r s) :
    AgreeBelow k 0 r s :=
  h.mono (Nat.le_succ k) (Nat.zero_le n)

theorem RoundsAgreeBelow.behind {k : Nat} {r s : Reader (Round α)}
    (h : RoundsAgreeBelow (k + 1) r s) : RoundsAgreeBelow k r s :=
  fun ts hts => h ts (Nat.lt_succ_of_lt hts)

theorem AgreeBelow.rounds {k : Nat} {r s : Reader (Round α)} (h : AgreeBelow k 1 r s) :
    RoundsAgreeBelow k r s := by
  intro ts hts
  obtain ⟨heq, hdrops⟩ := h ts hts
  refine ⟨heq, fun round rest hread => (hdrops round rest hread).mono ?_⟩
  cases round with
  | stop => exact Nat.zero_le 1
  | last _ | more _ => exact Nat.le_refl 1

/-- Reading in sequence: the second reader gets fewer than `k'` tokens if the first takes as many as
it says. -/
theorem AgreeBelow.sequence {k k' m n : Nat} {x y : Reader α} {f g : α → Reader β}
    (hx : AgreeBelow k m x y) (hf : ∀ a, AgreeBelow k' n (f a) (g a)) (hk : k ≤ k' + m) :
    AgreeBelow k (m + n) (x >>= f) (y >>= g) := by
  intro ts hts
  obtain ⟨heq, hdrops⟩ := hx ts hts
  change StateT.bind x f ts = StateT.bind y g ts ∧
    ∀ b rest, StateT.bind y g ts = .ok (b, rest) → _
  unfold StateT.bind
  rw [heq]
  cases hread : y ts with
  | error fault => exact ⟨rfl, fun b rest h => by cases h⟩
  | ok read =>
    obtain ⟨a, mid⟩ := read
    have hmid := hdrops a mid hread
    have hlength := hmid.length
    obtain ⟨heq', hdrops'⟩ := hf a mid (by omega)
    exact ⟨heq', fun b rest h => hmid.trans (hdrops' b rest h)⟩

theorem AgreeBelow.bind {k n : Nat} {x y : Reader α} {f g : α → Reader β}
    (hx : AgreeBelow k 0 x y) (hf : ∀ a, AgreeBelow k n (f a) (g a)) :
    AgreeBelow k n (x >>= f) (y >>= g) := by
  have hboth := hx.sequence hf (Nat.le_refl k)
  rwa [Nat.zero_add] at hboth

/-- Behind a reader that takes a token, the bound is one less. -/
theorem AgreeBelow.after {k : Nat} {x y : Reader α} {f g : α → Reader β}
    (hx : AgreeBelow (k + 1) 1 x y) (hf : ∀ a, AgreeBelow k 0 (f a) (g a)) :
    AgreeBelow (k + 1) 1 (x >>= f) (y >>= g) :=
  hx.sequence hf (Nat.le_refl (k + 1))

theorem AgreeBelow.then {k : Nat} {x y : Reader α} {f g : α → Reader β}
    (hx : AgreeBelow k 1 x y) (hf : ∀ a, AgreeBelow k 0 (f a) (g a)) :
    AgreeBelow k 1 (x >>= f) (y >>= g) :=
  hx.sequence hf (Nat.le_succ k)

/-- A reader that leaves its tokens where they are. -/
theorem agreeBelow_of_still {k : Nat} {r : Reader α}
    (h : ∀ ts a rest, r ts = .ok (a, rest) → rest = ts) : AgreeBelow k 0 r r := by
  refine fun ts _ => ⟨rfl, fun a rest hread => ?_⟩
  rw [h ts a rest hread]
  exact Drops.refl ts

theorem agreeBelow_pure {k : Nat} (a : α) : AgreeBelow k 0 (pure a) (pure a) :=
  agreeBelow_of_still fun _ _ _ h => (Prod.mk.inj (pure_eq_ok.1 h)).2

theorem agreeBelow_peek {k : Nat} : AgreeBelow k 0 peek peek :=
  agreeBelow_of_still fun _ _ _ h => (Prod.mk.inj (peek_eq_ok.1 h)).2

theorem agreeBelow_lookahead {k : Nat} : AgreeBelow k 0 Nested.lookahead Nested.lookahead :=
  agreeBelow_of_still fun _ _ _ h => (Prod.mk.inj (Except.ok.inj h)).2.symm

theorem agreeBelow_of_error {k n : Nat} {r : Reader α} (h : ∀ ts, ∃ fault, r ts = .error fault) :
    AgreeBelow k n r r := by
  refine fun ts _ => ⟨rfl, fun a rest hread => ?_⟩
  obtain ⟨fault, hfault⟩ := h ts
  rw [hfault] at hread
  cases hread

theorem agreeBelow_refuse {k n : Nat} (expected : Expected) :
    AgreeBelow k n (refuse expected : Reader α) (refuse expected) :=
  agreeBelow_of_error fun _ => ⟨_, rfl⟩

theorem agreeBelow_run {k : Nat} (kind : TokenKind) : AgreeBelow k 0 (run kind) (run kind) := by
  refine fun ts _ => ⟨rfl, fun signs rest h => ?_⟩
  obtain ⟨rfl, rfl⟩ := Prod.mk.inj (run_eq_ok.1 h)
  exact ⟨_, Nat.zero_le _, List.takeWhile_append_dropWhile.symm⟩

theorem agreeBelow_require {k : Nat} (kind : TokenKind) (expected : Expected) :
    AgreeBelow k 1 (require kind expected) (require kind expected) :=
  fun _ _ => ⟨rfl, fun t _ h => ⟨[t], Nat.le_refl 1, (require_eq_ok.1 h).2⟩⟩

theorem agreeBelow_expect {k : Nat} (kind : TokenKind) :
    AgreeBelow k 1 (expect kind) (expect kind) :=
  agreeBelow_require kind (.token kind)

theorem agreeBelow_ite {k n : Nat} {condition : Prop} [Decidable condition]
    {x y x' y' : Reader α} (hyes : AgreeBelow k n x x') (hno : AgreeBelow k n y y') :
    AgreeBelow k n (if condition then x else y) (if condition then x' else y') := by
  by_cases h : condition
  · rwa [if_pos h, if_pos h]
  · rwa [if_neg h, if_neg h]

/-! ## Loops -/

theorem roundsAgreeBelow_stop {k : Nat} :
    RoundsAgreeBelow k (pure .stop : Reader (Round α)) (pure .stop) := by
  refine fun ts _ => ⟨rfl, fun round rest h => ?_⟩
  obtain ⟨rfl, rfl⟩ := Prod.mk.inj (pure_eq_ok.1 h)
  exact Drops.refl _

theorem roundsAgreeBelow_peek {k : Nat} {f g : Option TokenKind → Reader (Round α)}
    (h : ∀ next, RoundsAgreeBelow k (f next) (g next)) :
    RoundsAgreeBelow k (peek >>= f) (peek >>= g) :=
  fun ts hts => h (headKind ts) ts hts

theorem roundsAgreeBelow_ite {k : Nat} {condition : Prop} [Decidable condition]
    {x y x' y' : Reader (Round α)} (hyes : RoundsAgreeBelow k x x')
    (hno : RoundsAgreeBelow k y y') :
    RoundsAgreeBelow k (if condition then x else y) (if condition then x' else y') := by
  by_cases h : condition
  · rwa [if_pos h, if_pos h]
  · rwa [if_neg h, if_neg h]

/-- Loops agree if their rounds do: a round that goes on leaves fewer tokens to the next. -/
theorem RoundsAgreeBelow.loop {k : Nat} {r s : Reader (Round α)} (h : RoundsAgreeBelow k r s) :
    AgreeBelow k 0 (loop r) (loop s) := by
  intro ts hts
  induction hn : ts.length using Nat.strongRecOn generalizing ts with
  | _ n ih =>
    subst hn
    obtain ⟨heq, hdrops⟩ := h ts hts
    rw [Grammar.loop, Grammar.loop, heq]
    cases hread : s ts with
    | error fault => exact ⟨rfl, fun a rest h => by cases h⟩
    | ok read =>
      obtain ⟨round, mid⟩ := read
      have hmid := hdrops round mid hread
      cases round with
      | stop =>
        refine ⟨rfl, fun items rest h => ?_⟩
        obtain ⟨-, rfl⟩ := Prod.mk.inj (Except.ok.inj h)
        exact hmid
      | last item =>
        refine ⟨rfl, fun items rest h => ?_⟩
        obtain ⟨-, rfl⟩ := Prod.mk.inj (Except.ok.inj h)
        exact hmid.mono (Nat.zero_le _)
      | more item =>
        have hless : mid.length < ts.length := hmid.length
        obtain ⟨heq', hdrops'⟩ := ih _ hless mid (Nat.lt_trans hless hts) rfl
        simp only [if_pos hless, heq', true_and]
        intro items rest h
        cases hrest : Grammar.loop s mid with
        | error fault =>
          rw [hrest] at h
          cases h
        | ok others =>
          obtain ⟨xs, rest'⟩ := others
          rw [hrest] at h
          obtain ⟨-, rfl⟩ := Prod.mk.inj (Except.ok.inj h)
          exact (hmid.trans (hdrops' _ _ hrest)).mono (Nat.zero_le _)

/-- One round of `whileNext`. -/
def whileRound (more : Option TokenKind → Bool) (item : Reader α) : Reader (Round α) := do
  if more (← peek) then return .more (← item)
  return .stop

theorem whileNext_eq_loop (more : Option TokenKind → Bool) (item : Reader α) :
    whileNext more item = loop (whileRound more item) := rfl

theorem AgreeBelow.whileRound {k : Nat} {r s : Reader α} (h : AgreeBelow k 1 r s)
    (more : Option TokenKind → Bool) :
    RoundsAgreeBelow k (whileRound more r) (whileRound more s) :=
  roundsAgreeBelow_peek fun _ => roundsAgreeBelow_ite (h.then fun _ => agreeBelow_pure _).rounds
    roundsAgreeBelow_stop

theorem AgreeBelow.whileNext {k : Nat} {r s : Reader α} (h : AgreeBelow k 1 r s)
    (more : Option TokenKind → Bool) : AgreeBelow k 0 (whileNext more r) (whileNext more s) := by
  rw [whileNext_eq_loop, whileNext_eq_loop]
  exact (h.whileRound more).loop

/-! ## Operators -/

theorem AgreeBelow.link {k : Nat} {x y : Reader Expr} (h : AgreeBelow k 1 x y) (level : Level) :
    RoundsAgreeBelow k (level.link x) (level.link y) := by
  refine roundsAgreeBelow_peek fun next => ?_
  split
  · exact roundsAgreeBelow_stop
  · exact ((agreeBelow_expect _).then fun _ => h.weak.bind fun _ => agreeBelow_pure _).rounds

theorem AgreeBelow.chain {k : Nat} {x y : Reader Expr} (h : AgreeBelow k 1 x y) (level : Level) :
    AgreeBelow k 1 (level.chain x) (level.chain y) :=
  h.then fun _ => (h.link level).loop.bind fun _ => agreeBelow_pure _

theorem AgreeBelow.levels {k : Nat} {x y : Reader Expr} (h : AgreeBelow k 1 x y)
    (table : List Level) : AgreeBelow k 1 (levels table x) (levels table y) := by
  induction table with
  | nil => exact h
  | cons level table ih => exact ih.chain level

theorem AgreeBelow.signed {k : Nat} {x y : Reader Expr} (h : AgreeBelow k 1 x y)
    (kind : TokenKind) (node : Expr → Node) :
    AgreeBelow k 1 (signed kind node x) (signed kind node y) :=
  (agreeBelow_run kind).bind fun _ => h.then fun _ => agreeBelow_pure _

/-! ## Productions -/

namespace Nested

/-- Readers for what is nested that agree on fewer than `k` tokens. -/
structure AgreeBelow (k : Nat) (g h : Nested) : Prop where
  expr : Grammar.AgreeBelow k 1 g.expr h.expr
  operand : Grammar.AgreeBelow k 1 g.operand h.operand

namespace AgreeBelow

variable {k : Nat} {g h : Nested} (hgh : AgreeBelow k g h)
include hgh

theorem interpolation : Grammar.AgreeBelow (k + 1) 1 g.interpolation h.interpolation :=
  (agreeBelow_expect _).after fun _ => hgh.expr.weak.bind fun _ =>
    (agreeBelow_require _ _).weak.bind fun _ => agreeBelow_pure _

theorem part (delimiter : TokenKind) :
    RoundsAgreeBelow (k + 1) (g.part delimiter) (h.part delimiter) := by
  refine roundsAgreeBelow_peek fun next => roundsAgreeBelow_ite roundsAgreeBelow_stop
    (roundsAgreeBelow_ite ?_ (roundsAgreeBelow_ite ?_ ?_))
  · exact ((agreeBelow_expect _).then fun _ => agreeBelow_pure _).rounds
  · exact (hgh.interpolation.then fun _ => agreeBelow_pure _).rounds
  · exact (agreeBelow_refuse _).rounds

theorem literal (delimiter : TokenKind) (closing : Expected) :
    Grammar.AgreeBelow (k + 1) 1 (g.literal delimiter closing) (h.literal delimiter closing) :=
  (agreeBelow_expect _).after fun _ => (hgh.part delimiter).behind.loop.bind fun _ =>
    (agreeBelow_require _ _).weak.bind fun _ => agreeBelow_pure _

theorem key : Grammar.AgreeBelow (k + 1) 1 g.key h.key := by
  refine agreeBelow_peek.bind fun next => ?_
  split
  · exact (agreeBelow_expect _).then fun _ => agreeBelow_pure _
  · exact (agreeBelow_expect _).then fun _ => agreeBelow_pure _
  · exact (hgh.literal _ _).then fun _ => agreeBelow_pure _
  · exact hgh.interpolation.then fun _ => agreeBelow_pure _
  · exact agreeBelow_refuse _

theorem pathStep :
    Grammar.AgreeBelow (k + 1) 1 (do let _ ← expect .dot; g.key) (do let _ ← expect .dot; h.key) :=
  (agreeBelow_expect _).then fun _ => hgh.key.weak

theorem attrPath : Grammar.AgreeBelow (k + 1) 1 g.attrPath h.attrPath :=
  hgh.key.then fun _ => (hgh.pathStep.whileNext _).bind fun _ => agreeBelow_pure _

theorem keyValue : Grammar.AgreeBelow (k + 1) 1 g.keyValue h.keyValue :=
  hgh.attrPath.after fun _ => (agreeBelow_require _ _).weak.bind fun _ =>
    hgh.expr.weak.bind fun _ => (agreeBelow_require _ _).weak.bind fun _ => agreeBelow_pure _

theorem inheritSource : Grammar.AgreeBelow k 0 g.inheritSource h.inheritSource :=
  agreeBelow_peek.bind fun _ => agreeBelow_ite
    ((agreeBelow_expect _).weak.bind fun _ => hgh.expr.weak.bind fun _ =>
      (agreeBelow_expect _).weak.bind fun _ => agreeBelow_pure _)
    (agreeBelow_pure _)

theorem inherited : Grammar.AgreeBelow (k + 1) 1 g.inherited h.inherited :=
  (agreeBelow_expect _).after fun _ => hgh.inheritSource.bind fun _ =>
    (hgh.key.whileNext _).behind.bind fun _ => (agreeBelow_expect _).weak.bind fun _ =>
      agreeBelow_pure _

theorem binding (closing : TokenKind) :
    RoundsAgreeBelow (k + 1) (g.binding closing) (h.binding closing) := by
  refine roundsAgreeBelow_peek fun next => ?_
  split
  · exact (agreeBelow_refuse _).rounds
  · refine roundsAgreeBelow_ite roundsAgreeBelow_stop (roundsAgreeBelow_ite ?_ ?_)
    · exact (hgh.inherited.then fun _ => agreeBelow_pure _).rounds
    · exact (hgh.keyValue.then fun _ => agreeBelow_pure _).rounds

theorem bindings (closing : TokenKind) :
    Grammar.AgreeBelow (k + 1) 0 (g.bindings closing) (h.bindings closing) :=
  (hgh.binding closing).loop

theorem attrSet : Grammar.AgreeBelow (k + 1) 1 g.attrSet h.attrSet :=
  (agreeBelow_expect _).after fun _ => (hgh.bindings _).behind.bind fun _ =>
    (agreeBelow_require _ _).weak.bind fun _ => agreeBelow_pure _

theorem element : RoundsAgreeBelow k g.element h.element := by
  refine roundsAgreeBelow_peek fun next => ?_
  split
  · exact (agreeBelow_refuse _).rounds
  · exact roundsAgreeBelow_stop
  · exact (hgh.operand.then fun _ => agreeBelow_pure _).rounds

theorem list : Grammar.AgreeBelow (k + 1) 1 g.list h.list :=
  (agreeBelow_expect _).after fun _ => hgh.element.loop.bind fun _ =>
    (agreeBelow_expect _).weak.bind fun _ => agreeBelow_pure _

theorem parenthesised : Grammar.AgreeBelow (k + 1) 1 g.parenthesised h.parenthesised :=
  (agreeBelow_expect _).after fun _ => hgh.expr.weak.bind fun _ =>
    (agreeBelow_require _ _).weak.bind fun _ => agreeBelow_pure _

theorem recSet : Grammar.AgreeBelow (k + 1) 1 g.recSet h.recSet :=
  (agreeBelow_expect _).then fun _ => hgh.attrSet.weak.bind fun _ => agreeBelow_pure _

omit hgh in
theorem atom (kind : TokenKind) (node : Text → Node) :
    Grammar.AgreeBelow k 1 (atom kind node) (atom kind node) :=
  (agreeBelow_expect _).then fun _ => agreeBelow_pure _

omit hgh in
theorem integer : Grammar.AgreeBelow k 1 integer integer := by
  refine (agreeBelow_expect _).then fun token => ?_
  split
  · exact agreeBelow_of_error fun _ => ⟨_, rfl⟩
  · exact agreeBelow_pure _

omit hgh in
theorem misplacedLet : Grammar.AgreeBelow k 1 misplacedLet misplacedLet := by
  refine agreeBelow_of_error fun ts => ?_
  unfold Nested.misplacedLet
  split
  · split <;> exact ⟨_, rfl⟩
  · exact ⟨_, rfl⟩

theorem simple : Grammar.AgreeBelow (k + 1) 1 g.simple h.simple := by
  refine agreeBelow_peek.bind fun next => ?_
  split
  · exact atom _ _
  · exact integer
  · exact atom _ _
  · exact atom _ _
  · exact atom _ _
  · exact atom _ _
  · exact (hgh.literal _ _).then fun _ => agreeBelow_pure _
  · exact (hgh.literal _ _).then fun _ => agreeBelow_pure _
  · exact hgh.parenthesised
  · exact hgh.recSet
  · exact misplacedLet
  · exact hgh.attrSet.then fun _ => agreeBelow_pure _
  · exact hgh.list
  · exact agreeBelow_refuse _

theorem selectDefault : Grammar.AgreeBelow k 0 g.selectDefault h.selectDefault :=
  agreeBelow_peek.bind fun _ => agreeBelow_ite
    ((agreeBelow_expect _).weak.bind fun _ => hgh.operand.weak.bind fun _ => agreeBelow_pure _)
    (agreeBelow_pure _)

theorem select : Grammar.AgreeBelow (k + 1) 1 g.select h.select :=
  hgh.simple.after fun _ => agreeBelow_peek.bind fun _ => agreeBelow_ite
    ((agreeBelow_expect _).weak.bind fun _ => hgh.attrPath.behind.bind fun _ =>
      hgh.selectDefault.bind fun _ => agreeBelow_pure _)
    (agreeBelow_pure _)

theorem application : Grammar.AgreeBelow (k + 1) 1 g.application h.application :=
  hgh.select.then fun _ => (hgh.select.whileNext _).bind fun _ => agreeBelow_pure _

theorem attrTest : Grammar.AgreeBelow (k + 1) 1 g.attrTest h.attrTest :=
  (hgh.application.signed _ _).then fun _ => agreeBelow_peek.bind fun _ => agreeBelow_ite
    ((agreeBelow_expect _).weak.bind fun _ => hgh.attrPath.weak.bind fun _ => agreeBelow_pure _)
    (agreeBelow_pure _)

theorem base (tower : Tower) : Grammar.AgreeBelow (k + 1) 1 (g.base tower) (h.base tower) := by
  cases tower with
  | loose => exact (hgh.attrTest.levels _).signed _ _
  | tight => exact hgh.attrTest

theorem operation : Grammar.AgreeBelow (k + 1) 1 g.operation h.operation :=
  (hgh.base .loose).levels looseLevels

theorem parameter : Grammar.AgreeBelow (k + 1) 1 g.parameter h.parameter :=
  (agreeBelow_require _ _).after fun _ => Grammar.AgreeBelow.bind
    (agreeBelow_peek.bind fun _ => agreeBelow_ite
      ((agreeBelow_expect _).weak.bind fun _ => hgh.expr.weak.bind fun _ => agreeBelow_pure _)
      (agreeBelow_pure _))
    fun _ => agreeBelow_pure _

theorem parameterEntry : RoundsAgreeBelow (k + 1) g.parameterEntry h.parameterEntry := by
  refine roundsAgreeBelow_peek fun next => ?_
  split
  · exact roundsAgreeBelow_stop
  · exact ((agreeBelow_expect _).then fun _ => agreeBelow_pure _).rounds
  · exact (hgh.parameter.then fun _ => agreeBelow_peek.bind fun _ => agreeBelow_ite
      ((agreeBelow_expect _).weak.bind fun _ => agreeBelow_pure _) (agreeBelow_pure _)).rounds

theorem parameterList (whole? : Option Text) :
    Grammar.AgreeBelow (k + 1) 1 (g.parameterList whole?) (h.parameterList whole?) :=
  (agreeBelow_expect _).after fun _ => hgh.parameterEntry.behind.loop.bind fun _ =>
    (agreeBelow_require _ _).weak.bind fun _ => agreeBelow_pure _

theorem body (start : Span) (head : Head) :
    Grammar.AgreeBelow k 0 (g.body start head) (h.body start head) :=
  hgh.expr.weak.bind fun _ => agreeBelow_pure _

theorem simpleFunction : Grammar.AgreeBelow (k + 1) 1 g.simpleFunction h.simpleFunction :=
  (agreeBelow_expect _).after fun _ => (agreeBelow_expect _).weak.bind fun _ => hgh.body _ _

theorem namedFunction : Grammar.AgreeBelow (k + 1) 1 g.namedFunction h.namedFunction :=
  (agreeBelow_expect _).after fun _ => (agreeBelow_expect _).weak.bind fun _ =>
    (hgh.parameterList _).behind.bind fun _ => (agreeBelow_require _ _).weak.bind fun _ =>
      hgh.body _ _

omit hgh in
theorem wholeName : Grammar.AgreeBelow k 0 wholeName wholeName :=
  agreeBelow_peek.bind fun _ => agreeBelow_ite
    ((agreeBelow_expect _).weak.bind fun _ => (agreeBelow_require _ _).weak.bind fun _ =>
      agreeBelow_pure _)
    (agreeBelow_pure _)

theorem listFunction : Grammar.AgreeBelow (k + 1) 1 g.listFunction h.listFunction :=
  (hgh.parameterList _).after fun _ => wholeName.bind fun _ =>
    (agreeBelow_require _ _).weak.bind fun _ => hgh.body _ _

theorem guarded (keyword : Keyword) (node : Expr → Expr → Node) :
    Grammar.AgreeBelow (k + 1) 1 (g.guarded keyword node) (h.guarded keyword node) :=
  (agreeBelow_expect _).after fun _ => hgh.expr.weak.bind fun _ =>
    (agreeBelow_expect _).weak.bind fun _ => hgh.expr.weak.bind fun _ => agreeBelow_pure _

theorem letIn : Grammar.AgreeBelow (k + 1) 1 g.letIn h.letIn :=
  (agreeBelow_expect _).after fun _ => (hgh.bindings _).behind.bind fun _ =>
    (agreeBelow_require _ _).weak.bind fun _ => hgh.expr.weak.bind fun _ => agreeBelow_pure _

theorem conditional : Grammar.AgreeBelow (k + 1) 1 g.conditional h.conditional :=
  (agreeBelow_expect _).after fun _ => hgh.expr.weak.bind fun _ =>
    (agreeBelow_expect _).weak.bind fun _ => hgh.expr.weak.bind fun _ =>
      (agreeBelow_expect _).weak.bind fun _ => hgh.expr.weak.bind fun _ => agreeBelow_pure _

theorem expression : Grammar.AgreeBelow (k + 1) 1 g.expression h.expression := by
  refine agreeBelow_lookahead.bind fun next => ?_
  split
  · exact hgh.simpleFunction
  · exact hgh.namedFunction
  · exact agreeBelow_ite hgh.listFunction hgh.operation
  · exact hgh.guarded _ _
  · exact hgh.guarded _ _
  · exact hgh.operation
  · exact hgh.letIn
  · exact hgh.conditional
  · exact hgh.operation

end AgreeBelow
end Nested
end Grammar
end FlakeInputs
