import FlakeInputs.Grammar.Operators

/-!
# Laws of readers

When a reader succeeds, step by step.  A sequence of readers succeeds exactly when
its steps do, one on what the other has left, so that a production can be opened
into facts about its parts.
-/

namespace FlakeInputs
namespace Grammar

variable {α β : Type}

/-- The kind of the first token. -/
def headKind (ts : List Token) : Option TokenKind :=
  ts.head?.map Token.kind

@[simp]
theorem headKind_nil : headKind [] = none := rfl

@[simp]
theorem headKind_cons (t : Token) (ts : List Token) : headKind (t :: ts) = some t.kind := rfl

theorem headKind_append_of_ne_nil {p : List Token} (hp : p ≠ []) (q : List Token) :
    headKind (p ++ q) = headKind p := by
  cases p with
  | nil => exact absurd rfl hp
  | cons t p => rfl

theorem headKind_append_ne {p q : List Token} {kind : TokenKind}
    (hp : headKind p ≠ some kind) (hq : headKind q ≠ some kind) :
    headKind (p ++ q) ≠ some kind := by
  cases p with
  | nil => exact hq
  | cons t p => exact hp

theorem headKind_append_false {f : Option TokenKind → Bool} {p q : List Token}
    (hp : ∀ kind, headKind p = some kind → f (some kind) = false)
    (hq : f (headKind q) = false) : f (headKind (p ++ q)) = false := by
  cases p with
  | nil => exact hq
  | cons t p => exact hp _ rfl

theorem bind_eq_ok {x : Reader α} {f : α → Reader β} {ts : List Token}
    {r : β × List Token} :
    (x >>= f) ts = .ok r ↔ ∃ a rest, x ts = .ok (a, rest) ∧ f a rest = .ok r := by
  change StateT.bind x f ts = .ok r ↔ _
  unfold StateT.bind
  cases hx : x ts with
  | error fault => simp [bind, Except.bind]
  | ok read =>
    obtain ⟨a, rest⟩ := read
    constructor
    · intro h
      exact ⟨a, rest, rfl, h⟩
    · rintro ⟨a', rest', heq, h⟩
      obtain ⟨rfl, rfl⟩ := Prod.mk.inj (Except.ok.inj heq)
      exact h

theorem pure_eq_ok {a : α} {ts : List Token} {r : α × List Token} :
    (pure a : Reader α) ts = .ok r ↔ r = (a, ts) := by
  change Except.ok (a, ts) = .ok r ↔ _
  rw [Except.ok.injEq, eq_comm]

theorem peek_eq_ok {ts : List Token} {r : Option TokenKind × List Token} :
    peek ts = .ok r ↔ r = (headKind ts, ts) := by
  change Except.ok (headKind ts, ts) = .ok r ↔ _
  rw [Except.ok.injEq, eq_comm]

theorem refuse_ne_ok {expected : Expected} {ts : List Token} {r : α × List Token} :
    (refuse expected : Reader α) ts ≠ .ok r := by
  simp [refuse]

theorem require_eq_ok {kind : TokenKind} {expected : Expected} {ts : List Token}
    {r : Token × List Token} :
    require kind expected ts = .ok r ↔ r.1.kind = kind ∧ ts = r.1 :: r.2 := by
  obtain ⟨t, rest⟩ := r
  cases ts with
  | nil => simp [require]
  | cons u us =>
    simp only [require]
    split
    · next hkind =>
      simp only [Except.ok.injEq, Prod.mk.injEq, List.cons.injEq]
      exact ⟨fun h => ⟨h.1 ▸ hkind, h⟩, fun h => h.2⟩
    · next hkind =>
      simp only [reduceCtorEq, List.cons.injEq, false_iff]
      rintro ⟨ht, hu, -⟩
      exact hkind (hu ▸ ht)

theorem expect_eq_ok {kind : TokenKind} {ts : List Token} {r : Token × List Token} :
    expect kind ts = .ok r ↔ r.1.kind = kind ∧ ts = r.1 :: r.2 :=
  require_eq_ok

theorem run_eq_ok {kind : TokenKind} {ts : List Token} {r : List Token × List Token} :
    run kind ts = .ok r ↔
      r = (ts.takeWhile fun t => t.kind = kind, ts.dropWhile fun t => t.kind = kind) := by
  rw [run, Except.ok.injEq, eq_comm]

theorem signed_base {kind : TokenKind} {node : Expr → Node} {operand : Reader Expr}
    {ts : List Token} {r : Expr × List Token} (hkind : headKind ts ≠ some kind)
    (h : operand ts = .ok r) : signed kind node operand ts = .ok r := by
  cases ts with
  | nil =>
    simp only [signed, bind_eq_ok, run_eq_ok]
    exact ⟨_, _, rfl, _, _, h, rfl⟩
  | cons t ts =>
    have hne : t.kind ≠ kind := fun heq => hkind (by rw [headKind_cons, heq])
    simp only [signed, bind_eq_ok, run_eq_ok, List.takeWhile_cons, List.dropWhile_cons, hne,
      decide_false, Bool.false_eq_true, if_false]
    exact ⟨_, _, rfl, _, _, h, rfl⟩

theorem signed_cons {kind : TokenKind} {node : Expr → Node} {operand : Reader Expr} {t : Token}
    {ts rest : List Token} {e : Expr} (ht : t.kind = kind)
    (h : signed kind node operand ts = .ok (e, rest)) :
    signed kind node operand (t :: ts) = .ok (⟨t.span.join e.span, node e⟩, rest) := by
  simp only [signed, bind_eq_ok, run_eq_ok, pure_eq_ok, Prod.mk.injEq] at h
  obtain ⟨_, _, ⟨rfl, rfl⟩, inner, _, hinner, rfl, rfl⟩ := h
  simp only [signed, bind_eq_ok, run_eq_ok, List.takeWhile_cons, List.dropWhile_cons, ht,
    decide_true, if_true]
  exact ⟨_, _, rfl, _, _, hinner, rfl⟩

/-- A reader takes phrases off the front of its tokens. -/
def Reads (r : Reader α) (phrase : List Token → α → Prop) : Prop :=
  ∀ ts v rest, r ts = .ok (v, rest) → ∃ p, ts = p ++ rest ∧ phrase p v

/-! ## Loops -/

theorem loop_stop {round : Reader (Round α)} {ts rest : List Token}
    (h : round ts = .ok (.stop, rest)) : loop round ts = .ok ([], rest) := by
  rw [loop, h]

theorem loop_last {round : Reader (Round α)} {ts rest : List Token} {item : α}
    (h : round ts = .ok (.last item, rest)) : loop round ts = .ok ([item], rest) := by
  rw [loop, h]

theorem loop_more {round : Reader (Round α)} {ts mid rest : List Token} {item : α}
    {items : List α} (h : round ts = .ok (.more item, mid)) (hlt : mid.length < ts.length)
    (hloop : loop round mid = .ok (items, rest)) :
    loop round ts = .ok (item :: items, rest) := by
  rw [loop, h]
  simp only [hlt, if_true, hloop]

theorem whileNext_stop {more : Option TokenKind → Bool} {item : Reader α} {ts : List Token}
    (h : more (headKind ts) = false) : whileNext more item ts = .ok ([], ts) := by
  apply loop_stop
  simp only [bind_eq_ok, peek_eq_ok]
  refine ⟨_, _, rfl, ?_⟩
  rw [h]
  rfl

theorem whileNext_more {more : Option TokenKind → Bool} {item : Reader α}
    {ts mid rest : List Token} {x : α} {xs : List α} (h : more (headKind ts) = true)
    (hitem : item ts = .ok (x, mid)) (hlt : mid.length < ts.length)
    (hrest : whileNext more item mid = .ok (xs, rest)) :
    whileNext more item ts = .ok (x :: xs, rest) := by
  refine loop_more ?_ hlt hrest
  simp only [bind_eq_ok, peek_eq_ok]
  refine ⟨_, _, rfl, ?_⟩
  rw [h, if_pos rfl]
  simp only [bind_eq_ok]
  exact ⟨_, _, hitem, rfl⟩

/-- What one round of a loop reads: nothing at the end, a phrase of one item, or an
item that goes in front of a phrase. -/
def RoundReads (phrase : List Token → List α → Prop) (ts : List Token) :
    Round α → List Token → Prop
  | .stop, rest => rest = ts
  | .last item, rest => ∃ p, ts = p ++ rest ∧ phrase p [item]
  | .more item, rest =>
    ∃ p, p ≠ [] ∧ ts = p ++ rest ∧ ∀ q items, phrase q items → phrase (p ++ q) (item :: items)

/-- A loop reads a phrase if each of its rounds extends one. -/
theorem loop_reads {round : Reader (Round α)} {phrase : List Token → List α → Prop}
    (hnil : phrase [] [])
    (hround : ∀ ts r rest, round ts = .ok (r, rest) → RoundReads phrase ts r rest) :
    Reads (loop round) phrase := by
  intro ts items rest h
  fun_induction loop round ts generalizing items rest with
  | case1 ts fault hr => simp at h
  | case2 ts mid hr =>
    obtain ⟨rfl, rfl⟩ := Prod.mk.inj (Except.ok.inj h)
    exact ⟨[], (hround _ _ _ hr).symm, hnil⟩
  | case3 ts item mid hr =>
    obtain ⟨rfl, rfl⟩ := Prod.mk.inj (Except.ok.inj h)
    exact hround _ _ _ hr
  | case4 ts item mid hr hlt fault hloop => simp at h
  | case5 ts item mid hr hlt items' rest' hloop ih =>
    simp only [Except.ok.injEq, Prod.mk.injEq] at h
    obtain ⟨rfl, rfl⟩ := h
    obtain ⟨p, -, rfl, hp⟩ := hround _ _ _ hr
    obtain ⟨q, rfl, hq⟩ := ih _ _ hloop
    exact ⟨p ++ q, by rw [List.append_assoc], hp q _ hq⟩
  | case6 ts item mid hr hlt =>
    obtain ⟨p, hne, rfl, -⟩ := hround _ _ _ hr
    have hpos := List.length_pos_iff.2 hne
    rw [List.length_append] at hlt
    omega

/-- Items that are read as long as the next token allows it make up a phrase if each
of them extends one. -/
theorem whileNext_reads {more : Option TokenKind → Bool} {item : Reader α}
    {phrase : List Token → List α → Prop} (hnil : phrase [] [])
    (hitem : ∀ ts x rest, item ts = .ok (x, rest) → RoundReads phrase ts (.more x) rest) :
    Reads (whileNext more item) phrase := by
  refine loop_reads hnil ?_
  intro ts r rest h
  simp only [bind_eq_ok, peek_eq_ok, Prod.mk.injEq] at h
  obtain ⟨k, _, ⟨-, rfl⟩, h⟩ := h
  split at h
  · simp only [bind_eq_ok, pure_eq_ok, Prod.mk.injEq] at h
    obtain ⟨x, mid, hx, rfl, rfl⟩ := h
    exact hitem _ _ _ hx
  · simp only [pure_eq_ok, Prod.mk.injEq] at h
    obtain ⟨rfl, rfl⟩ := h
    rfl

end Grammar
end FlakeInputs
