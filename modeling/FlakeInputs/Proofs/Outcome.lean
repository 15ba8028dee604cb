import FlakeInputs.Logged

/-!
# Outcomes

When a sequence of steps gives a result or fails, by its first step and the rest.
-/

namespace FlakeInputs
namespace Outcome

variable {ε α β : Type}

theorem exists_of_isOk {r : Except ε α} (h : r.isOk = true) : ∃ a, r = .ok a := by
  cases r with
  | error error => exact Bool.noConfusion h
  | ok a => exact ⟨a, rfl⟩

theorem exists_of_any {r : Except ε α} {p : α → Bool} (h : r.toOption.any p = true) :
    ∃ a, r = .ok a ∧ p a = true := by
  cases r with
  | error error => exact Bool.noConfusion h
  | ok a => exact ⟨a, rfl, h⟩

theorem eq_ok_of_toOption {r : Except ε α} {a : α} (h : r.toOption = some a) : r = .ok a := by
  cases r with
  | error error => cases h
  | ok a => rw [Option.some.inj h]

theorem bind_eq_ok {x : Except ε α} {f : α → Except ε β} {b : β} :
    x >>= f = .ok b ↔ ∃ a, x = .ok a ∧ f a = .ok b := by
  cases x <;> simp [bind, Except.bind]

theorem bind_eq_error {x : Except ε α} {f : α → Except ε β} {e : ε} :
    x >>= f = .error e ↔ x = .error e ∨ ∃ a, x = .ok a ∧ f a = .error e := by
  cases x <;> simp [bind, Except.bind]

theorem ok_bind (a : α) (f : α → Except ε β) : (Except.ok a >>= f) = f a := rfl

/-- If all steps give a result, then their results are those of the steps. -/
theorem mem_of_mapM {f : α → Except ε β} {l : List α} {r : List β} (h : l.mapM f = .ok r) {b : β} :
    b ∈ r ↔ ∃ a ∈ l, f a = .ok b := by
  induction l generalizing r with
  | nil =>
    rw [List.mapM_nil] at h
    rw [← Except.ok.inj h]
    simp
  | cons x l ih =>
    rw [List.mapM_cons, bind_eq_ok] at h
    obtain ⟨y, hy, h⟩ := h
    obtain ⟨r', hr', h⟩ := bind_eq_ok.1 h
    rw [← Except.ok.inj h, List.mem_cons, ih hr']
    simp [hy, eq_comm]

/-- If each step gives a result, then so do all, and each of their results comes from a step. -/
theorem exists_mapM {f : α → Except ε β} {l : List α} (h : ∀ a ∈ l, ∃ b, f a = .ok b) :
    ∃ r, l.mapM f = .ok r ∧ ∀ b ∈ r, ∃ a ∈ l, f a = .ok b := by
  have hall : ∃ r, l.mapM f = .ok r := by
    induction l with
    | nil => exact ⟨[], rfl⟩
    | cons a l ih =>
      obtain ⟨b, hb⟩ := h a List.mem_cons_self
      obtain ⟨r, hr⟩ := ih fun x hx => h x (List.mem_cons_of_mem _ hx)
      refine ⟨b :: r, ?_⟩
      rw [List.mapM_cons, hb, hr]
      rfl
  obtain ⟨r, hr⟩ := hall
  exact ⟨r, hr, fun b hb => (mem_of_mapM hr).1 hb⟩

/-- If all steps give a result, then each does. -/
theorem exists_of_mapM {f : α → Except ε β} {l : List α} {r : List β} (h : l.mapM f = .ok r) :
    ∀ a ∈ l, ∃ b, f a = .ok b := by
  induction l generalizing r with
  | nil => simp
  | cons x l ih =>
    rw [List.mapM_cons, bind_eq_ok] at h
    obtain ⟨b, hb, h⟩ := h
    obtain ⟨r', hr', -⟩ := bind_eq_ok.1 h
    intro a ha
    rcases List.mem_cons.1 ha with rfl | ha
    · exact ⟨b, hb⟩
    · exact ih hr' a ha

theorem mapM_eq_map {f : α → Except ε β} {g : α → β} {l : List α}
    (h : ∀ a ∈ l, f a = .ok (g a)) : l.mapM f = .ok (l.map g) := by
  induction l with
  | nil => rfl
  | cons a l ih =>
    rw [List.mapM_cons, h a List.mem_cons_self, ih fun x hx => h x (List.mem_cons_of_mem _ hx)]
    rfl

theorem bind_assoc {γ : Type} (x : Logged α) (f : α → Logged β) (g : β → Logged γ) :
    x >>= f >>= g = x >>= fun a => f a >>= g := by
  obtain ⟨notices, _ | a⟩ := x
  · rfl
  · cases hf : (f a).result <;> simp [bind, hf]

theorem map_id (x : Logged α) : id <$> x = x := by
  obtain ⟨notices, _ | a⟩ := x <;> simp [Functor.map]

instance : LawfulMonad Logged :=
  LawfulMonad.mk' Logged map_id (fun _ _ => rfl) bind_assoc

theorem result_mapM (f : α → Logged β) (l : List α) :
    (l.mapM f).result = l.mapM fun a => (f a).result := by
  induction l with
  | nil => rfl
  | cons a l ih => simp only [List.mapM_cons, Logged.result_bind, ih, pure, Except.pure]

theorem result_monadLift (r : Except Error α) : (monadLift r : Logged α).result = r := rfl

end Outcome
end FlakeInputs
