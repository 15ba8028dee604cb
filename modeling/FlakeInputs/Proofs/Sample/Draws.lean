import FlakeInputs.Sample.Draw

/-!
# What draws yield

Whatever the state of the generator, what is drawn has a property.  The proofs look at the ranges
and lists that a draw is from, and never at the words of the generator.
-/

namespace FlakeInputs
namespace Sample
namespace Draw

variable {α β : Type} {P Q : α → Prop}

/-- What is drawn has the property `P`, with any number of attempts and from any state of the
generator in which there is a result. -/
structure Yields (draw : Draw α) (P : α → Prop) : Prop where
  of_run : ∀ {n g a g'}, (draw.run n).run g = some (a, g') → P a

theorem yields_any (draw : Draw α) : draw.Yields fun _ => True :=
  ⟨fun _ => trivial⟩

theorem yields_pure {a : α} (h : P a) : (pure a : Draw α).Yields P := by
  constructor
  intro n g b g' hrun
  obtain ⟨rfl, -⟩ := Prod.mk.inj (Option.some.inj hrun)
  exact h

theorem yields_failure : (failure : Draw α).Yields P := by
  constructor
  intro n g a g' hrun
  cases hrun

theorem Yields.imp {draw : Draw α} (h : draw.Yields P) (himp : ∀ a, P a → Q a) : draw.Yields Q :=
  ⟨fun hrun => himp _ (h.of_run hrun)⟩

theorem Yields.bind {P : α → Prop} {Q : β → Prop} {draw : Draw α} {f : α → Draw β}
    (h : draw.Yields P) (hf : ∀ a, P a → (f a).Yields Q) : (draw >>= f).Yields Q := by
  constructor
  intro n g b g' hrun
  rw [ReaderT.run_bind, StateT.run_bind] at hrun
  obtain ⟨⟨a, g₁⟩, ha, hb⟩ := Option.bind_eq_some_iff.1 hrun
  exact (hf a (h.of_run ha)).of_run hb

theorem yields_firstOf {draw : Draw (Option α)}
    (h : draw.Yields fun a? => ∀ a, a? = some a → P a) (n : Nat) : (firstOf draw n).Yields P := by
  induction n with
  | zero => exact yields_failure
  | succ n ih =>
    apply h.bind
    intro a? ha
    cases a? with
    | none => exact ih
    | some a => exact yields_pure (ha a rfl)

theorem yields_retry {draw : Draw (Option α)}
    (h : draw.Yields fun a? => ∀ a, a? = some a → P a) : (retry draw).Yields P := by
  apply (yields_any _).bind
  intro n _
  exact yields_firstOf h n

theorem yields_choose (xs : List α) : (choose xs).Yields (· ∈ xs) := by
  apply (yields_any _).bind
  intro i _
  cases hx : xs[i]? with
  | none => exact yields_failure
  | some x => exact yields_pure (List.mem_of_getElem? hx)

theorem yields_mapM {P : β → Prop} {f : α → Draw β} {l : List α}
    (h : ∀ a ∈ l, (f a).Yields P) : (l.mapM f).Yields fun bs => ∀ b ∈ bs, P b := by
  induction l with
  | nil =>
    apply yields_pure
    intro b hb
    cases hb
  | cons a l ih =>
    rw [List.mapM_cons]
    apply (h a List.mem_cons_self).bind
    intro b hb
    apply (ih fun x hx => h x (List.mem_cons_of_mem _ hx)).bind
    intro bs hbs
    apply yields_pure
    exact List.forall_mem_cons.2 ⟨hb, hbs⟩

theorem yields_times {draw : Draw α} (h : draw.Yields P) (n : Nat) :
    (times n draw).Yields fun as => ∀ a ∈ as, P a :=
  yields_mapM fun _ _ => h

theorem yields_filterM (test : α → Draw Bool) (l : List α) :
    (l.filterM test).Yields fun as => ∀ a ∈ as, a ∈ l := by
  have haux : ∀ l' taken : List α, (∀ a ∈ l', a ∈ l) → (∀ a ∈ taken, a ∈ l) →
      (List.filterAuxM test l' taken).Yields fun as => ∀ a ∈ as, a ∈ l := by
    intro l'
    induction l' with
    | nil =>
      intro taken _ htaken
      exact yields_pure htaken
    | cons a l' ih =>
      intro taken hl' htaken
      apply (yields_any _).bind
      intro takes _
      apply ih _ fun x hx => hl' x (List.mem_cons_of_mem _ hx)
      cases takes with
      | false => exact htaken
      | true => exact List.forall_mem_cons.2 ⟨hl' a List.mem_cons_self, htaken⟩
  apply (haux l [] (fun _ ha => ha) fun a ha => by cases ha).bind
  intro as has
  apply yields_pure
  exact fun a ha => has a (List.mem_reverse.1 ha)

end Draw
end Sample
end FlakeInputs
