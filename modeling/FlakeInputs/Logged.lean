import FlakeInputs.Notice

/-!
# Work with notices

The outcome of work that leaves notices behind.  The notices that came before an
error are kept, and nothing can depend on them: the result of a sequence of steps
is the sequence of their results.
-/

namespace FlakeInputs

/-- A result or an error, and the notices on the way to it. -/
structure Logged (α : Type) where
  notices : List Notice
  result : Except Error α

namespace Logged
variable {α β : Type}

/-- Leaves a notice. -/
def note (n : Notice) : Logged Unit :=
  ⟨[n], .ok ()⟩

/-- Stops with an error. -/
def fail (e : Error) : Logged α :=
  ⟨[], .error e⟩

/-- Work that leaves no notices. -/
def lift (r : Except Error α) : Logged α :=
  ⟨[], r⟩

instance : Monad Logged where
  pure a := ⟨[], .ok a⟩
  bind x f :=
    match x.result with
    | .error e => ⟨x.notices, .error e⟩
    | .ok a => ⟨x.notices ++ (f a).notices, (f a).result⟩

instance : MonadLift (Except Error) Logged where
  monadLift := lift

@[simp]
theorem result_pure (a : α) : (pure a : Logged α).result = .ok a := rfl

@[simp]
theorem result_note (n : Notice) : (note n).result = .ok () := rfl

@[simp]
theorem result_lift (r : Except Error α) : (lift r).result = r := rfl

@[simp]
theorem result_fail (e : Error) : (fail e : Logged α).result = .error e := rfl

/-- The result of a sequence is the sequence of the results. -/
@[simp]
theorem result_bind (x : Logged α) (f : α → Logged β) :
    (x >>= f).result = x.result >>= fun a => (f a).result := by
  rcases x with ⟨notices, _ | a⟩ <;> rfl

end Logged
end FlakeInputs
