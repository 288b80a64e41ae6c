import JavaClass.Error

/-!
# Steps that may fail

When a step made of several succeeds.
-/

namespace JavaClass

section State

variable {ε σ α β : Type} {x : EStateM ε σ α} {f : α → EStateM ε σ β} {s s' : σ} {b : β}

theorem bind_eq_ok : (x >>= f) s = .ok b s' ↔ ∃ a t, x s = .ok a t ∧ f a t = .ok b s' := by
  show EStateM.bind x f s = _ ↔ _
  unfold EStateM.bind
  cases x s with
  | ok a t =>
    refine ⟨fun h => ⟨a, t, rfl, h⟩, ?_⟩
    rintro ⟨_, _, ⟨⟩, h⟩
    exact h
  | error e t => simp

theorem pure_eq_ok {a : α} {a' : α} :
    (pure a : EStateM ε σ α) s = .ok a' s' ↔ a' = a ∧ s' = s := by
  show EStateM.Result.ok a s = _ ↔ _
  simp [eq_comm]

theorem bind_apply_ok {a : α} {t : σ} (h : x s = .ok a t) : (x >>= f) s = f a t := by
  show EStateM.bind x f s = _
  simp [EStateM.bind, h]

theorem bind_apply_error {e : ε} {t : σ} (h : x s = .error e t) : (x >>= f) s = .error e t := by
  show EStateM.bind x f s = _
  simp [EStateM.bind, h]

theorem bind_eq_error {e : ε} : (x >>= f) s = .error e s' ↔
    x s = .error e s' ∨ ∃ a t, x s = .ok a t ∧ f a t = .error e s' := by
  show EStateM.bind x f s = _ ↔ _
  unfold EStateM.bind
  cases x s with
  | ok a t =>
    refine ⟨fun h => .inr ⟨a, t, rfl, h⟩, ?_⟩
    rintro (⟨⟨⟩⟩ | ⟨_, _, ⟨⟩, h⟩)
    exact h
  | error e t => simp

/-- What the step answers, a failure included. -/
def outcome (x : EStateM ε σ α) : EStateM ε σ (Except ε α) := fun s =>
  match x s with
  | .ok a t => .ok (.ok a) t
  | .error e t => .ok (.error e) t

theorem outcome_of_ok {a : α} (h : x s = .ok a s') : outcome x s = .ok (.ok a) s' := by
  unfold outcome
  rw [h]

theorem outcome_of_error {e : ε} (h : x s = .error e s') : outcome x s = .ok (.error e) s' := by
  unfold outcome
  rw [h]

end State

section Except

variable {ε α β : Type} {x : Except ε α} {f : α → Except ε β} {b : β}

@[simp] theorem except_ok_bind {a : α} : (Except.ok a >>= f) = f a := rfl

@[simp] theorem except_error_bind {e : ε} : (Except.error e >>= f) = .error e := rfl

@[simp] theorem except_map_ok {g : α → β} {a : α} :
    g <$> (Except.ok a : Except ε α) = .ok (g a) := rfl

theorem except_bind_eq_ok : (x >>= f) = .ok b ↔ ∃ a, x = .ok a ∧ f a = .ok b := by
  cases x with
  | error e => simp [bind, Except.bind]
  | ok a => simp [bind, Except.bind]

theorem except_bind_congr {g : α → Except ε β} (h : ∀ a, x = .ok a → f a = g a) :
    x >>= f = x >>= g := by
  cases x with
  | error e => rfl
  | ok a => exact h a rfl

end Except

theorem lift_eq_ok {σ α : Type} {x : Except Error α} {s s' : σ} {a : α} :
    (liftM x : EStateM Error σ α) s = .ok a s' ↔ x = .ok a ∧ s' = s := by
  cases x with
  | ok b =>
    show EStateM.Result.ok b s = _ ↔ _
    simp [eq_comm]
  | error e =>
    show EStateM.Result.error e s = _ ↔ _
    simp

end JavaClass
