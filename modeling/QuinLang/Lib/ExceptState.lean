import Mathlib

/-! Runs of stateful computations that can fail and keep their state when they do, taken apart
step by step. -/

namespace ExceptState

universe u

variable {ε σ α β : Type u} {m : ExceptT ε (StateM σ) α} {f : α → ExceptT ε (StateM σ) β} {s s' : σ}

theorem bind_ok {a : α} (h : m s = (.ok a, s')) : (m >>= f) s = f a s' := by
  change (StateT.bind m (ExceptT.bindCont f) : StateM σ (Except ε β)) s = _
  rw [StateT.bind, h]
  rfl

theorem bind_error {e : ε} (h : m s = (.error e, s')) : (m >>= f) s = (.error e, s') := by
  change (StateT.bind m (ExceptT.bindCont f) : StateM σ (Except ε β)) s = _
  rw [StateT.bind, h]
  rfl

/-- The first step of a run that does not fail does not fail. -/
theorem of_bind_ok {b : β} (h : (m >>= f) s = (.ok b, s')) : ∃ a t, m s = (.ok a, t) ∧ f a t = (.ok b, s') := by
  rcases hm : m s with ⟨r, t⟩
  cases r with
  | error e =>
    rw [bind_error hm] at h
    cases h
  | ok a => exact ⟨a, t, rfl, (bind_ok hm).symm.trans h⟩

/-- A run that fails does so in its first step or after it. -/
theorem of_bind_error {e : ε} (h : (m >>= f) s = (.error e, s')) :
    m s = (.error e, s') ∨ ∃ a t, m s = (.ok a, t) ∧ f a t = (.error e, s') := by
  rcases hm : m s with ⟨r, t⟩
  cases r with
  | error e' =>
    rw [bind_error hm] at h
    cases h
    exact .inl rfl
  | ok a => exact .inr ⟨a, t, rfl, (bind_ok hm).symm.trans h⟩

end ExceptState
