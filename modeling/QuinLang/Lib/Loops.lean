import Mathlib

/-! Loops of a program that can fail, and the invariant and the measure that carry them. -/

namespace Loops

variable {ε σ α : Type}

/-- One turn after another until one of them ends the loop; `spent` says the fuel is. -/
def loop (spent : ε) (turn : σ → Except ε (σ ⊕ α)) : ℕ → σ → Except ε α
  | 0, _ => .error spent
  | fuel + 1, s =>
    match turn s with
    | .error e => .error e
    | .ok (.inl s) => loop spent turn fuel s
    | .ok (.inr a) => .ok a

theorem ok_bind {β : Type} (a : α) (f : α → Except ε β) : (Except.ok a >>= f) = f a := rfl

theorem of_bind_ok {β : Type} {r : Except ε α} {f : α → Except ε β} {b : β} (h : (r >>= f) = .ok b) :
    ∃ a, r = .ok a ∧ f a = .ok b := by
  cases r with
  | error e => cases h
  | ok a => exact ⟨a, rfl, h⟩

variable (spent : ε) (turn : σ → Except ε (σ ⊕ α))

/-- Where the invariant holds, a turn ends the loop as wanted, or keeps the invariant and
leaves fewer turns. -/
theorem loop_returns (fuel : ℕ) {P : σ → Prop} {Q : α → Prop} (left : σ → ℕ)
    (hturn : ∀ s, P s → (∃ s', turn s = .ok (.inl s') ∧ P s' ∧ left s' < left s) ∨ ∃ a, turn s = .ok (.inr a) ∧ Q a)
    {s : σ} (hs : P s) (hfuel : left s < fuel) : ∃ a, loop spent turn fuel s = .ok a ∧ Q a := by
  induction fuel generalizing s with
  | zero => omega
  | succ fuel ih =>
    rw [loop]
    rcases hturn s hs with ⟨s', hgo, hs', hlt⟩ | ⟨a, hend, ha⟩
    · rw [hgo]
      exact ih hs' (by omega)
    · rw [hend]
      exact ⟨a, rfl, ha⟩

end Loops
