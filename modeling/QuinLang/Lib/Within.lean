import QuinLang.Lib.StateExcept

/-! Computations every successful run of which relates the state it starts in to the one it
ends in. -/

namespace StateExcept

universe u v

variable {σ α β : Type u} {ε : Type v} {R R' : σ → σ → Prop}

def Within (R : σ → σ → Prop) (m : StateT σ (Except ε) α) : Prop := ∀ s a s', m s = .ok (a, s') → R s s'

namespace Within

variable {m : StateT σ (Except ε) α} {f : α → StateT σ (Except ε) β}

theorem mono (h : Within R m) (hR : ∀ s s', R s s' → R' s s') : Within R' m := fun s a s' hm => hR s s' (h s a s' hm)

theorem of_pure (hr : ∀ s, R s s) (a : α) : Within R (pure a : StateT σ (Except ε) α) := by
  intro s b s' h
  cases h
  exact hr s

theorem of_get (hr : ∀ s, R s s) : Within R (get : StateT σ (Except ε) σ) := by
  intro s a s' h
  cases h
  exact hr s

theorem of_throw (e : ε) : Within R (throw e : StateT σ (Except ε) α) := fun s a s' h => by cases h

theorem of_modify {g : σ → σ} (h : ∀ s, R s (g s)) : Within R (modify g : StateT σ (Except ε) PUnit) := by
  intro s a s' hm
  cases hm
  exact h s

theorem bind (ht : ∀ {s s' s''}, R s s' → R s' s'' → R s s'') (hm : Within R m) (hf : ∀ a, Within R (f a)) : Within R (m >>= f) := by
  intro s b s' h
  obtain ⟨a, s₁, h₁, h₂⟩ := bind_ok.mp h
  exact ht (hm s a s₁ h₁) (hf a s₁ b s' h₂)

theorem ite {c : Prop} [Decidable c] {x y : StateT σ (Except ε) α} (hx : Within R x) (hy : Within R y) :
    Within R (if c then x else y) := by
  split
  · exact hx
  · exact hy

theorem forM {γ : Type u} {g : γ → StateT σ (Except ε) PUnit} (hr : ∀ s, R s s) (ht : ∀ {s s' s''}, R s s' → R s' s'' → R s s'')
    (hg : ∀ b, Within R (g b)) (bs : List γ) : Within R (bs.forM g) := by
  induction bs with
  | nil => exact of_pure hr _
  | cons b bs ih => exact bind ht (hg b) fun _ => ih

end Within

end StateExcept
