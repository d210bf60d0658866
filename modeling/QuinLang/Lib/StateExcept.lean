import Mathlib

/-! Successful runs of stateful computations that can fail, taken apart step by step. -/

namespace StateExcept

universe u v

variable {σ α β : Type u} {ε : Type v}

@[simp]
theorem bind_ok {x : StateT σ (Except ε) α} {f : α → StateT σ (Except ε) β} {s : σ} {r : β × σ} :
    (x >>= f) s = .ok r ↔ ∃ a s₁, x s = .ok (a, s₁) ∧ f a s₁ = .ok r := by
  show (x s >>= fun p => f p.1 p.2) = .ok r ↔ _
  cases hx : x s with
  | error e => simp [bind, Except.bind]
  | ok p =>
    obtain ⟨a, s₁⟩ := p
    simp only [bind, Except.bind, Except.ok.injEq, Prod.mk.injEq]
    exact ⟨fun h => ⟨a, s₁, ⟨rfl, rfl⟩, h⟩, fun ⟨_, _, ⟨ha, hs⟩, h⟩ => ha ▸ hs ▸ h⟩

/-- A computation whose first step is known to succeed. -/
theorem bind_eq {x : StateT σ (Except ε) α} {f : α → StateT σ (Except ε) β} {s s₁ : σ} {a : α}
    (h : x s = .ok (a, s₁)) : (x >>= f) s = f a s₁ := by
  show (x s >>= fun p => f p.1 p.2) = _
  rw [h]
  rfl

theorem bind_error {x : StateT σ (Except ε) α} {f : α → StateT σ (Except ε) β} {s : σ} {e : ε} (h : x s = .error e) :
    (x >>= f) s = .error e := by
  show (x s >>= fun p => f p.1 p.2) = _
  rw [h]
  rfl

@[simp]
theorem pure_ok {a : α} {s : σ} {r : α × σ} :
    (pure a : StateT σ (Except ε) α) s = .ok r ↔ (a, s) = r := by
  show Except.ok (a, s) = .ok r ↔ _
  rw [Except.ok.injEq]

@[simp]
theorem throw_ok {e : ε} {s : σ} {r : α × σ} :
    (throw e : StateT σ (Except ε) α) s = .ok r ↔ False :=
  by
  refine ⟨fun h => ?_, False.elim⟩
  cases h

@[simp]
theorem get_ok {s : σ} {r : σ × σ} : (get : StateT σ (Except ε) σ) s = .ok r ↔ (s, s) = r := by
  show Except.ok (s, s) = .ok r ↔ _
  rw [Except.ok.injEq]

@[simp]
theorem set_ok {t s : σ} {r : PUnit.{u + 1} × σ} :
    (set t : StateT σ (Except ε) PUnit.{u + 1}) s = .ok r ↔ (⟨⟩, t) = r := by
  show Except.ok (⟨⟩, t) = .ok r ↔ _
  rw [Except.ok.injEq]

@[simp]
theorem modify_ok {f : σ → σ} {s : σ} {r : PUnit.{u + 1} × σ} :
    (modify f : StateT σ (Except ε) PUnit.{u + 1}) s = .ok r ↔ (⟨⟩, f s) = r := by
  show Except.ok (⟨⟩, f s) = .ok r ↔ _
  rw [Except.ok.injEq]

/-- Whether the computation succeeds does not depend on the state: it does where `P` holds. -/
def Succeeds (m : StateT σ (Except ε) α) (P : Prop) : Prop := ∀ s, (∃ r, m s = .ok r) ↔ P

namespace Succeeds

variable {m : StateT σ (Except ε) α} {f : α → StateT σ (Except ε) β} {P Q : Prop}

theorem pure (a : α) : Succeeds (Pure.pure a : StateT σ (Except ε) α) True :=
  fun s => ⟨fun _ => trivial, fun _ => ⟨(a, s), rfl⟩⟩

theorem iff (h : Succeeds m P) (hpq : P ↔ Q) : Succeeds m Q := fun s => (h s).trans hpq

theorem of_ok (h : ∀ s, ∃ r, m s = .ok r) : Succeeds m True := fun s => ⟨fun _ => trivial, fun _ => h s⟩

theorem of_error (h : ∀ s, ∃ e, m s = .error e) : Succeeds m False := by
  refine fun s => ⟨fun ⟨r, hr⟩ => ?_, False.elim⟩
  obtain ⟨e, he⟩ := h s
  rw [he] at hr
  cases hr

theorem bind (h : Succeeds m P) (h' : ∀ a, Succeeds (f a) Q) : Succeeds (m >>= f) (P ∧ Q) := by
  intro s
  constructor
  · rintro ⟨r, hr⟩
    obtain ⟨a, s₁, hm, hf⟩ := bind_ok.mp hr
    exact ⟨(h s).mp ⟨_, hm⟩, (h' a s₁).mp ⟨_, hf⟩⟩
  · rintro ⟨hp, hq⟩
    obtain ⟨⟨a, s₁⟩, hm⟩ := (h s).mpr hp
    obtain ⟨r, hf⟩ := (h' a s₁).mpr hq
    exact ⟨r, bind_ok.mpr ⟨a, s₁, hm, hf⟩⟩

/-- A last step that cannot fail. -/
theorem map (h : Succeeds m P) (g : α → β) : Succeeds (m >>= fun a => Pure.pure (g a)) P :=
  (h.bind fun a => pure (g a)).iff (and_iff_left trivial)

end Succeeds

end StateExcept
