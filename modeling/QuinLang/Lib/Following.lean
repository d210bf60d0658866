import Mathlib

/-! A machine that takes one step at a time against a computation bounded by fuel: the
machine comes to what the computation returns, fails where it fails, and is still going
after as many steps as the fuel where the fuel ran out. -/

namespace Following

universe u

/-- Why a computation stops short. -/
inductive Stop (E : Type u)
  | fault (e : E)
  | timeout
  /-- what the computation does not cover -/
  | outside
  deriving DecidableEq

section Machine

variable {S : Type*} {E : Type u} (next : S → S → Prop) (fails : S → E → Prop)

/-- So many steps of the machine. -/
inductive Reaches : ℕ → S → S → Prop
  | refl (s : S) : Reaches 0 s s
  | head {s t u : S} {n : ℕ} : next s t → Reaches n t u → Reaches (n + 1) s u

variable {next} in
theorem Reaches.trans {s t u : S} {m n : ℕ} (h : Reaches next m s t) (h' : Reaches next n t u) :
    Reaches next (m + n) s u := by
  induction h with
  | refl s =>
    rw [Nat.zero_add]
    exact h'
  | head hstep _ ih =>
    rw [Nat.add_right_comm]
    exact .head hstep (ih h')

variable {next} in
/-- A run passes through every shorter one. -/
theorem Reaches.shorter {s t : S} {k m : ℕ} (h : Reaches next m s t) (hk : k ≤ m) : ∃ u, Reaches next k s u := by
  induction h generalizing k with
  | refl s =>
    obtain rfl := Nat.le_zero.mp hk
    exact ⟨s, .refl s⟩
  | head hstep _ ih =>
    cases k with
    | zero => exact ⟨_, .refl _⟩
    | succ k =>
      obtain ⟨u, hu⟩ := ih (Nat.le_of_succ_le_succ hk)
      exact ⟨u, .head hstep hu⟩

/-- The machine does from `s` what the computation came to, `done` tying a result to the
state the machine is in by then. -/
def Tracks {α : Type u} (n : ℕ) (s : S) (done : α → S → Prop) : Except (Stop E) α → Prop
  | .ok a => ∃ k t, Reaches next k s t ∧ done a t
  | .error (.fault e) => ∃ k t, Reaches next k s t ∧ fails t e
  | .error .timeout => ∃ k t, n ≤ k ∧ Reaches next k s t
  | .error .outside => True

variable {next fails} {α β : Type u} {n : ℕ} {s t : S} {done : α → S → Prop} {r : Except (Stop E) α}

namespace Tracks

theorem returns {a : α} (h : done a s) : Tracks next fails n s done (.ok a) := ⟨0, s, .refl s, h⟩

theorem fault {e : E} (h : fails s e) : Tracks next fails n s done (.error (.fault e)) := ⟨0, s, .refl s, h⟩

/-- Some steps first. -/
theorem after {k : ℕ} (h : Reaches next k s t) (h' : Tracks next fails n t done r) :
    Tracks next fails (n + k) s done r := by
  rcases r with (e | _ | _) | a
  · obtain ⟨m, u, hreach, hfail⟩ := h'
    exact ⟨k + m, u, h.trans hreach, hfail⟩
  · obtain ⟨m, u, hle, hreach⟩ := h'
    exact ⟨k + m, u, by omega, h.trans hreach⟩
  · trivial
  · obtain ⟨m, u, hreach, hdone⟩ := h'
    exact ⟨k + m, u, h.trans hreach, hdone⟩

/-- Less is asked of the machine where there was less fuel. -/
theorem mono {m : ℕ} (h : Tracks next fails n s done r) (hm : m ≤ n) : Tracks next fails m s done r := by
  rcases r with (e | _ | _) | a
  · exact h
  · obtain ⟨k, u, hle, hreach⟩ := h
    exact ⟨k, u, hm.trans hle, hreach⟩
  · exact h
  · exact h

theorem step (h : next s t) (h' : Tracks next fails n t done r) : Tracks next fails (n + 1) s done r :=
  h'.after (.head h (.refl t))

theorem weaken {done' : α → S → Prop} (h : Tracks next fails n s done r) (hd : ∀ a t, done a t → done' a t) :
    Tracks next fails n s done' r := by
  rcases r with (e | _ | _) | a
  · exact h
  · exact h
  · exact h
  · obtain ⟨k, t, hreach, hdone⟩ := h
    exact ⟨k, t, hreach, hd a t hdone⟩

/-- A step of the machine at the end. -/
theorem last {done' : α → S → Prop} (h : Tracks next fails n s done r) (hd : ∀ a t, done a t → ∃ u, next t u ∧ done' a u) :
    Tracks next fails n s done' r := by
  rcases r with (e | _ | _) | a
  · exact h
  · exact h
  · exact h
  · obtain ⟨k, t, hreach, hdone⟩ := h
    obtain ⟨u, hnext, hdone'⟩ := hd a t hdone
    exact ⟨k + 1, u, hreach.trans (.head hnext (.refl u)), hdone'⟩

/-- One computation after another. -/
theorem bind {f : α → Except (Stop E) β} {done' : β → S → Prop} (h : Tracks next fails n s done r)
    (hf : ∀ a t, done a t → Tracks next fails n t done' (f a)) : Tracks next fails n s done' (r >>= f) := by
  rcases r with (e | _ | _) | a
  · exact h
  · exact h
  · exact h
  · obtain ⟨k, t, hreach, hdone⟩ := h
    exact ((hf a t hdone).after hreach).mono (Nat.le_add_right n k)

theorem map {f : α → β} {done' : β → S → Prop} (h : Tracks next fails n s done r) (hf : ∀ a t, done a t → done' (f a) t) :
    Tracks next fails n s done' (r.map f) := by
  rcases r with (e | _ | _) | a
  · exact h
  · exact h
  · exact h
  · obtain ⟨k, t, hreach, hdone⟩ := h
    exact ⟨k, t, hreach, hf a t hdone⟩

end Tracks

/-- The machine goes one way at most, and where it has stopped there is one thing it came to. -/
structure Deterministic (next : S → S → Prop) (fails : S → E → Prop) (done : α → S → Prop) : Prop where
  next_next : ∀ s t t', next s t → next s t' → t = t'
  done_next : ∀ a s t, done a s → ¬next s t
  fails_next : ∀ e s t, fails s e → ¬next s t
  done_fails : ∀ a e s, done a s → ¬fails s e
  done_done : ∀ a b s, done a s → done b s → a = b
  fails_fails : ∀ e e' s, fails s e → fails s e' → e = e'

section Deterministic

/-- A run to where the machine stops goes as far as any run. -/
theorem Reaches.stopped (hnext : ∀ s t t', next s t → next s t' → t = t') {u : S} {k m : ℕ} (h : Reaches next k s t)
    (hstop : ∀ v, ¬next t v) (h' : Reaches next m s u) : m ≤ k ∧ ((∀ v, ¬next u v) → u = t) := by
  induction h generalizing m with
  | refl s =>
    cases h' with
    | refl => exact ⟨Nat.le_refl 0, fun _ => rfl⟩
    | head hstep => exact absurd hstep (hstop _)
  | head hstep hrest ih =>
    cases h' with
    | refl => exact ⟨Nat.zero_le _, fun hu => absurd hstep (hu _)⟩
    | head hstep' hrest' =>
      obtain rfl := hnext _ _ _ hstep hstep'
      obtain ⟨hle, hsame⟩ := ih hstop hrest'
      exact ⟨Nat.succ_le_succ hle, hsame⟩

variable {r : ℕ → Except (Stop E) α}

/-- A computation with fuel that the machine follows at any fuel says all there is to say: the
machine comes to what some fuel returns and to nothing else, fails where some fuel faults and
nowhere else, and goes on forever if the fuel always runs out. -/
theorem Tracks.complete (hdet : Deterministic next fails done) (h : ∀ n, Tracks next fails n s done (r n))
    (hinside : ∀ n, r n ≠ .error .outside) :
    (∀ a, (∃ k t, Reaches next k s t ∧ done a t) ↔ ∃ n, r n = .ok a) ∧
      (∀ e, (∃ k t, Reaches next k s t ∧ fails t e) ↔ ∃ n, r n = .error (.fault e)) ∧
      ((∀ k, ∃ t, Reaches next k s t) ↔ ∀ n, r n = .error .timeout) := by
  -- where the machine stops after k steps, more fuel than k cannot run out
  have hsettled {k : ℕ} {t : S} (hreach : Reaches next k s t) (hstop : ∀ v, ¬next t v) :
      (∃ a, r (k + 1) = .ok a ∧ done a t) ∨ ∃ e, r (k + 1) = .error (.fault e) ∧ fails t e := by
    have hk := h (k + 1)
    generalize hr : r (k + 1) = x at hk ⊢
    rcases x with (e | _ | _) | a
    · obtain ⟨m, u, hreach', hfail⟩ := hk
      have hu := (hreach.stopped hdet.next_next hstop hreach').2 fun v => hdet.fails_next e u v hfail
      exact .inr ⟨e, rfl, hu ▸ hfail⟩
    · obtain ⟨m, u, hle, hreach'⟩ := hk
      have := (hreach.stopped hdet.next_next hstop hreach').1
      omega
    · exact absurd hr (hinside _)
    · obtain ⟨m, u, hreach', hdone⟩ := hk
      have hu := (hreach.stopped hdet.next_next hstop hreach').2 fun v => hdet.done_next a u v hdone
      exact .inl ⟨a, rfl, hu ▸ hdone⟩
  refine ⟨fun a => ⟨?_, ?_⟩, fun e => ⟨?_, ?_⟩, ?_, ?_⟩
  · rintro ⟨k, t, hreach, hdone⟩
    obtain ⟨b, hb, hdone'⟩ | ⟨e, -, hfail⟩ := hsettled hreach fun v => hdet.done_next a t v hdone
    · exact ⟨k + 1, hdet.done_done b a t hdone' hdone ▸ hb⟩
    · exact absurd hfail (hdet.done_fails a e t hdone)
  · rintro ⟨n, hn⟩
    have := h n
    rwa [hn] at this
  · rintro ⟨k, t, hreach, hfail⟩
    obtain ⟨b, -, hdone⟩ | ⟨e', he', hfail'⟩ := hsettled hreach fun v => hdet.fails_next e t v hfail
    · exact absurd hfail (hdet.done_fails b e t hdone)
    · exact ⟨k + 1, hdet.fails_fails e' e t hfail' hfail ▸ he'⟩
  · rintro ⟨n, hn⟩
    have := h n
    rwa [hn] at this
  · intro hforever n
    have hn := h n
    generalize hr : r n = x at hn ⊢
    have hstopped {k : ℕ} {t : S} (hreach : Reaches next k s t) (hstop : ∀ v, ¬next t v) : False := by
      obtain ⟨u, hu⟩ := hforever (k + 1)
      have := (hreach.stopped hdet.next_next hstop hu).1
      omega
    rcases x with (e | _ | _) | a
    · obtain ⟨m, u, hreach, hfail⟩ := hn
      exact (hstopped hreach fun v => hdet.fails_next e u v hfail).elim
    · rfl
    · exact absurd hr (hinside n)
    · obtain ⟨m, u, hreach, hdone⟩ := hn
      exact (hstopped hreach fun v => hdet.done_next a u v hdone).elim
  · intro htimeout k
    have hk := h k
    rw [htimeout k] at hk
    obtain ⟨m, t, hle, hreach⟩ := hk
    exact hreach.shorter hle

end Deterministic

end Machine

end Following
