import QuinLang.Lib.StateExcept

/-! Parsers that take tokens off the front of what is left to read. A loop that takes one in
each of its turns ends before the tokens do. -/

namespace Consuming

universe u

variable {τ ε : Type} {σ α β : Type}

/-- What a parser is given to read, never nothing, and the ways it may refuse. -/
structure Regime (τ ε : Type) where
  Input : List τ → Prop
  Refusal : ε → Prop
  ne_nil : ∀ ts, Input ts → ts ≠ []

/-- One turn after another, until one of them ends the loop. -/
def loop (spent : ε) (turn : σ → StateT (List τ) (Except ε) (σ ⊕ α)) : ℕ → σ → StateT (List τ) (Except ε) α
  | 0, _ => throw spent
  | fuel + 1, s => do
    match ← turn s with
    | .inl s => loop spent turn fuel s
    | .inr a => return a

/-- A loop returns what its last turn ends it with. -/
theorem loop_ok {spent : ε} {turn : σ → StateT (List τ) (Except ε) (σ ⊕ α)} {fuel : ℕ} {s : σ} {ts rest : List τ} {a : α}
    (h : loop spent turn fuel s ts = .ok (a, rest)) : ∃ s' ts', turn s' ts' = .ok (.inr a, rest) := by
  induction fuel generalizing s ts with
  | zero => cases h
  | succ fuel ih =>
    rw [loop] at h
    obtain ⟨r, ts₁, hturn, h⟩ := StateExcept.bind_ok.mp h
    cases r with
    | inl s' => exact ih h
    | inr b =>
      cases h
      exact ⟨s, ts, hturn⟩

section Takes

variable (R : Regime τ ε)

/-- On at most `bound` tokens the parser refuses, or it takes at least `used` of them and
leaves an input. -/
def Takes (bound used : ℕ) (p : StateT (List τ) (Except ε) α) : Prop :=
  ∀ ts, R.Input ts → ts.length ≤ bound →
    (∃ a rest, p ts = .ok (a, rest) ∧ R.Input rest ∧ rest.length + used ≤ ts.length) ∨ ∃ e, p ts = .error e ∧ R.Refusal e

/-- The turn of a loop: one that goes on has taken a token. -/
def Turns (bound : ℕ) (p : StateT (List τ) (Except ε) (σ ⊕ α)) : Prop :=
  ∀ ts, R.Input ts → ts.length ≤ bound →
    (∃ s rest, p ts = .ok (.inl s, rest) ∧ R.Input rest ∧ rest.length < ts.length) ∨
    (∃ a rest, p ts = .ok (.inr a, rest) ∧ R.Input rest ∧ rest.length ≤ ts.length) ∨ ∃ e, p ts = .error e ∧ R.Refusal e

variable {R} {bound used : ℕ}

theorem Takes.mono {p : StateT (List τ) (Except ε) α} {bound' used' : ℕ} (h : Takes R bound used p) (hb : bound' ≤ bound)
    (hu : used' ≤ used) : Takes R bound' used' p := by
  intro ts hts hlen
  rcases h ts hts (hlen.trans hb) with ⟨a, rest, hp, hrest, hle⟩ | hrefuse
  · exact .inl ⟨a, rest, hp, hrest, by omega⟩
  · exact .inr hrefuse

/-- No input is as short as that. -/
theorem Takes.none {p : StateT (List τ) (Except ε) α} : Takes R 0 used p :=
  fun ts hts hlen => absurd (List.length_eq_zero_iff.mp (Nat.le_zero.mp hlen)) (R.ne_nil ts hts)

theorem Takes.pure (a : α) : Takes R bound 0 (Pure.pure a : StateT (List τ) (Except ε) α) :=
  fun ts hts _ => .inl ⟨a, ts, rfl, hts, le_rfl⟩

theorem Takes.throw {e : ε} (he : R.Refusal e) : Takes R bound used (throw e : StateT (List τ) (Except ε) α) :=
  fun _ _ _ => .inr ⟨e, rfl, he⟩

/-- What the second may take is what the first has left. -/
theorem Takes.bind {p : StateT (List τ) (Except ε) α} {f : α → StateT (List τ) (Except ε) β} {k : ℕ} (h : Takes R bound k p)
    (hf : ∀ a, Takes R (bound - k) (used - k) (f a)) : Takes R bound used (p >>= f) := by
  intro ts hts hlen
  rcases h ts hts hlen with ⟨a, rest, hp, hrest, hle⟩ | ⟨e, hp, he⟩
  · rw [StateExcept.bind_eq hp]
    rcases hf a rest hrest (by omega) with ⟨b, rest', hb, hrest', hle'⟩ | hrefuse
    · exact .inl ⟨b, rest', hb, hrest', by omega⟩
    · exact .inr hrefuse
  · exact .inr ⟨e, StateExcept.bind_error hp, he⟩

theorem Turns.mono {p : StateT (List τ) (Except ε) (σ ⊕ α)} {bound' : ℕ} (h : Turns R bound p) (hb : bound' ≤ bound) :
    Turns R bound' p := fun ts hts hlen => h ts hts (hlen.trans hb)

/-- A first step that need not take anything. -/
theorem Turns.bind {p : StateT (List τ) (Except ε) β} {f : β → StateT (List τ) (Except ε) (σ ⊕ α)} (h : Takes R bound 0 p)
    (hf : ∀ b, Turns R bound (f b)) : Turns R bound (p >>= f) := by
  intro ts hts hlen
  rcases h ts hts hlen with ⟨b, rest, hp, hrest, hle⟩ | ⟨e, hp, he⟩
  · rw [StateExcept.bind_eq hp]
    rcases hf b rest hrest (by omega) with ⟨s, rest', hs, hrest', hlt⟩ | ⟨a, rest', ha, hrest', hle'⟩ | hrefuse
    · exact .inl ⟨s, rest', hs, hrest', by omega⟩
    · exact .inr (.inl ⟨a, rest', ha, hrest', by omega⟩)
    · exact .inr (.inr hrefuse)
  · exact .inr (.inr ⟨e, StateExcept.bind_error hp, he⟩)

/-- A turn that takes a token whether the loop goes on or not. -/
theorem Takes.turns {p : StateT (List τ) (Except ε) (σ ⊕ α)} (h : Takes R bound 1 p) : Turns R bound p := by
  intro ts hts hlen
  rcases h ts hts hlen with ⟨s | a, rest, hp, hrest, hle⟩ | hrefuse
  · exact .inl ⟨s, rest, hp, hrest, by omega⟩
  · exact .inr (.inl ⟨a, rest, hp, hrest, by omega⟩)
  · exact .inr (.inr hrefuse)

theorem Turns.ends (a : α) : Turns R bound (Pure.pure (.inr a) : StateT (List τ) (Except ε) (σ ⊕ α)) :=
  fun ts hts _ => .inr (.inl ⟨a, ts, rfl, hts, le_rfl⟩)

theorem Turns.throw {e : ε} (he : R.Refusal e) : Turns R bound (throw e : StateT (List τ) (Except ε) (σ ⊕ α)) :=
  fun _ _ _ => .inr (.inr ⟨e, rfl, he⟩)

/-- A loop whose every turn is one takes no more turns than there are tokens. -/
theorem Turns.loop {spent : ε} {turn : σ → StateT (List τ) (Except ε) (σ ⊕ α)} (h : ∀ s, Turns R bound (turn s)) (fuel : ℕ)
    (hfuel : bound ≤ fuel) (s : σ) : Takes R bound 0 (Consuming.loop spent turn fuel s) := by
  intro ts hts hlen
  have hlen' : ts.length ≤ fuel := hlen.trans hfuel
  clear hfuel
  induction fuel generalizing s ts with
  | zero => exact absurd (List.length_eq_zero_iff.mp (Nat.le_zero.mp hlen')) (R.ne_nil ts hts)
  | succ fuel ih =>
    rw [Consuming.loop]
    rcases h s ts hts hlen with ⟨s', rest, hp, hrest, hlt⟩ | ⟨a, rest, hp, hrest, hle⟩ | ⟨e, hp, he⟩
    · rw [StateExcept.bind_eq hp]
      rcases ih s' rest hrest (by omega) (by omega) with ⟨b, rest', hb, hrest', hle⟩ | hrefuse
      · exact .inl ⟨b, rest', hb, hrest', by omega⟩
      · exact .inr hrefuse
    · rw [StateExcept.bind_eq hp]
      exact .inl ⟨a, rest, rfl, hrest, by omega⟩
    · exact .inr ⟨e, StateExcept.bind_error hp, he⟩

end Takes

end Consuming
