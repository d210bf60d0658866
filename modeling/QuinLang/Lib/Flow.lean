import Mathlib

/-! Where control can go in a fragment of code: a set of points that the instructions
of the fragment do not leave except through its exits. A point is a place in the code
with what is known there; `fits` says which instructions may stand where what is known. -/

namespace Flow

/-- Where an instruction leads: to a place in the code, or to one not known yet. -/
inductive Exit (L : Type)
  | at (pc : ℕ)
  | label (l : L)
  deriving DecidableEq

variable {ι V L : Type}

abbrev Points (V : Type) := ℕ → V → Prop

abbrev Exits (V L : Type) := Exit L → V → Prop

variable (leads : ι → ℕ → V → Exit L → V → Prop) (fits : ι → V → Prop)

/-- A point of the fragment, or a way out of it. -/
def Lands (S : Points V) (E : Exits V L) (x : Exit L) (v : V) : Prop := E x v ∨ ∃ p, x = .at p ∧ S p v

/-- The points are inside the code at `pc`, and leave it only through `E`. -/
structure Closed (pc : ℕ) (code : List ι) (S : Points V) (E : Exits V L) : Prop where
  inside : ∀ p v, S p v → pc ≤ p ∧ p < pc + code.length
  fits : ∀ p v i, S p v → code[p - pc]? = some i → fits i v
  step : ∀ p v i, S p v → code[p - pc]? = some i → ∀ x v', leads i p v x v' → Lands S E x v'

/-- Entered at its start with what `A` says, the code at `pc` is left only through `E`. -/
def Leaves (pc : ℕ) (code : List ι) (A : V → Prop) (E : Exits V L) : Prop :=
  ∃ S, Closed leads fits pc code S E ∧ ∀ v, A v → (code = [] ∧ E (.at pc) v) ∨ S pc v

variable {leads} {fits} {pc : ℕ} {code : List ι} {A : V → Prop} {E : Exits V L}

theorem Lands.mono {S S' : Points V} {E E' : Exits V L} (hS : ∀ p v, S p v → S' p v) (hE : ∀ x v, E x v → E' x v)
    {x : Exit L} {v : V} (h : Lands S E x v) : Lands S' E' x v := by
  rcases h with h | ⟨p, rfl, h⟩
  · exact Or.inl (hE x v h)
  · exact Or.inr ⟨p, rfl, hS p v h⟩

namespace Leaves

theorem mono {A' : V → Prop} {E' : Exits V L} (h : Leaves leads fits pc code A E) (hA : ∀ v, A' v → A v)
    (hE : ∀ x v, E x v → E' x v) : Leaves leads fits pc code A' E' := by
  obtain ⟨S, hc, hin⟩ := h
  refine ⟨S, ⟨hc.inside, hc.fits, fun p v i hp hi x v' hl => (hc.step p v i hp hi x v' hl).mono (fun _ _ => id) hE⟩,
    fun v hv => ?_⟩
  rcases hin v (hA v hv) with ⟨hnil, he⟩ | hs
  · exact Or.inl ⟨hnil, hE _ v he⟩
  · exact Or.inr hs

theorem exits {E' : Exits V L} (h : Leaves leads fits pc code A E) (hE : ∀ x v, E x v → E' x v) :
    Leaves leads fits pc code A E' :=
  h.mono (fun _ => id) hE

theorem nil (h : ∀ v, A v → E (.at pc) v) : Leaves leads fits pc [] A E :=
  ⟨fun _ _ => False, ⟨by simp, by simp, by simp⟩, fun v hv => Or.inl ⟨rfl, h v hv⟩⟩

/-- One instruction. -/
theorem one {i : ι} (hfit : ∀ v, A v → fits i v) (h : ∀ v, A v → ∀ x v', leads i pc v x v' → E x v') :
    Leaves leads fits pc [i] A E := by
  refine ⟨fun p v => p = pc ∧ A v, ⟨?_, ?_, ?_⟩, fun v hv => Or.inr ⟨rfl, hv⟩⟩
  · rintro p v ⟨rfl, -⟩
    simp
  · rintro p v j ⟨rfl, hv⟩ hj
    simp only [Nat.sub_self, List.getElem?_cons_zero, Option.some.injEq] at hj
    exact hj ▸ hfit v hv
  · rintro p v j ⟨rfl, hv⟩ hj x v' hl
    simp only [Nat.sub_self, List.getElem?_cons_zero, Option.some.injEq] at hj
    subst hj
    exact Or.inl (h v hv x v' hl)

/-- Code after code: the second part is entered where the first leaves to its start. -/
theorem append {c₁ c₂ : List ι} {E₁ : Exits V L} {B : V → Prop} (h : Leaves leads fits pc c₁ A E₁)
    (h' : Leaves leads fits (pc + c₁.length) c₂ B E) (hB : ∀ v, E₁ (.at (pc + c₁.length)) v → B v)
    (hE : ∀ x v, E₁ x v → x ≠ .at (pc + c₁.length) → E x v) : Leaves leads fits pc (c₁ ++ c₂) A E := by
  obtain ⟨S₁, hc₁, hin₁⟩ := h
  obtain ⟨S₂, hc₂, hin₂⟩ := h'
  have hmid : ∀ v, E₁ (.at (pc + c₁.length)) v → (c₂ = [] ∧ E (.at (pc + c₁.length)) v) ∨ S₂ (pc + c₁.length) v :=
    fun v hv => hin₂ v (hB v hv)
  have hright {p : ℕ} {i : ι} (hlo : pc + c₁.length ≤ p) (hi : (c₁ ++ c₂)[p - pc]? = some i) :
      c₂[p - (pc + c₁.length)]? = some i := by
    rw [List.getElem?_append_right (by omega)] at hi
    rw [← hi]
    congr 1
    omega
  refine ⟨fun p v => S₁ p v ∨ S₂ p v, ⟨?_, ?_, ?_⟩, fun v hv => ?_⟩
  · rintro p v (hp | hp)
    · obtain ⟨hlo, hhi⟩ := hc₁.inside p v hp
      rw [List.length_append]
      omega
    · obtain ⟨hlo, hhi⟩ := hc₂.inside p v hp
      rw [List.length_append]
      omega
  · rintro p v i (hp | hp) hi
    · obtain ⟨hlo, hhi⟩ := hc₁.inside p v hp
      rw [List.getElem?_append_left (by omega)] at hi
      exact hc₁.fits p v i hp hi
    · exact hc₂.fits p v i hp (hright (hc₂.inside p v hp).1 hi)
  · rintro p v i (hp | hp) hi x v' hl
    · obtain ⟨hlo, hhi⟩ := hc₁.inside p v hp
      rw [List.getElem?_append_left (by omega)] at hi
      rcases hc₁.step p v i hp hi x v' hl with he | ⟨q, rfl, hq⟩
      · by_cases hx : x = .at (pc + c₁.length)
        · subst hx
          rcases hmid v' he with ⟨-, he⟩ | hs
          · exact Or.inl he
          · exact Or.inr ⟨_, rfl, Or.inr hs⟩
        · exact Or.inl (hE x v' he hx)
      · exact Or.inr ⟨q, rfl, Or.inl hq⟩
    · have hi' := hright (hc₂.inside p v hp).1 hi
      exact (hc₂.step p v i hp hi' x v' hl).mono (fun _ _ => Or.inr) fun _ _ => id
  · rcases hin₁ v hv with ⟨rfl, he⟩ | hs
    · rcases hmid v (by simpa using he) with ⟨rfl, he⟩ | hs
      · exact Or.inl ⟨rfl, by simpa using he⟩
      · exact Or.inr (Or.inr (by simpa using hs))
    · exact Or.inr (Or.inl hs)

/-- What follows code that is not left to its end is never reached. -/
theorem append_dead {c₁ : List ι} (h : Leaves leads fits pc c₁ A E) (hne : c₁ ≠ []) (c₂ : List ι) :
    Leaves leads fits pc (c₁ ++ c₂) A E := by
  obtain ⟨S, hc, hin⟩ := h
  refine ⟨S, ⟨fun p v hp => ?_, fun p v i hp hi => ?_, fun p v i hp hi => ?_⟩, fun v hv => ?_⟩
  · obtain ⟨hlo, hhi⟩ := hc.inside p v hp
    rw [List.length_append]
    omega
  · obtain ⟨hlo, hhi⟩ := hc.inside p v hp
    rw [List.getElem?_append_left (by omega)] at hi
    exact hc.fits p v i hp hi
  · obtain ⟨hlo, hhi⟩ := hc.inside p v hp
    rw [List.getElem?_append_left (by omega)] at hi
    exact hc.step p v i hp hi
  · exact Or.inr ((hin v hv).resolve_left fun h => hne h.1)

/-- A jump back to the start of the code. -/
theorem loop (h : Leaves leads fits pc code A E) (hne : code ≠ []) (hback : ∀ v, E (.at pc) v → A v) :
    Leaves leads fits pc code A fun x v => E x v ∧ x ≠ .at pc := by
  obtain ⟨S, hc, hin⟩ := h
  have hstart {v : V} (hv : A v) : S pc v := (hin v hv).resolve_left fun h => hne h.1
  refine ⟨S, ⟨hc.inside, hc.fits, fun p v i hp hi x v' hl => ?_⟩, fun v hv => Or.inr (hstart hv)⟩
  rcases hc.step p v i hp hi x v' hl with he | hs
  · by_cases hx : x = .at pc
    · subst hx
      exact Or.inr ⟨pc, rfl, hstart (hback v' he)⟩
    · exact Or.inl ⟨he, hx⟩
  · exact Or.inr hs

/-- Rewriting the instructions so that what led to a label leads where `r` sends it. -/
theorem redirect {f : ι → ι} {r : Exit L → Exit L} (hr : ∀ p, r (.at p) = .at p) (hfit : ∀ i v, fits i v → fits (f i) v)
    (hf : ∀ i p v x v', leads (f i) p v x v' → ∃ y, x = r y ∧ leads i p v y v') (h : Leaves leads fits pc code A E) :
    Leaves leads fits pc (code.map f) A fun x v => ∃ y, x = r y ∧ E y v := by
  obtain ⟨S, hc, hin⟩ := h
  refine ⟨S, ⟨fun p v hp => by simpa using hc.inside p v hp, fun p v i hp hi => ?_, fun p v i hp hi x v' hl => ?_⟩,
    fun v hv => ?_⟩
  · rw [List.getElem?_map] at hi
    obtain ⟨j, hj, rfl⟩ := Option.map_eq_some_iff.mp hi
    exact hfit j v (hc.fits p v j hp hj)
  · rw [List.getElem?_map] at hi
    obtain ⟨j, hj, rfl⟩ := Option.map_eq_some_iff.mp hi
    obtain ⟨y, rfl, hy⟩ := hf j p v x v' hl
    rcases hc.step p v j hp hj y v' hy with he | ⟨q, rfl, hq⟩
    · exact Or.inl ⟨y, rfl, he⟩
    · exact Or.inr ⟨q, hr q, hq⟩
  · rcases hin v hv with ⟨rfl, he⟩ | hs
    · exact Or.inl ⟨rfl, .at pc, (hr pc).symm, he⟩
    · exact Or.inr hs

end Leaves

end Flow
