import Mathlib

/-! Depth-first walks of a directed graph that mark a node on entry and finish it once
its successors are dealt with. What a walk has finished, in order, given the nodes
entered and not finished before it and those finished before it. -/

namespace DepthFirst

open Relation

variable {V : Type*} {edge : V → V → Prop}

/-- Walks from the nodes of `roots`, begun with `entered` unfinished and `done` finished,
have finished `new`, in that order. -/
structure Walk (edge : V → V → Prop) (entered done : List V) (roots : V → Prop) (new : List V) : Prop where
  nodup : new.Nodup
  fresh : ∀ q ∈ new, q ∉ entered ∧ q ∉ done
  reach : ∀ q ∈ new, ∃ p, roots p ∧ ReflTransGen edge p q
  closed : ∀ q ∈ new, ∀ r, edge q r → r ∈ entered ∨ r ∈ done ∨ r ∈ new
  reached : ∀ p, roots p → p ∈ entered ∨ p ∈ done ∨ p ∈ new
  order : ∀ l₁ q l₂, new = l₁ ++ q :: l₂ → ∀ r, edge q r → r ∈ done ∨ r ∈ l₁ ∨ ReflTransGen edge r q

namespace Walk

variable {entered done new new' : List V} {roots roots' : V → Prop} {p : V}

/-- A node met before is not walked again. -/
theorem skip (h : p ∈ entered ∨ p ∈ done) : Walk edge entered done (· = p) [] where
  nodup := List.nodup_nil
  fresh := by simp
  reach := by simp
  closed := by simp
  reached := by
    rintro _ rfl
    exact h.imp_right Or.inl
  order := by simp

theorem nil : Walk edge entered done (fun _ => False) [] where
  nodup := List.nodup_nil
  fresh := by simp
  reach := by simp
  closed := by simp
  reached := by simp
  order := by simp

theorem mono (h : Walk edge entered done roots new) (hroots : ∀ p, roots' p ↔ roots p) : Walk edge entered done roots' new := by
  rwa [show roots' = roots from funext fun p => propext (hroots p)]

/-- One walk after another. -/
theorem append (h : Walk edge entered done roots new) (h' : Walk edge entered (done ++ new) roots' new') :
    Walk edge entered done (fun p => roots p ∨ roots' p) (new ++ new') where
  nodup := by
    refine List.nodup_append'.mpr ⟨h.nodup, h'.nodup, fun q hq hq' => ?_⟩
    exact (h'.fresh q hq').2 (List.mem_append_right _ hq)
  fresh := by
    intro q hq
    rcases List.mem_append.mp hq with hq | hq
    · exact h.fresh q hq
    · exact ⟨(h'.fresh q hq).1, fun hd => (h'.fresh q hq).2 (List.mem_append_left _ hd)⟩
  reach := by
    intro q hq
    rcases List.mem_append.mp hq with hq | hq
    · obtain ⟨p, hp, hpq⟩ := h.reach q hq
      exact ⟨p, .inl hp, hpq⟩
    · obtain ⟨p, hp, hpq⟩ := h'.reach q hq
      exact ⟨p, .inr hp, hpq⟩
  closed := by
    intro q hq r hr
    rcases List.mem_append.mp hq with hq | hq
    · have := h.closed q hq r hr
      simp only [List.mem_append]
      tauto
    · have := h'.closed q hq r hr
      simp only [List.mem_append] at this ⊢
      tauto
  reached := by
    rintro p (hp | hp)
    · have := h.reached p hp
      simp only [List.mem_append]
      tauto
    · have := h'.reached p hp
      simp only [List.mem_append] at this ⊢
      tauto
  order := by
    intro l₁ q l₂ hl r hr
    rcases List.append_eq_append_iff.mp hl with ⟨m, rfl, hm⟩ | ⟨m, hm, htail⟩
    · have := h'.order m q l₂ hm r hr
      simp only [List.mem_append] at this ⊢
      tauto
    · cases m with
      | nil =>
        rw [List.append_nil] at hm
        subst hm
        have := h'.order [] q l₂ htail.symm r hr
        simp only [List.mem_append, List.not_mem_nil] at this
        tauto
      | cons x m =>
        obtain ⟨rfl, -⟩ := List.cons_eq_cons.mp htail
        have := h.order l₁ _ m hm r hr
        tauto

/-- A node entered, its successors walked, and finished. -/
theorem finish (hentered : p ∉ entered) (hdone : p ∉ done) (hpath : ∀ g ∈ entered, ReflTransGen edge g p)
    (h : Walk edge (p :: entered) done (edge p) new) : Walk edge entered done (· = p) (new ++ [p]) where
  nodup := by
    refine List.nodup_append'.mpr ⟨h.nodup, List.nodup_singleton p, fun q hq hqp => ?_⟩
    obtain rfl := List.mem_singleton.mp hqp
    exact (h.fresh q hq).1 List.mem_cons_self
  fresh := by
    intro q hq
    rcases List.mem_append.mp hq with hq | hq
    · exact ⟨fun he => (h.fresh q hq).1 (List.mem_cons_of_mem _ he), (h.fresh q hq).2⟩
    · obtain rfl := List.mem_singleton.mp hq
      exact ⟨hentered, hdone⟩
  reach := by
    intro q hq
    rcases List.mem_append.mp hq with hq | hq
    · obtain ⟨r, hr, hrq⟩ := h.reach q hq
      exact ⟨p, rfl, .head hr hrq⟩
    · obtain rfl := List.mem_singleton.mp hq
      exact ⟨q, rfl, .refl⟩
  closed := by
    have hin : ∀ r, r ∈ p :: entered ∨ r ∈ done ∨ r ∈ new → r ∈ entered ∨ r ∈ done ∨ r ∈ new ++ [p] := by
      intro r hr
      simp only [List.mem_cons, List.mem_append, List.not_mem_nil, or_false] at hr ⊢
      tauto
    intro q hq r hr
    rcases List.mem_append.mp hq with hq | hq
    · exact hin r (h.closed q hq r hr)
    · obtain rfl := List.mem_singleton.mp hq
      exact hin r (h.reached r hr)
  reached := by
    rintro _ rfl
    simp
  order := by
    intro l₁ q l₂ hl r hr
    rcases List.append_eq_append_iff.mp hl with ⟨m, rfl, hm⟩ | ⟨m, hm, htail⟩
    · have hq : m = [] ∧ q = p := by
        cases m with
        | nil => exact ⟨rfl, (List.cons_eq_cons.mp hm).1.symm⟩
        | cons x m => simp at hm
      obtain ⟨rfl, rfl⟩ := hq
      rcases h.reached r hr with he | hd | hn
      · rcases List.mem_cons.mp he with rfl | he
        · exact .inr (.inr .refl)
        · exact .inr (.inr (hpath r he))
      · exact .inl hd
      · exact .inr (.inl (List.mem_append_left _ hn))
    · cases m with
      | nil =>
        rw [List.append_nil] at hm
        subst hm
        obtain ⟨rfl, -⟩ := List.cons_eq_cons.mp htail
        rcases h.reached r hr with he | hd | hn
        · rcases List.mem_cons.mp he with rfl | he
          · exact .inr (.inr .refl)
          · exact .inr (.inr (hpath r he))
        · exact .inl hd
        · exact .inr (.inl hn)
      | cons x m =>
        obtain ⟨rfl, -⟩ := List.cons_eq_cons.mp htail
        exact h.order l₁ _ m hm r hr

/-- A whole walk finishes what its root reaches, each node once. -/
theorem mem_iff (h : Walk edge [] [] (· = p) new) (q : V) : q ∈ new ↔ ReflTransGen edge p q := by
  constructor
  · intro hq
    obtain ⟨_, rfl, hreach⟩ := h.reach q hq
    exact hreach
  · intro hreach
    induction hreach with
    | refl => simpa using h.reached p rfl
    | tail _ hr ih => simpa using h.closed _ ih _ hr

end Walk

end DepthFirst
