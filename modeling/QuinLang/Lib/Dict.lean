import Mathlib

/-! Dictionaries as lists of entries, each key where it was first put. -/

namespace Dict

variable {κ α : Type} [DecidableEq κ]

/-- The value of a key replaced, or the key put at the end. -/
def assign : List (κ × α) → κ → α → List (κ × α)
  | [], k, v => [(k, v)]
  | e :: m, k, v => if e.1 = k then (k, v) :: m else e :: assign m k v

def Keys (m : List (κ × α)) : List κ := m.map Prod.fst

variable {m : List (κ × α)} {k k' : κ} {v : α}

theorem assign_cons (e : κ × α) (m : List (κ × α)) (k : κ) (v : α) :
    assign (e :: m) k v = if e.1 = k then (k, v) :: m else e :: assign m k v := rfl

theorem lookup_cons (e : κ × α) (m : List (κ × α)) (k : κ) :
    (e :: m).lookup k = if k = e.1 then some e.2 else m.lookup k := by
  rw [List.lookup_cons]
  by_cases h : k = e.1
  · rw [if_pos h, beq_iff_eq.mpr h]
  · rw [if_neg h, beq_false_of_ne h]

theorem lookup_assign (m : List (κ × α)) (k k' : κ) (v : α) :
    (assign m k v).lookup k' = if k' = k then some v else m.lookup k' := by
  induction m with
  | nil => exact lookup_cons ..
  | cons e m ih =>
    rw [assign_cons]
    by_cases hk : e.1 = k
    · rw [if_pos hk, lookup_cons, lookup_cons, hk]
      by_cases h : k' = k
      · rw [if_pos h, if_pos h]
      · rw [if_neg h, if_neg h, if_neg h]
    · rw [if_neg hk, lookup_cons, lookup_cons, ih]
      by_cases h : k' = e.1
      · rw [if_pos h, if_pos h, if_neg fun heq => hk (h.symm.trans heq)]
      · rw [if_neg h, if_neg h]

theorem lookup_map {β : Type} (f : α → β) (m : List (κ × α)) (k : κ) :
    (m.map fun e => (e.1, f e.2)).lookup k = (m.lookup k).map f := by
  induction m with
  | nil => rfl
  | cons e m ih =>
    rw [List.map_cons, lookup_cons, lookup_cons, ih]
    split
    · rfl
    · rfl

theorem keys_assign (m : List (κ × α)) (k : κ) (v : α) :
    Keys (assign m k v) = if k ∈ Keys m then Keys m else Keys m ++ [k] := by
  induction m with
  | nil => rfl
  | cons e m ih =>
    rw [assign_cons]
    by_cases hk : e.1 = k
    · simp [Keys, hk]
    · rw [if_neg hk]
      simp only [Keys, List.map_cons] at ih ⊢
      rw [ih]
      by_cases hmem : k ∈ m.map Prod.fst
      · simp [hmem]
      · simp [hmem, Ne.symm hk]

theorem mem_assign {e : κ × α} (h : e ∈ assign m k v) : e = (k, v) ∨ e ∈ m := by
  induction m with
  | nil => exact .inl (List.mem_singleton.mp h)
  | cons e' m ih =>
    rw [assign_cons] at h
    split at h
    · exact (List.mem_cons.mp h).imp_right (List.mem_cons_of_mem e')
    · rcases List.mem_cons.mp h with rfl | h
      · exact .inr List.mem_cons_self
      · exact (ih h).imp_right (List.mem_cons_of_mem e')

/-- A relation that the new entry has with all others. -/
theorem pairwise_assign {R : κ × α → κ × α → Prop} (h : m.Pairwise R) (hnew : ∀ e ∈ m, R e (k, v) ∧ R (k, v) e) :
    (assign m k v).Pairwise R := by
  induction m with
  | nil => exact List.pairwise_singleton R (k, v)
  | cons e m ih =>
    obtain ⟨hhead, htail⟩ := List.pairwise_cons.mp h
    obtain ⟨hfirst, hrest⟩ := List.forall_mem_cons.mp hnew
    rw [assign_cons]
    split
    · exact List.pairwise_cons.mpr ⟨fun e' he' => (hrest e' he').2, htail⟩
    · refine List.pairwise_cons.mpr ⟨fun e' he' => ?_, ih htail hrest⟩
      rcases mem_assign he' with rfl | he'
      · exact hfirst.1
      · exact hhead e' he'

/-- A new value that shares nothing with the others. -/
theorem nodup_flatMap_assign {β : Type} {g : κ × α → List β} (h : (m.flatMap g).Nodup) (hv : (g (k, v)).Nodup)
    (hfresh : ∀ e ∈ m, (g e).Disjoint (g (k, v))) : ((assign m k v).flatMap g).Nodup := by
  obtain ⟨hown, hapart⟩ := List.nodup_flatMap.mp h
  refine List.nodup_flatMap.mpr ⟨fun e he => ?_, ?_⟩
  · rcases mem_assign he with rfl | he
    · exact hv
    · exact hown e he
  · exact pairwise_assign hapart fun e he => ⟨hfresh e he, (hfresh e he).symm⟩

theorem map_assign {β : Type} (f : α → β) (m : List (κ × α)) (k : κ) (v : α) :
    (assign m k v).map (fun e => (e.1, f e.2)) = assign (m.map fun e => (e.1, f e.2)) k (f v) := by
  induction m with
  | nil => rfl
  | cons e m ih =>
    rw [assign_cons, List.map_cons, assign_cons]
    split
    · rfl
    · exact congrArg _ ih

theorem nodup_assign (h : (Keys m).Nodup) : (Keys (assign m k v)).Nodup := by
  rw [keys_assign]
  split
  · exact h
  · rename_i hk
    exact List.nodup_append.mpr ⟨h, List.nodup_singleton k, fun a ha b hb heq => hk (by rwa [← List.mem_singleton.mp hb, ← heq])⟩

/-- The entries are what their keys look up. -/
theorem mem_iff_lookup (h : (Keys m).Nodup) : (k, v) ∈ m ↔ m.lookup k = some v := by
  induction m with
  | nil => simp
  | cons e m ih =>
    obtain ⟨k', v'⟩ := e
    have hnodup := List.nodup_cons.mp h
    rw [lookup_cons, List.mem_cons]
    by_cases hk : k = k'
    · subst hk
      rw [if_pos rfl, Option.some_inj, Prod.mk.injEq]
      constructor
      · rintro (⟨-, heq⟩ | hm)
        · exact heq.symm
        · exact absurd (List.mem_map_of_mem hm) hnodup.1
      · exact fun heq => .inl ⟨rfl, heq.symm⟩
    · rw [if_neg hk, ← ih hnodup.2, Prod.mk.injEq, or_iff_right fun h => hk h.1]

end Dict
