import QuinLang.Std.MapRefinement

/-! New maps, and maps that grow. -/

namespace QuinLang.Std

open Probing

section Fresh

variable {K V : Type}

theorem entries_replicate_empty (n : ℕ) : entries (List.replicate n (Slot.empty : Slot K V)) = [] := by
  rw [entries, List.filterMap_eq_nil_iff]
  intro x hx
  rw [List.eq_of_mem_replicate hx]
  rfl

theorem countP_replicate_empty (n : ℕ) (f : Slot K V → Bool) (hf : f .empty = false) :
    (List.replicate n (Slot.empty : Slot K V)).countP f = 0 := by
  rw [List.countP_eq_zero]
  intro x hx
  rw [List.eq_of_mem_replicate hx, hf]
  exact Bool.false_ne_true

variable [BEq K]

/-- An empty table of a size the map can have. -/
theorem inv_of_empty {m : Map K V} {p : ℕ} (hp : 3 ≤ p ∧ p ≤ 14) (hm : m.mask = 2 ^ p - 1)
    (hk : m.keys.length = 2 ^ p) (hv : m.values.length = 2 ^ p) (hs : m.state = List.replicate (2 ^ p) map_empty_slot)
    (hlen : m.len = 0) (hdead : m.dead = 0) : m.Inv p ∧ m.slots = List.replicate (2 ^ p) .empty := by
  have hslots : m.slots = List.replicate (2 ^ p) .empty := by
    refine List.ext_getElem (by simp [Map.slots, hk, hv, hs]) fun i _ _ => ?_
    simp [Map.slots, hs, slotOf]
  have hused := countP_replicate_empty (K := K) (V := V) (2 ^ p) Slot.isUsed rfl
  have hdead' := countP_replicate_empty (K := K) (V := V) (2 ^ p) Slot.isDead rfl
  refine ⟨⟨hp, hm, hk, hv, by simp [hs], ?_, ?_, ?_, ?_, ?_, ?_⟩, hslots⟩
  · intro s h
    rw [hs] at h
    exact Or.inl (List.eq_of_mem_replicate h)
  · rw [hlen, hslots, hused]
    rfl
  · rw [hdead, hslots, hdead']
    rfl
  · rw [hslots, hused, hdead']
    omega
  · rw [hslots, hused, hdead']
    omega
  · rw [hslots]
    exact sound_replicate _ _

end Fresh

section New

variable {K V : Type} [BEq K]

theorem roundUpFrom_ends (n : ℤ) {q fuel : ℕ} (hq : 3 ≤ q ∧ q ≤ 14) (hfuel : 15 - q ≤ fuel) :
    Ends "map capacity is too large" (roundUpFrom n fuel (2 ^ q)) fun size => ∃ p, (3 ≤ p ∧ p ≤ 14) ∧ size = 2 ^ p := by
  induction fuel generalizing q with
  | zero => omega
  | succ fuel ih =>
    rw [roundUpFrom]
    split
    · have hdouble : (2 : ℤ) ^ q * 2 = 2 ^ (q + 1) := (pow_succ ..).symm
      by_cases hlast : q = 14
      · have hwraps : wrap16 ((2 : ℤ) ^ q * 2) ≤ 2 ^ q := by
          norm_num [hlast, wrap16]
        simp only [hwraps, if_true]
        exact .panics _
      · have hpos : (0 : ℤ) < 2 ^ q := by positivity
        have hle : (2 : ℤ) ^ (q + 1) ≤ 16384 := by
          have : 2 ^ (q + 1) ≤ 2 ^ 14 := Nat.pow_le_pow_right (by decide) (by omega)
          exact_mod_cast this
        rw [hdouble, wrap16_of_range (by omega) (by omega)]
        simp only [show ¬ (2 : ℤ) ^ (q + 1) ≤ 2 ^ q by omega, if_false]
        exact ih (by omega) (by omega)
    · exact .returns _ ⟨q, hq, rfl⟩

/-- Up to the largest size the number of slots is found. -/
theorem roundUpFrom_small {n : ℤ} {top : ℕ} (htop : top ≤ 14) (hn : n ≤ 2 ^ top) {q fuel : ℕ} (hq : 3 ≤ q ∧ q ≤ top)
    (hfuel : top + 1 - q ≤ fuel) : ∃ p, roundUpFrom n fuel (2 ^ q) = .ok (2 ^ p) ∧ 3 ≤ p ∧ p ≤ top ∧ n ≤ 2 ^ p := by
  induction fuel generalizing q with
  | zero => omega
  | succ fuel ih =>
    have hpos : (0 : ℤ) < 2 ^ q := by positivity
    rw [roundUpFrom]
    by_cases hsmall : (2 : ℤ) ^ q < n
    · have hlast : q ≠ top := by
        rintro rfl
        omega
      have hle : (2 : ℤ) ^ (q + 1) ≤ 16384 := by
        have : 2 ^ (q + 1) ≤ 2 ^ 14 := Nat.pow_le_pow_right (by decide) (by omega)
        exact_mod_cast this
      have hdouble : (2 : ℤ) ^ q * 2 = 2 ^ (q + 1) := (pow_succ ..).symm
      rw [if_pos hsmall, hdouble, wrap16_of_range (by omega) (by omega)]
      simp only [show ¬ (2 : ℤ) ^ (q + 1) ≤ 2 ^ q by omega, if_false]
      exact ih (by omega) (by omega)
    · rw [if_neg hsmall]
      exact ⟨q, rfl, hq.1, hq.2, not_lt.mp hsmall⟩

/-- What `map_new` does once the number of slots is known. -/
theorem map_new_eq (zeroK : K) (zeroV : V) {fuel p : ℕ} {capacity : ℤ} (hash : K → ℤ)
    (hround : map_round_up fuel capacity = .ok (2 ^ p)) (hp : 3 ≤ p ∧ p ≤ 14) :
    ∃ m, map_new zeroK zeroV fuel capacity hash = .ok m ∧ m.hash = hash ∧ m.Inv p ∧
      m.slots = List.replicate (2 ^ p) .empty := by
  have hcast : (2 : ℤ) ^ p = ((2 ^ p : ℕ) : ℤ) := by
    push_cast
    rfl
  have hle : 2 ^ p ≤ 2 ^ 14 := Nat.pow_le_pow_right (by decide) hp.2
  have hpos := Nat.two_pow_pos p
  rw [hcast] at hround
  rw [map_new, hround]
  simp only [array_new_ok, bind, Except.bind, pure, Except.pure]
  obtain ⟨hinv, hslots⟩ := inv_of_empty (p := p) hp
    (m := { keys := List.replicate (2 ^ p) zeroK, values := List.replicate (2 ^ p) zeroV
            state := List.replicate (2 ^ p) 0, hash := hash, len := 0, dead := 0
            mask := wrap16 (((2 ^ p : ℕ) : ℤ) - 1) })
    (by rw [wrap16_of_range (by omega) (by omega), hcast]) (List.length_replicate ..) (List.length_replicate ..)
    rfl rfl rfl
  exact ⟨_, rfl, rfl, hinv, hslots⟩

theorem map_new_ends (zeroK : K) (zeroV : V) {fuel : ℕ} (hfuel : 12 ≤ fuel) (capacity : ℤ) (hash : K → ℤ) :
    Ends "map capacity is too large" (map_new zeroK zeroV fuel capacity hash) fun m =>
      m.hash = hash ∧ ∃ p, m.Inv p ∧ entries m.slots = [] := by
  have hround : Ends "map capacity is too large" (map_round_up fuel capacity) _ :=
    roundUpFrom_ends capacity (q := 3) (by omega) (by omega)
  generalize hr : map_round_up fuel capacity = r at hround
  cases hround with
  | panics =>
    rw [map_new, hr]
    exact .panics _
  | returns _ h =>
    obtain ⟨p, hp, rfl⟩ := h
    obtain ⟨m, hm, hh, hinv, hslots⟩ := map_new_eq zeroK zeroV hash hr hp
    rw [hm]
    exact .returns _ ⟨hh, p, hinv, by rw [hslots, entries_replicate_empty]⟩

/-- A map of no more than so many slots can be built. -/
theorem map_new_small (zeroK : K) (zeroV : V) {fuel top : ℕ} (hfuel : 12 ≤ fuel) (htop : 3 ≤ top ∧ top ≤ 14) {capacity : ℤ}
    (hcap : capacity ≤ 2 ^ top) (hash : K → ℤ) : ∃ m p, map_new zeroK zeroV fuel capacity hash = .ok m ∧ m.hash = hash ∧
      m.Inv p ∧ p ≤ top ∧ capacity ≤ 2 ^ p ∧ m.slots = List.replicate (2 ^ p) .empty := by
  obtain ⟨p, hround, hp, hle, hcap'⟩ := roundUpFrom_small htop.2 hcap (q := 3) ⟨le_rfl, htop.1⟩ (show top + 1 - 3 ≤ fuel by omega)
  obtain ⟨m, hm, hh, hinv, hslots⟩ := map_new_eq zeroK zeroV hash hround (by omega)
  exact ⟨m, p, hm, hh, hinv, hle, hcap', hslots⟩

end New

section Growth

variable {K V : Type} [BEq K] {m : Map K V} {p : ℕ}

/-- The load test; `(mask + 1) * 3` wraps in the largest table, which is always full. -/
theorem full_iff (h : m.Inv p) :
    full m = true ↔ p = 14 ∨ 2 ^ p * 3 < (m.slots.countP Slot.isUsed + m.slots.countP Slot.isDead + 1) * 4 := by
  have hload := h.load
  have hcast : (2 : ℤ) ^ p = ((2 ^ p : ℕ) : ℤ) := by
    push_cast
    rfl
  have htop := h.top
  have hwrap : wrap16 49152 = -16384 := by decide
  unfold full
  rw [decide_eq_true_iff, h.mask, h.len, h.dead, hcast]
  generalize m.slots.countP Slot.isUsed = u, m.slots.countP Slot.isDead = t at hload htop ⊢
  by_cases hp : p = 14
  · have htop := htop hp
    have hsize : 2 ^ p = 16384 := by
      rw [hp]
      rfl
    rw [hsize, wrap16_of_range (v := (u : ℤ) + t) (by omega) (by omega),
      wrap16_of_range (v := (u : ℤ) + t + 1) (by omega) (by omega),
      wrap16_of_range (v := ((u : ℤ) + t + 1) * 4) (by omega) (by omega),
      show wrap16 (wrap16 (((16384 : ℕ) : ℤ) - 1 + 1) * 3) = wrap16 49152 from rfl, hwrap]
    omega
  · have hsize : 2 ^ p ≤ 2 ^ 13 := Nat.pow_le_pow_right (by decide) (by have := h.small; omega)
    rw [wrap16_of_range (v := (u : ℤ) + t) (by omega) (by omega),
      wrap16_of_range (v := (u : ℤ) + t + 1) (by omega) (by omega),
      wrap16_of_range (v := ((u : ℤ) + t + 1) * 4) (by omega) (by omega),
      wrap16_of_range (v := ((2 ^ p : ℕ) : ℤ) - 1 + 1) (by omega) (by omega),
      wrap16_of_range (v := (((2 ^ p : ℕ) : ℤ) - 1 + 1) * 3) (by omega) (by omega)]
    omega

theorem map_grow_top (zeroK : K) (zeroV : V) (h : m.Inv 14) (fuel : ℕ) :
    map_grow zeroK zeroV (fuel + 1) m = .error (.panic "map capacity overflow") := by
  have hmask : m.mask = 16383 := h.mask
  have hslots : wrap16 (wrap16 ((16383 : ℤ) + 1) * 2) ≤ 16383 := by decide
  rw [map_grow, hmask]
  simp only [if_pos hslots]
  rfl

theorem map_set_top (zeroK : K) (zeroV : V) (h : m.Inv 14) (fuel : ℕ) (key : K) (value : V) :
    map_set zeroK zeroV (fuel + 2) m key value = .error (.panic "map capacity overflow") := by
  rw [map_set, if_pos ((full_iff h).mpr (Or.inl rfl)), map_grow_top zeroK zeroV h]
  rfl

variable [EquivBEq K]

/-- `map_set` in a table with room. -/
theorem map_set_room (zeroK : K) (zeroV : V) (h : m.Inv p) (hp : p ≤ 13)
    (hhash : ∀ a b, (a == b) = true → m.hash a = m.hash b)
    (hroom : (m.slots.countP Slot.isUsed + m.slots.countP Slot.isDead + 1) * 4 ≤ 2 ^ p * 3) {fuel : ℕ}
    (hfuel : 2 ^ p ≤ fuel) (key : K) (value : V) :
    ∃ m', map_set zeroK zeroV (fuel + 1) m key value = .ok m' ∧ Inserted m m' p key value := by
  have hnot : ¬ full m = true := fun hf => by
    have := (full_iff h).mp hf
    omega
  obtain ⟨m', hm', hins⟩ := insertInto_spec h hhash hfuel hroom (by omega) key value
  refine ⟨m', ?_, hins⟩
  rw [map_set, if_neg hnot]
  exact hm'

/-- A turn of the rehash. -/
def rehashTurn (zeroK : K) (zeroV : V) (fuel : ℕ) (m : Map K V) (i : ℤ) (fresh : Map K V) : Run (Map K V) := do
  if (← arrayGet m.state i) = map_used_slot then
    map_set zeroK zeroV fuel fresh (← arrayGet m.keys i) (← arrayGet m.values i)
  else return fresh

omit [EquivBEq K] in
/-- An entry is moved over, and any other slot left out. -/
theorem rehashTurn_cases (zeroK : K) (zeroV : V) (h : m.Inv p) (fuel : ℕ) {i : ℕ} (hi : i < 2 ^ p) (fresh : Map K V) :
    (∃ k v, m.slots[i]? = some (.used k v) ∧ rehashTurn zeroK zeroV fuel m i fresh = map_set zeroK zeroV fuel fresh k v) ∨
    (rehashTurn zeroK zeroV fuel m i fresh = .ok fresh ∧ entries (m.slots.take (i + 1)) = entries (m.slots.take i)) := by
  have hskip : ∀ x, m.slots[i]? = some x → x.entry? = none → entries (m.slots.take (i + 1)) = entries (m.slots.take i) := by
    intro x hx hnone
    rw [entries_take_succ hx, hnone, Option.toList_none, List.append_nil]
  unfold rehashTurn
  obtain ⟨k, v, hk, hv, ⟨hst, hs⟩ | ⟨hst, hs⟩ | ⟨hst, hs⟩⟩ := h.slot hi
  · have hne : ¬ map_empty_slot = map_used_slot := by decide
    simp only [arrayGet_ok hst, bind, Except.bind, if_neg hne]
    exact .inr ⟨rfl, hskip _ hs rfl⟩
  · simp only [arrayGet_ok hst, arrayGet_ok hk, arrayGet_ok hv, bind, Except.bind, if_true]
    exact .inl ⟨k, v, hs, rfl⟩
  · have hne : ¬ map_dead_slot = map_used_slot := by decide
    simp only [arrayGet_ok hst, bind, Except.bind, if_neg hne]
    exact .inr ⟨rfl, hskip _ hs rfl⟩

/-- What a rehash has moved over after `i` slots. -/
structure Rehashed (m fresh : Map K V) (p i : ℕ) : Prop where
  inv : fresh.Inv (p + 1)
  hash : fresh.hash = m.hash
  entries : (entries fresh.slots).Perm (Probing.entries (m.slots.take i))
  dead : fresh.slots.countP Slot.isDead = 0
  top : p = 13 → Probing.entries fresh.slots = []

/-- The new table has room for what the old one held, unless it is the largest. -/
theorem Rehashed.step_room (zeroK : K) (zeroV : V) (h : m.Inv p) (hp : p ≤ 12)
    (hhash : ∀ a b, (a == b) = true → m.hash a = m.hash b) {fuel : ℕ} (hfuel : 2 ^ (p + 1) + 2 ≤ fuel) {i : ℕ}
    (hi : i < 2 ^ p) {fresh : Map K V} (hf : Rehashed m fresh p i) :
    ∃ fresh', rehashTurn zeroK zeroV fuel m i fresh = .ok fresh' ∧ Rehashed m fresh' p (i + 1) := by
  rcases rehashTurn_cases zeroK zeroV h fuel hi fresh with ⟨k, v, hs, hturn⟩ | ⟨hturn, hsame⟩
  · have habs : ∀ e ∈ Probing.entries fresh.slots, (e.1 == k) = false := fun e he =>
      h.sound.absent_take hs e (hf.entries.mem_iff.mp he)
    have hcount : fresh.slots.countP Slot.isUsed ≤ m.slots.countP Slot.isUsed := by
      rw [← length_entries, hf.entries.length_eq]
      exact length_entries_take m.slots i
    have hload := h.load
    have hsize : 2 ^ 3 ≤ 2 ^ p := Nat.pow_le_pow_right (by decide) h.small.1
    obtain ⟨fuel', rfl⟩ : ∃ fuel', fuel = fuel' + 1 := ⟨fuel - 1, by omega⟩
    obtain ⟨m', hm', hins⟩ := map_set_room zeroK zeroV hf.inv (by omega) (hf.hash ▸ hhash)
      (by rw [hf.dead]; omega) (show 2 ^ (p + 1) ≤ fuel' by omega) k v
    refine ⟨m', hturn.trans hm', hins.inv, hins.hash.trans hf.hash, ?_, Nat.le_zero.mp (hf.dead ▸ hins.dead), by omega⟩
    rw [entries_take_succ hs]
    refine hins.entries.trans ?_
    rw [insert_of_absent habs]
    exact (hf.entries.cons _).trans (List.perm_append_singleton (k, v) _).symm
  · exact ⟨fresh, hturn, hf.inv, hf.hash, hsame ▸ hf.entries, hf.dead, hf.top⟩

theorem Rehashed.step (zeroK : K) (zeroV : V) (h : m.Inv p) (hp : p ≤ 13)
    (hhash : ∀ a b, (a == b) = true → m.hash a = m.hash b) {fuel : ℕ} (hfuel : 2 ^ (p + 1) + 2 ≤ fuel) {i : ℕ}
    (hi : i < 2 ^ p) {fresh : Map K V} (hf : Rehashed m fresh p i) :
    Ends "map capacity overflow" (rehashTurn zeroK zeroV fuel m i fresh) (fun fresh => Rehashed m fresh p (i + 1)) := by
  rcases Nat.lt_or_ge p 13 with hlt | hge
  · obtain ⟨fresh', hturn, hf'⟩ := hf.step_room zeroK zeroV h (by omega) hhash hfuel hi
    rw [hturn]
    exact .returns _ hf'
  · obtain rfl : p = 13 := by omega
    rcases rehashTurn_cases zeroK zeroV h fuel hi fresh with ⟨k, v, hs, hturn⟩ | ⟨hturn, hsame⟩
    · obtain ⟨fuel', rfl⟩ : ∃ fuel', fuel = fuel' + 2 := ⟨fuel - 2, by omega⟩
      rw [hturn, map_set_top zeroK zeroV hf.inv]
      exact .panics _
    · rw [hturn]
      exact .returns _ ⟨hf.inv, hf.hash, hsame ▸ hf.entries, hf.dead, hf.top⟩

omit [EquivBEq K] in
/-- The table a rehash starts from, and the loop that fills it. -/
theorem map_grow_eq (zeroK : K) (zeroV : V) (h : m.Inv p) (hp : p ≤ 13) (fuel : ℕ) :
    ∃ fresh, Rehashed m fresh p 0 ∧
      map_grow zeroK zeroV (fuel + 1) m = forUpTo (2 ^ p : ℕ) (rehashTurn zeroK zeroV fuel m) fuel 0 fresh := by
  have hcast : (2 : ℤ) ^ p = ((2 ^ p : ℕ) : ℤ) := by
    push_cast
    rfl
  have hsize : 2 ^ p ≤ 2 ^ 13 := Nat.pow_le_pow_right (by decide) hp
  have hsucc : 2 ^ (p + 1) = 2 ^ p * 2 := pow_succ ..
  have hslots : wrap16 (wrap16 (m.mask + 1) * 2) = ((2 ^ (p + 1) : ℕ) : ℤ) := by
    rw [h.mask, hcast, wrap16_of_range (v := ((2 ^ p : ℕ) : ℤ) - 1 + 1) (by omega) (by omega),
      wrap16_of_range (by omega) (by omega)]
    omega
  have hmask : ¬ ((2 ^ (p + 1) : ℕ) : ℤ) ≤ m.mask := by
    rw [h.mask, hcast]
    omega
  have hsmall := h.small
  rw [map_grow]
  simp only [hslots, if_neg hmask, array_new_ok, bind, Except.bind, pure, Except.pure, h.state]
  obtain ⟨hinv, hempty⟩ := inv_of_empty (p := p + 1) (by omega)
    (m := { keys := List.replicate (2 ^ (p + 1)) zeroK, values := List.replicate (2 ^ (p + 1)) zeroV
            state := List.replicate (2 ^ (p + 1)) 0, hash := m.hash, len := 0, dead := 0
            mask := wrap16 (((2 ^ (p + 1) : ℕ) : ℤ) - 1) })
    (by rw [wrap16_of_range (by omega) (by omega)]; push_cast; rfl) (List.length_replicate ..)
    (List.length_replicate ..) rfl rfl rfl
  refine ⟨_, ⟨hinv, rfl, ?_, ?_, fun _ => ?_⟩, rfl⟩
  · rw [hempty, entries_replicate_empty]
    exact .refl _
  · rw [hempty, countP_replicate_empty _ _ rfl]
  · rw [hempty, entries_replicate_empty]

/-- Growing keeps the entries and drops the tombstones. -/
theorem map_grow_ends (zeroK : K) (zeroV : V) (h : m.Inv p) (hp : p ≤ 13)
    (hhash : ∀ a b, (a == b) = true → m.hash a = m.hash b) {fuel : ℕ} (hfuel : 2 ^ (p + 1) + 2 ≤ fuel) :
    Ends "map capacity overflow" (map_grow zeroK zeroV (fuel + 1) m) fun fresh =>
      Rehashed m fresh p (2 ^ p) := by
  have hsize : 2 ^ p ≤ 2 ^ 13 := Nat.pow_le_pow_right (by decide) hp
  have hsucc : 2 ^ (p + 1) = 2 ^ p * 2 := pow_succ ..
  obtain ⟨fresh, hfresh, hgrow⟩ := map_grow_eq zeroK zeroV h hp fuel
  rw [hgrow]
  exact forUpTo_ends (i := 0) (P := fun i fresh => Rehashed m fresh p i) (by omega)
    (fun i s hi hs => hs.step zeroK zeroV h hp hhash hfuel hi) (Nat.zero_le _) (by omega) hfresh

/-- Short of the largest table, growing always succeeds. -/
theorem map_grow_room (zeroK : K) (zeroV : V) (h : m.Inv p) (hp : p ≤ 12)
    (hhash : ∀ a b, (a == b) = true → m.hash a = m.hash b) {fuel : ℕ} (hfuel : 2 ^ (p + 1) + 2 ≤ fuel) :
    ∃ fresh, map_grow zeroK zeroV (fuel + 1) m = .ok fresh ∧ Rehashed m fresh p (2 ^ p) := by
  have hsize : 2 ^ p ≤ 2 ^ 12 := Nat.pow_le_pow_right (by decide) hp
  have hsucc : 2 ^ (p + 1) = 2 ^ p * 2 := pow_succ ..
  obtain ⟨fresh, hfresh, hgrow⟩ := map_grow_eq zeroK zeroV h (by omega) fuel
  rw [hgrow]
  exact forUpTo_returns _ _ (P := fun i fresh => Rehashed m fresh p i) (by omega)
    (fun i s hi hs => hs.step_room zeroK zeroV h hp hhash hfuel hi) (Nat.zero_le _) (by omega) hfresh

/-- A rehashed table has room for one entry more. -/
theorem Rehashed.insert {fresh : Map K V} (hf : Rehashed m fresh p (2 ^ p)) (h : m.Inv p)
    (hhash : ∀ a b, (a == b) = true → m.hash a = m.hash b) {fuel : ℕ} (hfuel : 2 ^ (p + 1) ≤ fuel) (key : K) (value : V) :
    ∃ m', insertInto fuel fresh key value = .ok m' ∧ m'.hash = m.hash ∧ m'.Inv (p + 1) ∧
      (Probing.entries m'.slots).Perm (Probing.insert (Probing.entries m.slots) key value) ∧ m'.slots.countP Slot.isDead = 0 := by
  have hload := h.load
  have hsucc : 2 ^ (p + 1) = 2 ^ p * 2 := pow_succ ..
  have hall := hf.entries
  rw [List.take_of_length_le (by rw [h.length_slots])] at hall
  have hcount : fresh.slots.countP Slot.isUsed ≤ m.slots.countP Slot.isUsed := by
    rw [← length_entries, hf.entries.length_eq]
    exact length_entries_take m.slots _
  have htop : p + 1 = 14 → fresh.slots.countP Slot.isUsed + fresh.slots.countP Slot.isDead = 0 := fun he => by
    rw [hf.dead, ← length_entries, hf.top (by omega)]
    rfl
  have hbig : 2 ^ 3 ≤ 2 ^ p := Nat.pow_le_pow_right (by decide) h.small.1
  obtain ⟨m', hm', hins⟩ := insertInto_spec hf.inv (hf.hash ▸ hhash) hfuel (by rw [hf.dead]; omega) htop key value
  exact ⟨m', hm', hins.hash.trans hf.hash, hins.inv, hins.entries.trans (insert_perm hall key value),
    Nat.le_zero.mp (hf.dead ▸ hins.dead)⟩

/-- `map_set` inserts, or the table cannot grow any more. -/
theorem map_set_ends (zeroK : K) (zeroV : V) (h : m.Inv p)
    (hhash : ∀ a b, (a == b) = true → m.hash a = m.hash b) {fuel : ℕ} (hfuel : 2 ^ 14 + 4 ≤ fuel) (key : K)
    (value : V) :
    Ends "map capacity overflow" (map_set zeroK zeroV fuel m key value) fun m' =>
      m'.hash = m.hash ∧ ∃ p', m'.Inv p' ∧ (entries m'.slots).Perm (insert (entries m.slots) key value) := by
  have hsize := h.size_le
  obtain ⟨fuel, rfl⟩ : ∃ fuel', fuel = fuel' + 2 := ⟨fuel - 2, by omega⟩
  rcases Nat.lt_or_ge 13 p with hp | hp
  · obtain rfl : p = 14 := by
      have := h.small
      omega
    rw [map_set_top zeroK zeroV h]
    exact .panics _
  by_cases hfull : full m = true
  · have hpow : 2 ^ (p + 1) ≤ 2 ^ 14 := Nat.pow_le_pow_right (by decide) (by omega)
    rw [map_set, if_pos hfull]
    refine (map_grow_ends zeroK zeroV h hp hhash (show 2 ^ (p + 1) + 2 ≤ fuel by omega)).bind fun fresh hf => ?_
    obtain ⟨m', hm', hh, hinv, hperm, -⟩ := hf.insert h hhash (show 2 ^ (p + 1) ≤ fuel + 1 by omega) key value
    show Ends _ (insertInto (fuel + 1) fresh key value) _
    rw [hm']
    exact .returns _ ⟨hh, p + 1, hinv, hperm⟩
  · have hroom : ¬ 2 ^ p * 3 < (m.slots.countP Slot.isUsed + m.slots.countP Slot.isDead + 1) * 4 := fun hlt =>
      hfull ((full_iff h).mpr (Or.inr hlt))
    obtain ⟨m', hm', hins⟩ := map_set_room zeroK zeroV h hp hhash (by omega) (show 2 ^ p ≤ fuel + 1 by omega) key value
    rw [hm']
    exact .returns _ ⟨hins.hash, p, hins.inv, hins.entries⟩

omit [EquivBEq K] in
theorem map_set_grown (zeroK : K) (zeroV : V) {fuel : ℕ} {fresh m' : Map K V} {key : K} {value : V} (hfull : full m = true)
    (hgrow : map_grow zeroK zeroV fuel m = .ok fresh) (hinsert : insertInto fuel fresh key value = .ok m') :
    map_set zeroK zeroV (fuel + 1) m key value = .ok m' := by
  rw [map_set, if_pos hfull, hgrow]
  exact hinsert

/-- While fewer slots are used or buried than three quarters of 8192, there is room for one
entry more. -/
theorem map_set_small (zeroK : K) (zeroV : V) (h : m.Inv p) (hp : p ≤ 13)
    (hroom : m.slots.countP Slot.isUsed + m.slots.countP Slot.isDead < 6144) (hhash : ∀ a b, (a == b) = true → m.hash a = m.hash b)
    {fuel : ℕ} (hfuel : 2 ^ 14 + 4 ≤ fuel) (key : K) (value : V) :
    ∃ m' p', map_set zeroK zeroV fuel m key value = .ok m' ∧ m'.hash = m.hash ∧ m'.Inv p' ∧ p' ≤ 13 ∧
      (entries m'.slots).Perm (insert (entries m.slots) key value) ∧ m'.slots.countP Slot.isDead ≤ m.slots.countP Slot.isDead := by
  have hsize := h.size_le
  obtain ⟨fuel, rfl⟩ : ∃ fuel', fuel = fuel' + 2 := ⟨fuel - 2, by omega⟩
  by_cases hfits : (m.slots.countP Slot.isUsed + m.slots.countP Slot.isDead + 1) * 4 ≤ 2 ^ p * 3
  · obtain ⟨m', hm', hins⟩ := map_set_room zeroK zeroV h hp hhash hfits (show 2 ^ p ≤ fuel + 1 by omega) key value
    exact ⟨m', p, hm', hins.hash, hins.inv, hp, hins.entries, hins.dead⟩
  · have hp' : p ≤ 12 := by
      by_contra hbig
      have hlargest : 2 ^ 13 ≤ 2 ^ p := Nat.pow_le_pow_right (by decide) (by omega)
      omega
    have hpow : 2 ^ (p + 1) ≤ 2 ^ 14 := Nat.pow_le_pow_right (by decide) (by omega)
    have hfull : full m = true := (full_iff h).mpr (Or.inr (by omega))
    obtain ⟨fresh, hgrow, hf⟩ := map_grow_room zeroK zeroV h hp' hhash (show 2 ^ (p + 1) + 2 ≤ fuel by omega)
    obtain ⟨m', hm', hh, hinv, hperm, hdead'⟩ := hf.insert h hhash (show 2 ^ (p + 1) ≤ fuel + 1 by omega) key value
    refine ⟨m', p + 1, ?_, hh, hinv, by omega, hperm, hdead' ▸ Nat.zero_le _⟩
    exact map_set_grown zeroK zeroV hfull hgrow hm'

end Growth

end QuinLang.Std
