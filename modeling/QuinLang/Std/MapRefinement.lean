import QuinLang.Std.Map
import QuinLang.Lib.Probing

/-! The map of `std/map.ql` is a finite map. -/

namespace QuinLang.Std

open Probing

section Ints

theorem wrap16_of_range {v : ℤ} (h : -32768 ≤ v) (h' : v < 32768) : wrap16 v = v := by
  unfold wrap16
  split <;> omega

theorem wrap16_succ {i : ℕ} (h : i < 0x7FFF) : wrap16 ((i : ℤ) + 1) = ((i + 1 : ℕ) : ℤ) := by
  rw [wrap16_of_range (by omega) (by omega)]
  push_cast
  rfl

theorem wrap16_neg_one : wrap16 (0 - 1) = -1 := by decide

/-- Masking with one less than a power of two is a remainder, negative numbers included. -/
theorem and16_mask {p : ℕ} (hp : p ≤ 14) (a : ℤ) :
    and16 a (2 ^ p - 1) = (((a % 65536).toNat % 2 ^ p : ℕ) : ℤ) := by
  have hpow : (2 : ℕ) ^ p ≤ 2 ^ 14 := Nat.pow_le_pow_right (by decide) hp
  have hpos : 0 < (2 : ℕ) ^ p := Nat.two_pow_pos p
  have hmask : (((2 : ℤ) ^ p - 1) % 65536).toNat = 2 ^ p - 1 := by
    have : (2 : ℤ) ^ p = ((2 ^ p : ℕ) : ℤ) := by push_cast; rfl
    rw [this]
    omega
  rw [and16, hmask, Nat.and_two_pow_sub_one_eq_mod]
  have := Nat.mod_lt (a % 65536).toNat hpos
  exact wrap16_of_range (by omega) (by omega)

end Ints

section Arrays

variable {α : Type} {xs : List α} {i : ℕ}

theorem arrayGet_ok {x : α} (h : xs[i]? = some x) : arrayGet xs (i : ℤ) = .ok x := by
  rw [arrayGet, if_neg (by omega), Int.toNat_natCast, h]

theorem arraySet_ok (h : i < xs.length) (x : α) : arraySet xs (i : ℤ) x = .ok (xs.set i x) := by
  rw [arraySet, if_neg (by omega), Int.toNat_natCast]

theorem array_new_ok (zero : α) (n : ℕ) : array_new zero (n : ℤ) = .ok (List.replicate n zero) := by
  rw [array_new, if_neg (by omega), Int.toNat_natCast]

end Arrays

/-- A call that returns a value with the property, or panics with the message. -/
inductive Ends {α : Type} (message : String) : Run α → (α → Prop) → Prop
  | returns {P : α → Prop} (a : α) (h : P a) : Ends message (.ok a) P
  | panics (P : α → Prop) : Ends message (.error (.panic message)) P

theorem Ends.imp {α : Type} {message : String} {r : Run α} {P Q : α → Prop} (h : Ends message r P)
    (hpq : ∀ a, P a → Q a) : Ends message r Q := by
  cases h with
  | returns a h => exact .returns a (hpq a h)
  | panics => exact .panics Q

theorem Ends.bind {α β : Type} {message : String} {r : Run α} {f : α → Run β} {P : α → Prop} {Q : β → Prop}
    (h : Ends message r P) (hf : ∀ a, P a → Ends message (f a) Q) : Ends message (r >>= f) Q := by
  cases h with
  | returns a h => exact hf a h
  | panics => exact .panics Q

/-- A counting loop, given what one turn does to the invariant. -/
theorem forUpTo_ends {σ : Type} {message : String} {n : ℕ} (hn : n < 32767) {body : ℤ → σ → Run σ} {P : ℕ → σ → Prop}
    (hbody : ∀ i s, i < n → P i s → Ends message (body i s) (P (i + 1))) {fuel i : ℕ} {s : σ} (hi : i ≤ n)
    (hfuel : n - i < fuel) (hs : P i s) : Ends message (forUpTo n body fuel i s) (P n) := by
  induction fuel generalizing i s with
  | zero => omega
  | succ fuel ih =>
    rw [forUpTo]
    split
    · rename_i hlt
      have hlt : i < n := by omega
      have hstep := hbody i s hlt hs
      generalize body i s = r at hstep ⊢
      cases hstep with
      | panics => exact .panics _
      | returns s' hstep =>
        simp only [wrap16_succ (show i < 0x7FFF by omega)]
        exact ih (by omega) (by omega) hstep
    · obtain rfl : i = n := by omega
      exact .returns s hs

section Counting

variable {σ : Type} {n : ℕ} (body : ℤ → σ → Run σ) {P : ℕ → σ → Prop}

theorem forUpTo_step {fuel i : ℕ} {s s' : σ} (hi : i < n) (hn : n ≤ 0x7FFF) (h : body i s = .ok s') :
    forUpTo n body (fuel + 1) i s = forUpTo n body fuel ((i + 1 : ℕ) : ℤ) s' := by
  rw [forUpTo, if_pos (by omega), h, wrap16_succ (by omega)]

theorem forUpTo_end {fuel : ℕ} {s : σ} : forUpTo n body (fuel + 1) n s = .ok s := by
  rw [forUpTo, if_neg (lt_irrefl _)]

/-- A counting loop none of whose turns fails. -/
theorem forUpTo_returns (fuel : ℕ) (hn : n ≤ 0x7FFF) (hbody : ∀ i s, i < n → P i s → ∃ s', body i s = .ok s' ∧ P (i + 1) s')
    {i : ℕ} {s : σ} (hi : i ≤ n) (hfuel : n - i < fuel) (hs : P i s) : ∃ s', forUpTo n body fuel i s = .ok s' ∧ P n s' := by
  induction fuel generalizing i s with
  | zero => omega
  | succ fuel ih =>
    rcases hi.lt_or_eq with hlt | rfl
    · obtain ⟨s', hbody, hs'⟩ := hbody i s hlt hs
      rw [forUpTo_step body hlt hn hbody]
      exact ih hlt (by omega) hs'
    · exact ⟨s, forUpTo_end body, hs⟩

/-- What holds of a counting loop that does return. -/
theorem forUpTo_ok (hn : n ≤ 0x7FFF) (hbody : ∀ i s s', i < n → P i s → body i s = .ok s' → P (i + 1) s')
    {fuel i : ℕ} {s r : σ} (hi : i ≤ n) (hs : P i s) (hr : forUpTo n body fuel i s = .ok r) : P n r := by
  induction fuel generalizing i s with
  | zero => cases hr
  | succ fuel ih =>
    rcases hi.lt_or_eq with hlt | rfl
    · cases h : body i s with
      | error e =>
        rw [forUpTo, if_pos (by omega), h] at hr
        cases hr
      | ok s' =>
        rw [forUpTo_step body hlt hn h] at hr
        exact ih hlt (hbody i s s' hlt hs h) hr
    · rw [forUpTo_end] at hr
      cases hr
      exact hs

end Counting

section Tables

variable {K V : Type}

/-- What a slot holds, read off the three arrays. -/
def slotOf (state : ℤ) (key : K) (value : V) : Slot K V :=
  if state = map_empty_slot then .empty else if state = map_used_slot then .used key value else .dead

def Map.slots (m : Map K V) : Table K V := (m.state.zip (m.keys.zip m.values)).map fun x => slotOf x.1 x.2.1 x.2.2

def Map.home (m : Map K V) (key : K) : ℕ := (m.hash key % 65536).toNat % m.state.length

variable [BEq K]

/-- What holds of a map with `2 ^ p` slots whenever no operation is under way. The largest
table never holds more than what one call put there. -/
structure Map.Inv (m : Map K V) (p : ℕ) : Prop where
  small : 3 ≤ p ∧ p ≤ 14
  mask : m.mask = 2 ^ p - 1
  keys : m.keys.length = 2 ^ p
  values : m.values.length = 2 ^ p
  state : m.state.length = 2 ^ p
  states : ∀ s ∈ m.state, s = map_empty_slot ∨ s = map_used_slot ∨ s = map_dead_slot
  len : m.len = m.slots.countP Slot.isUsed
  dead : m.dead = m.slots.countP Slot.isDead
  load : (m.slots.countP Slot.isUsed + m.slots.countP Slot.isDead) * 4 ≤ 2 ^ p * 3
  top : p = 14 → m.slots.countP Slot.isUsed + m.slots.countP Slot.isDead ≤ 1
  sound : Sound m.home m.slots

variable {m : Map K V} {p : ℕ}

theorem Map.Inv.length_slots (h : m.Inv p) : m.slots.length = 2 ^ p := by
  simp [Map.slots, h.keys, h.values, h.state]

theorem Map.Inv.size_le (h : m.Inv p) : 2 ^ p ≤ 2 ^ 14 := Nat.pow_le_pow_right (by decide) h.small.2

/-- The three arrays and the slot at an index. -/
theorem Map.Inv.slot (h : m.Inv p) {i : ℕ} (hi : i < 2 ^ p) : ∃ k v, m.keys[i]? = some k ∧ m.values[i]? = some v ∧
    (m.state[i]? = some map_empty_slot ∧ m.slots[i]? = some .empty ∨
      m.state[i]? = some map_used_slot ∧ m.slots[i]? = some (.used k v) ∨
      m.state[i]? = some map_dead_slot ∧ m.slots[i]? = some .dead) := by
  have hk : i < m.keys.length := h.keys ▸ hi
  have hv : i < m.values.length := h.values ▸ hi
  have hs : i < m.state.length := h.state ▸ hi
  have hslot : m.slots[i]? = some (slotOf m.state[i] m.keys[i] m.values[i]) := by
    rw [List.getElem?_eq_getElem (by rw [h.length_slots]; exact hi)]
    simp [Map.slots]
  refine ⟨m.keys[i], m.values[i], List.getElem?_eq_getElem hk, List.getElem?_eq_getElem hv, ?_⟩
  rw [hslot, List.getElem?_eq_getElem hs]
  rcases h.states _ (List.getElem_mem hs) with he | he | he <;> rw [he]
  · exact Or.inl ⟨rfl, rfl⟩
  · exact Or.inr (Or.inl ⟨rfl, rfl⟩)
  · exact Or.inr (Or.inr ⟨rfl, rfl⟩)

/-- The load leaves an empty slot. -/
theorem Map.Inv.has_empty (h : m.Inv p) : 0 < m.slots.countP Slot.isEmpty := by
  have hcount := countP_slots m.slots
  have hpos : 0 < 2 ^ p := Nat.two_pow_pos p
  have hload := h.load
  rw [h.length_slots] at hcount
  omega

theorem Map.Inv.home_eq (h : m.Inv p) (key : K) : and16 (m.hash key) m.mask = (m.home key : ℤ) := by
  rw [h.mask, and16_mask h.small.2, Map.home, h.state]

/-- A step of a walk. -/
theorem Map.Inv.next (h : m.Inv p) (start d : ℕ) :
    and16 (wrap16 (((start + d) % 2 ^ p : ℕ) + 1)) m.mask = (((start + (d + 1)) % 2 ^ p : ℕ) : ℤ) := by
  have hlt := Nat.mod_lt (start + d) (Nat.two_pow_pos p)
  have hsize := h.size_le
  rw [h.mask, wrap16_of_range (by omega) (by omega), and16_mask h.small.2]
  have hnat : ∀ x : ℕ, x < 16384 → (((x : ℤ) + 1) % 65536).toNat = x + 1 := by omega
  rw [hnat _ (by omega), Nat.mod_add_mod, Nat.add_assoc]

end Tables

section Walks

variable {K V : Type} [BEq K] {m : Map K V} {p : ℕ} {key : K}

theorem holds_used (h : m.Inv p) {i : ℕ} (hi : i < 2 ^ p) {k : K} {v : V} (hs : m.slots[i]? = some (.used k v)) :
    holds m key i = .ok (k == key) := by
  obtain ⟨k', v', hk, -, ⟨-, hs'⟩ | ⟨hst, hs'⟩ | ⟨-, hs'⟩⟩ := h.slot hi <;> rw [hs] at hs' <;> cases hs'
  simp only [holds, arrayGet_ok hst, arrayGet_ok hk]
  rfl

theorem holds_unused (h : m.Inv p) {i : ℕ} (hi : i < 2 ^ p) (hs : ∀ k v, m.slots[i]? ≠ some (.used k v)) :
    holds m key i = .ok false := by
  obtain ⟨k', v', -, -, ⟨hst, -⟩ | ⟨-, hs'⟩ | ⟨hst, -⟩⟩ := h.slot hi
  · simp only [holds, arrayGet_ok hst]
    rfl
  · exact absurd hs' (hs _ _)
  · simp only [holds, arrayGet_ok hst]
    rfl

/-- What a walk finds at the slot after the `d` it has passed. -/
inductive Met (m : Map K V) (key : K) (i : ℕ) : Prop
  | empty (hs : m.slots[i]? = some .empty) (hst : arrayGet m.state i = .ok map_empty_slot)
  | key (k : K) (v : V) (hs : m.slots[i]? = some (.used k v)) (hst : arrayGet m.state i = .ok map_used_slot)
      (hh : holds m key i = .ok true) (hk : (k == key) = true)
  | other (k : K) (v : V) (hs : m.slots[i]? = some (.used k v)) (hst : arrayGet m.state i = .ok map_used_slot)
      (hh : holds m key i = .ok false) (hk : (k == key) = false)
  | dead (hs : m.slots[i]? = some .dead) (hst : arrayGet m.state i = .ok map_dead_slot)
      (hh : holds m key i = .ok false)

theorem met (h : m.Inv p) (key : K) {i : ℕ} (hi : i < 2 ^ p) : Met m key i := by
  obtain ⟨k, v, -, -, ⟨hst, hs⟩ | ⟨hst, hs⟩ | ⟨hst, hs⟩⟩ := h.slot hi
  · exact .empty hs (arrayGet_ok hst)
  · cases hk : k == key with
    | true => exact .key k v hs (arrayGet_ok hst) (hk ▸ holds_used h hi hs) hk
    | false => exact .other k v hs (arrayGet_ok hst) (hk ▸ holds_used h hi hs) hk
  · exact .dead hs (arrayGet_ok hst) (holds_unused h hi fun k v he => by rw [hs] at he; cases he)

/-- A walk that has passed `d` slots, with an empty one at distance `D`. -/
structure Walking (m : Map K V) (key : K) (p D d : ℕ) : Prop where
  le : d ≤ D
  lt : D < 2 ^ p
  stop : m.slots[(m.home key + D) % 2 ^ p]? = some .empty
  passed : Passed m.home m.slots key d

theorem Walking.start (h : m.Inv p) (key : K) : ∃ D, Walking m key p D 0 := by
  obtain ⟨D, hD, hs⟩ := exists_empty h.has_empty (m.home key)
  rw [h.length_slots] at hD hs
  exact ⟨D, Nat.zero_le D, hD, hs, .zero _ _ _⟩

theorem Walking.succ (h : m.Inv p) {D d : ℕ} (hw : Walking m key p D d)
    (he : m.slots[(m.home key + d) % 2 ^ p]? ≠ some .empty)
    (hk : ∀ k v, m.slots[(m.home key + d) % 2 ^ p]? = some (.used k v) → (k == key) = false) :
    Walking m key p D (d + 1) := by
  have hlt : d < D := by
    refine lt_of_le_of_ne hw.le fun hd => he ?_
    rw [hd]
    exact hw.stop
  rw [← h.length_slots] at he hk
  exact ⟨hlt, hw.lt, hw.stop, hw.passed.succ he hk⟩

variable [EquivBEq K]

omit [EquivBEq K] in
theorem Walking.absent (h : m.Inv p) (hhash : ∀ a b, (a == b) = true → m.hash a = m.hash b) {D d : ℕ}
    (hw : Walking m key p D d) (he : m.slots[(m.home key + d) % 2 ^ p]? = some .empty) :
    ∀ e ∈ entries m.slots, (e.1 == key) = false := by
  rw [← h.length_slots] at he
  exact h.sound.absent (fun a b hab => by rw [Map.home, Map.home, hhash a b hab]) hw.passed he

omit [EquivBEq K] in
/-- The search for a key ends at its slot, or at -1 when the map has no such key. -/
theorem slotFrom_spec (h : m.Inv p) (hhash : ∀ a b, (a == b) = true → m.hash a = m.hash b) {D d fuel : ℕ}
    (hw : Walking m key p D d) (hfuel : D - d < fuel) :
    (∃ (i : ℕ) (k : K) (v : V), slotFrom m key fuel ((m.home key + d) % 2 ^ p : ℕ) = .ok (i : ℤ) ∧ i < 2 ^ p ∧
      m.slots[i]? = some (.used k v) ∧ (k == key) = true) ∨
    slotFrom m key fuel ((m.home key + d) % 2 ^ p : ℕ) = .ok (-1) ∧
      ∀ e ∈ entries m.slots, (e.1 == key) = false := by
  induction fuel generalizing d with
  | zero => omega
  | succ fuel ih =>
    have hi := Nat.mod_lt (m.home key + d) (Nat.two_pow_pos p)
    have hstep : slotFrom m key (fuel + 1) ((m.home key + d) % 2 ^ p : ℕ) =
        (do
          if (← arrayGet m.state ((m.home key + d) % 2 ^ p : ℕ)) ≠ map_empty_slot then
            if ← holds m key ((m.home key + d) % 2 ^ p : ℕ) then return (((m.home key + d) % 2 ^ p : ℕ) : ℤ)
            else slotFrom m key fuel ((m.home key + (d + 1)) % 2 ^ p : ℕ)
          else return wrap16 (0 - 1)) := by
      rw [slotFrom, h.next]
    rw [hstep]
    have hlt : m.slots[(m.home key + d) % 2 ^ p]? ≠ some .empty → d < D := fun he =>
      lt_of_le_of_ne hw.le fun hd => he (hd ▸ hw.stop)
    rcases met h key hi with ⟨hs, hst⟩ | ⟨k, v, hs, hst, hh, hk⟩ | ⟨k, v, hs, hst, hh, hk⟩ | ⟨hs, hst, hh⟩
    · right
      simp only [hst]
      exact ⟨rfl, hw.absent h hhash hs⟩
    · left
      refine ⟨_, k, v, ?_, hi, hs, hk⟩
      simp only [hst, hh]
      rfl
    · have hne : m.slots[(m.home key + d) % 2 ^ p]? ≠ some .empty := by rw [hs]; simp
      simp only [hst, hh]
      have hlt := hlt hne
      refine ih (hw.succ h hne fun k' v' he => ?_) (by omega)
      rw [hs] at he
      cases he
      exact hk
    · have hne : m.slots[(m.home key + d) % 2 ^ p]? ≠ some .empty := by rw [hs]; simp
      simp only [hst, hh]
      have hlt := hlt hne
      refine ih (hw.succ h hne fun k' v' he => ?_) (by omega)
      rw [hs] at he
      cases he

omit [EquivBEq K] in
theorem map_slot_of_spec (h : m.Inv p) (hhash : ∀ a b, (a == b) = true → m.hash a = m.hash b) (key : K) {fuel : ℕ}
    (hfuel : 2 ^ p ≤ fuel) :
    (∃ (i : ℕ) (k : K) (v : V), map_slot_of fuel m key = .ok (i : ℤ) ∧ i < 2 ^ p ∧
      m.slots[i]? = some (.used k v) ∧ (k == key) = true) ∨
    map_slot_of fuel m key = .ok (-1) ∧ ∀ e ∈ entries m.slots, (e.1 == key) = false := by
  obtain ⟨D, hw⟩ := Walking.start h key
  have hlt := hw.lt
  have hhome : m.home key % 2 ^ p = m.home key := by
    rw [Map.home, h.state, Nat.mod_mod]
  have := slotFrom_spec h hhash hw (show D - 0 < fuel by omega)
  rwa [Nat.add_zero, hhome, ← h.home_eq] at this

/-- The tombstone `map_set` remembers of the `d` slots it has passed. -/
def Reuse (m : Map K V) (key : K) (p d : ℕ) (reuse : ℤ) : Prop :=
  reuse = -1 ∨ ∃ e < d, reuse = (((m.home key + e) % 2 ^ p : ℕ) : ℤ) ∧
    m.slots[(m.home key + e) % 2 ^ p]? = some .dead

omit [BEq K] [EquivBEq K] in
theorem Reuse.succ {d : ℕ} {reuse : ℤ} (h : Reuse m key p d reuse) : Reuse m key p (d + 1) reuse := by
  rcases h with h | ⟨e, he, h⟩
  · exact Or.inl h
  · exact Or.inr ⟨e, by omega, h⟩

omit [EquivBEq K] in
/-- The search of `map_set` ends at the key, or at an empty slot. -/
theorem setFrom_spec (h : m.Inv p) {D d fuel : ℕ} (hw : Walking m key p D d) (hfuel : D - d < fuel) {reuse : ℤ}
    (hr : Reuse m key p d reuse) :
    (∃ (i : ℕ) (k : K) (v : V) (r : ℤ), setFrom m key fuel ((m.home key + d) % 2 ^ p : ℕ) reuse = .ok (true, (i : ℤ), r) ∧
      i < 2 ^ p ∧ m.slots[i]? = some (.used k v) ∧ (k == key) = true) ∨
    ∃ (d' : ℕ) (r : ℤ), setFrom m key fuel ((m.home key + d) % 2 ^ p : ℕ) reuse =
        .ok (false, (((m.home key + d') % 2 ^ p : ℕ) : ℤ), r) ∧
      Walking m key p D d' ∧ m.slots[(m.home key + d') % 2 ^ p]? = some .empty ∧ Reuse m key p d' r := by
  induction fuel generalizing d reuse with
  | zero => omega
  | succ fuel ih =>
    have hi := Nat.mod_lt (m.home key + d) (Nat.two_pow_pos p)
    have hlt : m.slots[(m.home key + d) % 2 ^ p]? ≠ some .empty → d < D := fun he =>
      lt_of_le_of_ne hw.le fun hd => he (hd ▸ hw.stop)
    have hused : map_used_slot ≠ map_dead_slot := by decide
    rw [setFrom, h.next]
    rcases met h key hi with ⟨hs, hst⟩ | ⟨k, v, hs, hst, hh, hk⟩ | ⟨k, v, hs, hst, hh, hk⟩ | ⟨hs, hst, hh⟩
    · right
      refine ⟨d, reuse, ?_, hw, hs, hr⟩
      simp only [hst]
      rfl
    · left
      refine ⟨_, k, v, reuse, ?_, hi, hs, hk⟩
      simp only [hst, hh]
      rfl
    · have hne : m.slots[(m.home key + d) % 2 ^ p]? ≠ some .empty := by rw [hs]; simp
      have hlt := hlt hne
      simp only [hst, hh]
      refine ih (hw.succ h hne fun k' v' he => ?_) (by omega) ?_
      · rw [hs] at he
        cases he
        exact hk
      · rw [if_neg fun hc => hused hc.1]
        exact hr.succ
    · have hne : m.slots[(m.home key + d) % 2 ^ p]? ≠ some .empty := by rw [hs]; simp
      have hlt := hlt hne
      simp only [hst, hh]
      refine ih (hw.succ h hne fun k' v' he => ?_) (by omega) ?_
      · rw [hs] at he
        cases he
      · split
        · exact Or.inr ⟨d, by omega, rfl, hs⟩
        · exact hr.succ

end Walks

section Updates

variable {K V : Type} [BEq K] {m : Map K V} {p : ℕ}

omit [BEq K] in
/-- Writing one slot of the three arrays. -/
theorem slots_set {i : ℕ} (key : K) (value : V) (s : ℤ) {m' : Map K V}
    (hk : m'.keys = m.keys.set i key) (hv : m'.values = m.values.set i value) (hs : m'.state = m.state.set i s) :
    m'.slots = m.slots.set i (slotOf s key value) := by
  have hlen : m'.slots.length = m.slots.length := by
    simp [Map.slots, hk, hv, hs]
  refine List.ext_getElem (by simpa using hlen) fun j hj _ => ?_
  simp only [Map.slots, List.getElem_map, List.getElem_zip, List.getElem_set, hk, hv, hs]
  split <;> rfl

/-- A map that differs in its slots, its counts and nothing else. -/
theorem Map.Inv.update (h : m.Inv p) {m' : Map K V} (hhash : m'.hash = m.hash) (hmask : m'.mask = m.mask)
    (hk : m'.keys.length = m.keys.length) (hv : m'.values.length = m.values.length)
    (hs : m'.state.length = m.state.length)
    (hst : ∀ s ∈ m'.state, s = map_empty_slot ∨ s = map_used_slot ∨ s = map_dead_slot)
    (hlen : m'.len = m'.slots.countP Slot.isUsed) (hdead : m'.dead = m'.slots.countP Slot.isDead)
    (hload : (m'.slots.countP Slot.isUsed + m'.slots.countP Slot.isDead) * 4 ≤ 2 ^ p * 3)
    (htop : p = 14 → m'.slots.countP Slot.isUsed + m'.slots.countP Slot.isDead ≤ 1)
    (hsound : Sound m.home m'.slots) : m'.Inv p := by
  refine ⟨h.small, hmask.trans h.mask, hk.trans h.keys, hv.trans h.values, hs.trans h.state, hst, hlen, hdead,
    hload, htop, ?_⟩
  have : m'.home = m.home := funext fun key => by rw [Map.home, Map.home, hhash, hs]
  rw [this]
  exact hsound

theorem states_set (h : m.Inv p) {i : ℕ} {s : ℤ} (hs : s = map_empty_slot ∨ s = map_used_slot ∨ s = map_dead_slot) :
    ∀ s' ∈ m.state.set i s, s' = map_empty_slot ∨ s' = map_used_slot ∨ s' = map_dead_slot := by
  intro s' hm
  rcases List.mem_or_eq_of_mem_set hm with hm | rfl
  · exact h.states s' hm
  · exact hs

/-- Writing the value of a used slot. -/
theorem insertInto_found (h : m.Inv p) {i : ℕ} {k : K} {v : V} (hi : i < 2 ^ p) (hs : m.slots[i]? = some (.used k v))
    (w : V) : ({ m with values := m.values.set i w } : Map K V).slots = m.slots.set i (.used k w) := by
  obtain ⟨k', v', hk, -, ⟨-, hs'⟩ | ⟨hst, hs'⟩ | ⟨-, hs'⟩⟩ := h.slot hi <;> rw [hs] at hs' <;> cases hs'
  refine slots_set k w map_used_slot ?_ rfl ?_
  · obtain ⟨hi', rfl⟩ := List.getElem?_eq_some_iff.mp hk
    exact (List.set_getElem_self hi').symm
  · obtain ⟨hi', he⟩ := List.getElem?_eq_some_iff.mp hst
    rw [← he]
    exact (List.set_getElem_self hi').symm

variable [EquivBEq K] {key : K} {value : V}

/-- What an insertion leaves. -/
structure Inserted (m m' : Map K V) (p : ℕ) (key : K) (value : V) : Prop where
  inv : m'.Inv p
  hash : m'.hash = m.hash
  entries : (entries m'.slots).Perm (insert (Probing.entries m.slots) key value)
  dead : m'.slots.countP Slot.isDead ≤ m.slots.countP Slot.isDead

theorem inserted_overwrite (h : m.Inv p) {i : ℕ} {k : K} {v : V} (hi : i < 2 ^ p)
    (hs : m.slots[i]? = some (.used k v)) (hk : (k == key) = true) {m' : Map K V}
    (hm' : m' = { m with values := m.values.set i value }) : Inserted m m' p key value := by
  have hslots : m'.slots = m.slots.set i (.used k value) := hm' ▸ insertInto_found h hi hs value
  have hused := countP_set (y := .used k value) hs Slot.isUsed
  have hdead := countP_set (y := .used k value) hs Slot.isDead
  simp only [Slot.isUsed, Slot.isDead, if_true, Bool.false_eq_true, if_false, ← hslots] at hused hdead
  have hload := h.load
  have htop := h.top
  have hcount : m'.len = m.len ∧ m'.dead = m.dead ∧ m'.hash = m.hash ∧ m'.mask = m.mask ∧
      m'.keys = m.keys ∧ m'.values.length = m.values.length ∧ m'.state = m.state := by
    rw [hm']
    exact ⟨rfl, rfl, rfl, rfl, rfl, List.length_set .., rfl⟩
  obtain ⟨hl, hd, hh, hm, hks, hvs, hst⟩ := hcount
  refine ⟨h.update hh hm (by rw [hks]) hvs (by rw [hst]) (by rw [hst]; exact h.states) ?_ ?_ (by omega) (by omega) ?_,
    hh, ?_, by omega⟩
  · rw [hl, h.len]
    omega
  · rw [hd, h.dead]
    omega
  · rw [hslots]
    exact h.sound.set_kept hs (by simp) fun k' v' he => by cases he; rfl
  · rw [hslots]
    exact h.sound.entries_overwrite hs hk value

/-- A new entry in an empty slot or over a tombstone, at the end of the key's walk. -/
theorem inserted_new (h : m.Inv p) {d : ℕ} {x : Slot K V} (hd : d < 2 ^ p)
    (hx : m.slots[(m.home key + d) % 2 ^ p]? = some x) (hfree : x.isUsed = false)
    (hne : ∀ e < d, m.slots[(m.home key + e) % 2 ^ p]? ≠ some .empty)
    (habs : ∀ e ∈ entries m.slots, (e.1 == key) = false)
    (hroom : (m.slots.countP Slot.isUsed + m.slots.countP Slot.isDead + 1) * 4 ≤ 2 ^ p * 3)
    (htop : p = 14 → m.slots.countP Slot.isUsed + m.slots.countP Slot.isDead = 0) {m' : Map K V}
    (hm' : m' = { m with
      dead := if x.isDead then wrap16 (m.dead - 1) else m.dead
      keys := m.keys.set ((m.home key + d) % 2 ^ p) key
      values := m.values.set ((m.home key + d) % 2 ^ p) value
      state := m.state.set ((m.home key + d) % 2 ^ p) map_used_slot
      len := wrap16 (m.len + 1) }) : Inserted m m' p key value := by
  have hi := Nat.mod_lt (m.home key + d) (Nat.two_pow_pos p)
  have hslots : m'.slots = m.slots.set ((m.home key + d) % 2 ^ p) (.used key value) :=
    slots_set key value map_used_slot (by rw [hm']) (by rw [hm']) (by rw [hm'])
  have hused := countP_set (y := .used key value) hx Slot.isUsed
  have hdead := countP_set (y := .used key value) hx Slot.isDead
  have hnew : (Slot.used key value).isUsed = true ∧ (Slot.used key value).isDead = false := ⟨rfl, rfl⟩
  rw [← hslots, hfree, hnew.1, if_neg Bool.false_ne_true, if_pos rfl] at hused
  rw [← hslots, hnew.2, if_neg Bool.false_ne_true] at hdead
  have hsize := h.size_le
  have hdeads : x.isDead = true → 0 < m.slots.countP Slot.isDead := fun hxd =>
    List.countP_pos_iff.mpr ⟨x, List.mem_of_getElem? hx, hxd⟩
  have hperm := entries_set (y := .used key value) hx
  have hnone : x.entry? = none := by
    cases x with
    | used k v => cases hfree
    | _ => rfl
  rw [← hslots, hnone] at hperm
  have hinv : m'.Inv p := by
    refine h.update (by rw [hm']) (by rw [hm']) (by simp [hm']) (by simp [hm']) (by simp [hm']) ?_ ?_ ?_ ?_ ?_ ?_
    · rw [hm']
      exact states_set h (Or.inr (Or.inl rfl))
    · have : m'.len = wrap16 (m.len + 1) := by rw [hm']
      rw [this, h.len, wrap16_of_range (by omega) (by omega)]
      omega
    · have : m'.dead = if x.isDead then wrap16 (m.dead - 1) else m.dead := by rw [hm']
      rw [this, h.dead]
      split
      · rename_i hxd
        have := hdeads hxd
        rw [if_pos hxd] at hdead
        rw [wrap16_of_range (by omega) (by omega)]
        omega
      · rename_i hxd
        rw [if_neg hxd] at hdead
        omega
    · split at hdead <;> omega
    · intro hp
      have := htop hp
      split at hdead <;> omega
    · rw [hslots]
      refine h.sound.set_used (d := d) ?_ (by rw [h.length_slots]; exact hd) (by rw [h.length_slots]) ?_ habs value
      · intro k' v' he
        rw [hx] at he
        cases he
        cases hfree
      · rw [h.length_slots]
        exact hne
  refine ⟨hinv, by rw [hm'], ?_, by split at hdead <;> omega⟩
  rw [insert_of_absent habs]
  exact hperm

/-- `map_set` with room for one more entry. -/
theorem insertInto_spec (h : m.Inv p) (hhash : ∀ a b, (a == b) = true → m.hash a = m.hash b) {fuel : ℕ}
    (hfuel : 2 ^ p ≤ fuel)
    (hroom : (m.slots.countP Slot.isUsed + m.slots.countP Slot.isDead + 1) * 4 ≤ 2 ^ p * 3)
    (htop : p = 14 → m.slots.countP Slot.isUsed + m.slots.countP Slot.isDead = 0) (key : K) (value : V) :
    ∃ m', insertInto fuel m key value = .ok m' ∧ Inserted m m' p key value := by
  obtain ⟨D, hw⟩ := Walking.start h key
  have hlt := hw.lt
  have hhome : (m.home key + 0) % 2 ^ p = m.home key := by
    rw [Nat.add_zero, Map.home, h.state, Nat.mod_mod]
  have hset := setFrom_spec h hw (show D - 0 < fuel by omega) (show Reuse m key p 0 (-1) from Or.inl rfl)
  rw [hhome, ← h.home_eq] at hset
  unfold insertInto
  rw [wrap16_neg_one]
  rcases hset with ⟨i, k, v, r, hr, hi, hs, hk⟩ | ⟨d, r, hr, hw', hs, hreuse⟩
  · refine ⟨_, ?_, inserted_overwrite h hi hs hk rfl⟩
    have hv : i < m.values.length := by rw [h.values]; exact hi
    simp only [hr, bind, Except.bind, if_true, arraySet_ok hv, pure, Except.pure]
  · have habs := hw'.absent h hhash hs
    have hle := hw'.le
    have hpassed : ∀ e < d, m.slots[(m.home key + e) % 2 ^ p]? ≠ some .empty := by
      have := hw'.passed
      rw [Passed, h.length_slots] at this
      exact fun e he => (this e he).1
    have hok : ∀ i : ℕ, i < 2 ^ p → arraySet m.keys i key = .ok (m.keys.set i key) ∧
        arraySet m.values i value = .ok (m.values.set i value) ∧
        arraySet m.state i map_used_slot = .ok (m.state.set i map_used_slot) := fun i hi =>
      ⟨arraySet_ok (by rw [h.keys]; exact hi) _, arraySet_ok (by rw [h.values]; exact hi) _,
        arraySet_ok (by rw [h.state]; exact hi) _⟩
    rcases hreuse with rfl | ⟨e, he, rfl, hdead⟩
    · obtain ⟨h₁, h₂, h₃⟩ := hok _ (Nat.mod_lt (m.home key + d) (Nat.two_pow_pos p))
      refine ⟨_, ?_, inserted_new h (by omega) hs rfl hpassed habs hroom htop rfl⟩
      have hneg : ¬ (-1 : ℤ) ≥ 0 := by decide
      simp only [hr, bind, Except.bind, Bool.false_eq_true, if_neg hneg, if_false, h₁, h₂, h₃, pure, Except.pure,
        Slot.isDead]
    · obtain ⟨h₁, h₂, h₃⟩ := hok _ (Nat.mod_lt (m.home key + e) (Nat.two_pow_pos p))
      refine ⟨_, ?_, inserted_new h (by omega) hdead rfl (fun e' he' => hpassed e' (by omega)) habs hroom htop rfl⟩
      have hpos : (((m.home key + e) % 2 ^ p : ℕ) : ℤ) ≥ 0 := by omega
      simp only [hr, bind, Except.bind, Bool.false_eq_true, if_pos hpos, if_false, h₁, h₂, h₃, pure, Except.pure,
        Slot.isDead, if_true]

end Updates

end QuinLang.Std
