import QuinLang.Lib.Loops
import QuinLang.Std.MapRuns

/-! `std/set.ql`: a set is a map to booleans. -/

namespace QuinLang.Std

open Probing Loops

section Source

variable {K : Type} [BEq K] (zeroK : K) (fuel : ℕ)

structure Set (K : Type) where
  entries : Map K Bool

def set_new (capacity : ℤ) (hash : K → ℤ) : Run (Set K) := do return ⟨← map_new zeroK false fuel capacity hash⟩

def set_has (s : Set K) (item : K) : Run Bool := map_has fuel s.entries item

/-- Whether the item was new. -/
def set_add (s : Set K) (item : K) : Run (Bool × Set K) := do
  if ← map_has fuel s.entries item then return (false, s)
  else return (true, ⟨← map_set zeroK false fuel s.entries item true⟩)

def set_remove (s : Set K) (item : K) : Run (Bool × Set K) := do
  let (there, m) ← map_remove fuel s.entries item
  return (there, ⟨m⟩)

def set_len (s : Set K) : ℤ := s.entries.len

def set_clear (s : Set K) : Run (Set K) := do return ⟨← map_clear fuel s.entries⟩

def set_items (s : Set K) : Run (List K) := map_keys zeroK fuel s.entries

/-- A turn of a loop that adds to `out` those of the items that are wanted. -/
def addTurn (items : List K) (wanted : K → Run Bool) (i : ℤ) (out : Set K) : Run (Set K) := do
  if ← wanted (← arrayGet items i) then return (← set_add zeroK fuel out (← arrayGet items i)).2
  else return out

def addAll (items : List K) (wanted : K → Run Bool) (out : Set K) : Run (Set K) :=
  forUpTo items.length (addTurn zeroK fuel items wanted) fuel 0 out

def set_union (a b : Set K) : Run (Set K) := do
  let out ← set_new zeroK fuel (wrap16 (wrap16 (set_len a + set_len b) + 1)) a.entries.hash
  let out ← addAll zeroK fuel (← set_items zeroK fuel a) (fun _ => return true) out
  addAll zeroK fuel (← set_items zeroK fuel b) (fun _ => return true) out

def set_intersection (a b : Set K) : Run (Set K) := do
  let out ← set_new zeroK fuel (wrap16 (set_len a + 1)) a.entries.hash
  addAll zeroK fuel (← set_items zeroK fuel a) (fun item => set_has fuel b item) out

/-- Everything in `a` that is not in `b`. -/
def set_difference (a b : Set K) : Run (Set K) := do
  let out ← set_new zeroK fuel (wrap16 (set_len a + 1)) a.entries.hash
  addAll zeroK fuel (← set_items zeroK fuel a) (fun item => return !(← set_has fuel b item)) out

/-- The loop of `set_is_subset` from an index on. -/
def subsetFrom (left : List K) (b : Set K) : ℕ → ℤ → Run Bool
  | 0, _ => .error .outOfFuel
  | turns + 1, i => do
    if i < left.length then
      if !(← set_has fuel b (← arrayGet left i)) then return false else subsetFrom left b turns (wrap16 (i + 1))
    else return true

def set_is_subset (a b : Set K) : Run Bool := do subsetFrom fuel (← set_items zeroK fuel a) b fuel 0

end Source

section Meaning

variable {K : Type} [BEq K] {zeroK : K} {fuel : ℕ} {s : Set K} {X : K → Prop}

/-- What a set keeps, and its members. -/
structure Set.Means (s : Set K) (X : K → Prop) : Prop where
  pure : ∀ a b, (a == b) = true → s.entries.hash a = s.entries.hash b
  inv : ∃ p, s.entries.Inv p
  means : ∀ k, (lookup (Probing.entries s.entries.slots) k).isSome = true ↔ X k

theorem isSome_lookup {V : Type} (es : List (K × V)) (k : K) :
    (lookup es k).isSome = true ↔ ∃ k' ∈ es.map Prod.fst, (k' == k) = true := by
  rw [lookup, Option.isSome_map, List.find?_isSome]
  simp

theorem Set.Means.congr (h : s.Means X) {Y : K → Prop} (hiff : ∀ k, X k ↔ Y k) : s.Means Y :=
  ⟨h.pure, h.inv, fun k => (h.means k).trans (hiff k)⟩

/-- What a set answers when it is asked for its members. -/
structure Members (zeroK : K) (fuel : ℕ) (s : Set K) (X : K → Prop) : Prop where
  has : ∀ k, ∃ b, set_has fuel s k = .ok b ∧ (b = true ↔ X k)
  items : ∃ items, set_items zeroK fuel s = .ok items ∧ items.Pairwise (fun a b => (a == b) = false) ∧
    (∀ k, X k ↔ ∃ item ∈ items, (item == k) = true) ∧ set_len s = items.length

theorem Set.Means.items (zeroK : K) (h : s.Means X) (hfuel : 2 ^ 14 < fuel) : ∃ items, set_items zeroK fuel s = .ok items ∧
    items.Pairwise (fun a b => (a == b) = false) ∧ (∀ k, X k ↔ ∃ item ∈ items, (item == k) = true) ∧
    set_len s = items.length ∧ items.length ≤ 6144 := by
  obtain ⟨p, hinv⟩ := h.inv
  have hload := hinv.load
  have htop := hinv.top
  have hsmall := hinv.small
  refine ⟨_, map_keys_spec zeroK hinv hfuel, List.pairwise_map.mpr hinv.sound.distinct_entries,
    fun k => (h.means k).symm.trans (isSome_lookup _ k), ?_, ?_⟩
  · rw [set_len, hinv.len, List.length_map, length_entries]
  · rw [List.length_map, length_entries]
    rcases Nat.lt_or_ge p 14 with hp | hp
    · have hsize : 2 ^ p ≤ 2 ^ 13 := Nat.pow_le_pow_right (by decide) (by omega)
      omega
    · have := htop (by omega)
      omega

variable [EquivBEq K]

theorem Set.Means.respects (h : s.Means X) {a b : K} (heq : (a == b) = true) : X a ↔ X b := by
  rw [← h.means a, ← h.means b, isSome_lookup, isSome_lookup]
  refine exists_congr fun k' => and_congr_right fun _ => ?_
  rw [BEq.congr_right heq]

theorem Set.Means.has (h : s.Means X) (hfuel : 2 ^ 14 ≤ fuel) (k : K) : ∃ b, set_has fuel s k = .ok b ∧ (b = true ↔ X k) := by
  obtain ⟨p, hinv⟩ := h.inv
  have hsize := hinv.size_le
  exact ⟨_, map_has_spec hinv h.pure (show 2 ^ p ≤ fuel by omega) k, h.means k⟩

theorem Set.Means.members (h : s.Means X) (hfuel : 2 ^ 14 < fuel) : Members zeroK fuel s X := by
  obtain ⟨items, hitems, hdistinct, hcover, hlen, -⟩ := h.items zeroK hfuel
  exact ⟨h.has hfuel.le, items, hitems, hdistinct, hcover, hlen⟩

end Meaning

section Operations

variable {K : Type} [BEq K] [EquivBEq K] {zeroK : K} {fuel : ℕ} {s : Set K} {X : K → Prop}

omit [EquivBEq K] in
theorem set_new_means {capacity : ℤ} {hash : K → ℤ} (hpure : ∀ a b, (a == b) = true → hash a = hash b) (hfuel : 12 ≤ fuel)
    (hnew : set_new zeroK fuel capacity hash = .ok s) : s.Means fun _ => False := by
  have hends := map_new_ends zeroK false hfuel capacity hash
  unfold set_new at hnew
  generalize map_new zeroK false fuel capacity hash = r at hnew hends
  cases hends with
  | panics => cases hnew
  | returns m h =>
    obtain ⟨hhash, p, hinv, hempty⟩ := h
    cases hnew
    refine ⟨?_, ⟨p, hinv⟩, fun k => ?_⟩
    · rw [hhash]
      exact hpure
    · rw [hempty]
      simp [lookup]

/-- A set means what an equal list of entries does. -/
theorem Set.Means.of_perm {es : List (K × Bool)} (hpure : ∀ a b, (a == b) = true → s.entries.hash a = s.entries.hash b)
    {p : ℕ} (hinv : s.entries.Inv p) (hperm : (Probing.entries s.entries.slots).Perm es)
    (hes : ∀ k, (lookup es k).isSome = true ↔ X k) : s.Means X :=
  ⟨hpure, ⟨p, hinv⟩, fun k => by rw [hinv.sound.distinct_entries.lookup_perm hperm, hes]⟩

theorem isSome_insert {V : Type} (es : List (K × V)) (k k' : K) (v : V) :
    (lookup (insert es k v) k').isSome = true ↔ (k == k') = true ∨ (lookup es k').isSome = true := by
  rw [lookup_insert]
  split <;> simp_all

theorem isSome_erase {V : Type} (es : List (K × V)) (k k' : K) :
    (lookup (erase es k) k').isSome = true ↔ (lookup es k').isSome = true ∧ ¬ (k == k') = true := by
  rw [lookup_erase]
  split <;> simp_all

/-- Adding an item, unless the table cannot grow any more. -/
theorem set_add_ends (zeroK : K) (h : s.Means X) (hfuel : 2 ^ 14 + 4 ≤ fuel) (item : K) :
    Ends "map capacity overflow" (set_add zeroK fuel s item) fun r =>
      r.2.Means fun k => (item == k) = true ∨ X k := by
  obtain ⟨b, hb, hiff⟩ := h.has (show 2 ^ 14 ≤ fuel by omega) item
  rw [set_has] at hb
  unfold set_add
  rw [hb]
  cases b with
  | true =>
    refine .returns _ (h.congr fun k => (or_iff_right_of_imp fun heq => ?_).symm)
    exact (h.respects heq).mp (hiff.mp rfl)
  | false =>
    obtain ⟨p, hinv⟩ := h.inv
    refine (map_set_ends zeroK false hinv h.pure hfuel item true).bind fun m ⟨hhash, p', hinv', hperm⟩ => .returns _ ?_
    refine Set.Means.of_perm (by rw [hhash]; exact h.pure) hinv' hperm fun k => ?_
    rw [isSome_insert, h.means]

theorem set_remove_means (h : s.Means X) (hfuel : 2 ^ 14 ≤ fuel) (item : K) {there : Bool} {s' : Set K}
    (hremove : set_remove fuel s item = .ok (there, s')) : s'.Means fun k => X k ∧ ¬ (item == k) = true := by
  obtain ⟨p, hinv⟩ := h.inv
  have hsize := hinv.size_le
  obtain ⟨m, hm, hhash, hinv', hperm, -⟩ := map_remove_spec hinv h.pure (show 2 ^ p ≤ fuel by omega) item
  rw [set_remove, hm] at hremove
  cases hremove
  refine Set.Means.of_perm (by rw [hhash]; exact h.pure) hinv' hperm fun k => ?_
  rw [isSome_erase, h.means]

omit [EquivBEq K] in
theorem set_clear_means (h : s.Means X) (hfuel : 2 ^ 14 < fuel) {s' : Set K} (hclear : set_clear fuel s = .ok s') :
    s'.Means fun _ => False := by
  obtain ⟨p, hinv⟩ := h.inv
  obtain ⟨m, hm, hhash, hinv', hempty⟩ := map_clear_spec hinv hfuel
  rw [set_clear, hm] at hclear
  cases hclear
  refine ⟨by rw [hhash]; exact h.pure, ⟨p, hinv'⟩, fun k => ?_⟩
  rw [hempty, entries_replicate_empty]
  simp [lookup]

end Operations

section Room

variable {K : Type} [BEq K] {zeroK : K} {fuel : ℕ} {s : Set K} {X : K → Prop}

/-- A set whose table is not the largest, without tombstones, and with so many members at most. -/
def Roomy (s : Set K) (n : ℕ) : Prop :=
  ∃ p, s.entries.Inv p ∧ p ≤ 13 ∧ s.entries.slots.countP Slot.isDead = 0 ∧ s.entries.slots.countP Slot.isUsed ≤ n

theorem set_new_small (zeroK : K) {capacity : ℤ} (hcap : capacity ≤ 8192) (hash : K → ℤ) (hfuel : 12 ≤ fuel) :
    ∃ s, set_new zeroK fuel capacity hash = .ok s ∧ Roomy s 0 := by
  obtain ⟨m, p, hm, -, hinv, hp, -, hslots⟩ := map_new_small zeroK false hfuel (show 3 ≤ 13 ∧ 13 ≤ 14 by decide) hcap hash
  refine ⟨⟨m⟩, by rw [set_new, hm]; rfl, p, hinv, hp, ?_, ?_⟩
  · rw [hslots, countP_replicate_empty _ _ rfl]
  · rw [hslots, countP_replicate_empty _ _ rfl]

variable [EquivBEq K]

/-- With room, adding returns. -/
theorem set_add_small (zeroK : K) (h : s.Means X) {n : ℕ} (hroom : Roomy s n) (hn : n < 6144) (hfuel : 2 ^ 14 + 4 ≤ fuel) (item : K) :
    ∃ r, set_add zeroK fuel s item = .ok r ∧ Roomy r.2 (n + 1) := by
  obtain ⟨p, hinv, hp, hdead, hused⟩ := hroom
  obtain ⟨b, hb, -⟩ := h.has (show 2 ^ 14 ≤ fuel by omega) item
  rw [set_has] at hb
  unfold set_add
  rw [hb, ok_bind]
  cases b with
  | true => exact ⟨_, rfl, p, hinv, hp, hdead, le_trans hused (Nat.le_succ n)⟩
  | false =>
    obtain ⟨m, p', hm, -, hinv', hp', hperm, hdead'⟩ := map_set_small zeroK false hinv hp (by omega) h.pure hfuel item true
    refine ⟨(true, ⟨m⟩), by rw [if_neg Bool.false_ne_true, hm]; rfl, p', hinv', hp', Nat.le_zero.mp (hdead ▸ hdead'), ?_⟩
    have hlen := hperm.length_eq.trans_le (length_insert_le _ item true)
    rw [length_entries, length_entries] at hlen
    exact le_trans hlen (Nat.succ_le_succ hused)

end Room

section Filling

variable {K : Type} [BEq K] [EquivBEq K] {zeroK : K} {fuel : ℕ} {out : Set K} {items : List K} {wanted : K → Run Bool} {W Z : K → Prop}

theorem Ends.of_ok {α : Type} {message : String} {P : α → Prop} {a : α} (h : Ends message (.ok a) P) : P a := by
  cases h with
  | returns a h => exact h

/-- The members after those of the first items that are wanted. -/
def upTo (Z W : K → Prop) (items : List K) (i : ℕ) (k : K) : Prop := Z k ∨ ∃ item ∈ items.take i, W item ∧ (item == k) = true

omit [EquivBEq K] in
theorem upTo_succ {i : ℕ} (hi : i < items.length) (k : K) :
    upTo Z W items (i + 1) k ↔ upTo Z W items i k ∨ W items[i] ∧ (items[i] == k) = true := by
  unfold upTo
  rw [List.take_add_one, List.getElem?_eq_getElem hi]
  simp only [Option.toList_some, List.mem_append, List.mem_singleton, or_and_right, exists_or, exists_eq_left, or_assoc]

theorem addTurn_ends (zeroK : K) (hfuel : 2 ^ 14 + 4 ≤ fuel) (hwanted : ∀ item, ∃ b, wanted item = .ok b ∧ (b = true ↔ W item))
    {i : ℕ} (hi : i < items.length) (h : out.Means (upTo Z W items i)) :
    Ends "map capacity overflow" (addTurn zeroK fuel items wanted i out) fun out' => out'.Means (upTo Z W items (i + 1)) := by
  obtain ⟨b, hb, hiff⟩ := hwanted items[i]
  unfold addTurn
  rw [arrayGet_ok (List.getElem?_eq_getElem hi), ok_bind, hb, ok_bind]
  cases b with
  | true =>
    refine (set_add_ends zeroK h hfuel items[i]).bind fun r hr => .returns _ (hr.congr fun k => ?_)
    rw [upTo_succ hi, or_comm, and_iff_right (hiff.mp rfl)]
  | false =>
    refine .returns _ (h.congr fun k => ?_)
    rw [upTo_succ hi, or_iff_left fun hboth => Bool.false_ne_true (hiff.mpr hboth.1)]

theorem addTurn_small (zeroK : K) (hfuel : 2 ^ 14 + 4 ≤ fuel) (hwanted : ∀ item, ∃ b, wanted item = .ok b ∧ (b = true ↔ W item))
    {i n : ℕ} (hi : i < items.length) (h : out.Means (upTo Z W items i)) (hroom : Roomy out n) (hn : n < 6144) :
    ∃ out', addTurn zeroK fuel items wanted i out = .ok out' ∧ Roomy out' (n + 1) := by
  obtain ⟨b, hb, -⟩ := hwanted items[i]
  unfold addTurn
  rw [arrayGet_ok (List.getElem?_eq_getElem hi), ok_bind, hb, ok_bind]
  cases b with
  | true =>
    obtain ⟨r, hr, hroom'⟩ := set_add_small zeroK h hroom hn hfuel items[i]
    exact ⟨r.2, by rw [if_pos rfl, ok_bind, hr]; rfl, hroom'⟩
  | false =>
    obtain ⟨p, hinv, hp, hdead, hused⟩ := hroom
    exact ⟨out, rfl, p, hinv, hp, hdead, le_trans hused (Nat.le_succ n)⟩

/-- A loop that adds, if it returns. -/
theorem addAll_means (hfuel : 2 ^ 14 + 4 ≤ fuel) (hwanted : ∀ item, ∃ b, wanted item = .ok b ∧ (b = true ↔ W item))
    (hitems : items.length ≤ 6144) (h : out.Means Z) {out' : Set K} (hall : addAll zeroK fuel items wanted out = .ok out') :
    out'.Means fun k => Z k ∨ ∃ item ∈ items, W item ∧ (item == k) = true := by
  have hfrom : out.Means (upTo Z W items 0) := h.congr fun k => by simp [upTo]
  have hto := forUpTo_ok _ (P := fun i (out : Set K) => out.Means (upTo Z W items i)) (by omega)
    (fun i s s' hi hs hturn => by
      have hends := addTurn_ends zeroK hfuel hwanted hi hs
      rw [hturn] at hends
      exact hends.of_ok)
    (Nat.zero_le _) hfrom hall
  refine hto.congr fun k => ?_
  rw [upTo, List.take_length]

/-- And it does return when there is room. -/
theorem addAll_small (zeroK : K) (hfuel : 2 ^ 14 + 4 ≤ fuel) (hwanted : ∀ item, ∃ b, wanted item = .ok b ∧ (b = true ↔ W item))
    {n : ℕ} (hitems : n + items.length ≤ 6144) (h : out.Means Z) (hroom : Roomy out n) :
    ∃ out', addAll zeroK fuel items wanted out = .ok out' ∧ Roomy out' (n + items.length) := by
  have hfrom : out.Means (upTo Z W items 0) := h.congr fun k => by simp [upTo]
  obtain ⟨out', hall, -, hroom'⟩ := forUpTo_returns (addTurn zeroK fuel items wanted) fuel (i := 0) (s := out) (n := items.length)
    (P := fun i (out : Set K) => out.Means (upTo Z W items i) ∧ Roomy out (n + i)) (by omega)
    (fun i s hi hs => by
      obtain ⟨s', hturn, hroom'⟩ := addTurn_small zeroK hfuel hwanted hi hs.1 hs.2 (by omega)
      have hends := addTurn_ends zeroK hfuel hwanted hi hs.1
      rw [hturn] at hends
      exact ⟨s', hturn, hends.of_ok, hroom'⟩)
    (Nat.zero_le _) (by omega) ⟨hfrom, hroom⟩
  exact ⟨out', hall, hroom'⟩

end Filling

section Combining

variable {K : Type} [BEq K] [EquivBEq K] {zeroK : K} {fuel : ℕ} {a b : Set K} {X Y : K → Prop}

omit [BEq K] [EquivBEq K] in
theorem always (_ : K) : ∃ b, (return true : Run Bool) = .ok b ∧ (b = true ↔ True) := ⟨true, rfl, by simp⟩

omit [EquivBEq K] in
/-- The capacity for some members does not wrap. -/
theorem capacity_eq {n : ℕ} {len : ℤ} (hlen : len = n) (hn : n ≤ 12288) : wrap16 (len + 1) = ((n + 1 : ℕ) : ℤ) := by
  rw [hlen]
  exact wrap16_succ (by omega)

omit [EquivBEq K] in
theorem sum_eq {m n : ℕ} {left right : ℤ} (hleft : left = m) (hright : right = n) (hsum : m + n ≤ 12288) :
    wrap16 (left + right) = ((m + n : ℕ) : ℤ) := by
  rw [hleft, hright, wrap16_of_range (by omega) (by omega)]
  push_cast
  rfl

/-- Whatever the sizes, a union that is returned is one. -/
theorem set_union_means (hfuel : 2 ^ 14 + 4 ≤ fuel) (ha : a.Means X) (hb : b.Means Y) {out : Set K}
    (hunion : set_union zeroK fuel a b = .ok out) : out.Means fun k => X k ∨ Y k := by
  obtain ⟨left, hleft, -, hX, -, hsmall⟩ := ha.items zeroK (show 2 ^ 14 < fuel by omega)
  obtain ⟨right, hright, -, hY, -, hsmall'⟩ := hb.items zeroK (show 2 ^ 14 < fuel by omega)
  rw [set_union, hleft, hright] at hunion
  obtain ⟨empty, hnew, hunion⟩ := of_bind_ok hunion
  rw [ok_bind] at hunion
  obtain ⟨half, hhalf, hunion⟩ := of_bind_ok hunion
  rw [ok_bind] at hunion
  have hempty := set_new_means ha.pure (by omega) hnew
  have hmeans := addAll_means hfuel always hsmall hempty hhalf
  refine (addAll_means hfuel always hsmall' hmeans hunion).congr fun k => ?_
  simp only [true_and, false_or]
  rw [← hX, ← hY]

theorem set_union_small (zeroK : K) (hfuel : 2 ^ 14 + 4 ≤ fuel) (ha : a.Means X) (hb : b.Means Y) (hroom : set_len a + set_len b ≤ 6144) :
    ∃ out, set_union zeroK fuel a b = .ok out := by
  obtain ⟨left, hleft, -, hX, hlen, hsmall⟩ := ha.items zeroK (show 2 ^ 14 < fuel by omega)
  obtain ⟨right, hright, -, hY, hlen', hsmall'⟩ := hb.items zeroK (show 2 ^ 14 < fuel by omega)
  have hsum : left.length + right.length ≤ 6144 := by
    rw [hlen, hlen'] at hroom
    exact_mod_cast hroom
  rw [set_union, capacity_eq (sum_eq hlen hlen' (by omega)) (by omega), hleft, hright]
  obtain ⟨empty, hnew, hroomy⟩ := set_new_small zeroK (show (((left.length + right.length) + 1 : ℕ) : ℤ) ≤ 8192 by omega)
    a.entries.hash (show 12 ≤ fuel by omega)
  have hempty := set_new_means ha.pure (by omega) hnew
  obtain ⟨half, hhalf, hroomy'⟩ := addAll_small zeroK hfuel always (show 0 + left.length ≤ 6144 by omega) hempty hroomy
  have hmeans := addAll_means hfuel always hsmall hempty hhalf
  obtain ⟨out, hout, -⟩ := addAll_small zeroK hfuel always (show 0 + left.length + right.length ≤ 6144 by omega) hmeans hroomy'
  refine ⟨out, ?_⟩
  rw [hnew, ok_bind, ok_bind, hhalf, ok_bind, ok_bind, hout]

/-- The members of a set that are wanted. -/
theorem select_exact (zeroK : K) (hfuel : 2 ^ 14 + 4 ≤ fuel) (ha : a.Means X) {wanted : K → Run Bool} {W : K → Prop}
    (hwanted : ∀ item, ∃ b, wanted item = .ok b ∧ (b = true ↔ W item)) (hW : ∀ x y, (x == y) = true → (W x ↔ W y)) :
    ∃ out, (do
      let out ← set_new zeroK fuel (wrap16 (set_len a + 1)) a.entries.hash
      addAll zeroK fuel (← set_items zeroK fuel a) wanted out) = .ok out ∧ out.Means fun k => X k ∧ W k := by
  obtain ⟨left, hleft, -, hX, hlen, hsmall⟩ := ha.items zeroK (show 2 ^ 14 < fuel by omega)
  rw [capacity_eq hlen (by omega), hleft]
  obtain ⟨empty, hnew, hroomy⟩ := set_new_small zeroK (show ((left.length + 1 : ℕ) : ℤ) ≤ 8192 by omega)
    a.entries.hash (show 12 ≤ fuel by omega)
  have hempty := set_new_means ha.pure (by omega) hnew
  obtain ⟨out, hout, -⟩ := addAll_small zeroK hfuel hwanted (show 0 + left.length ≤ 6144 by omega) hempty hroomy
  refine ⟨out, by rw [hnew, ok_bind, ok_bind, hout], (addAll_means hfuel hwanted hsmall hempty hout).congr fun k => ?_⟩
  rw [false_or, hX]
  constructor
  · rintro ⟨item, hmem, hw, heq⟩
    exact ⟨⟨item, hmem, heq⟩, (hW item k heq).mp hw⟩
  · rintro ⟨⟨item, hmem, heq⟩, hw⟩
    exact ⟨item, hmem, (hW item k heq).mpr hw, heq⟩

theorem set_intersection_exact (zeroK : K) (hfuel : 2 ^ 14 + 4 ≤ fuel) (ha : a.Means X) (hb : b.Means Y) :
    ∃ out, set_intersection zeroK fuel a b = .ok out ∧ out.Means fun k => X k ∧ Y k :=
  select_exact zeroK hfuel ha (fun item => hb.has (by omega) item) fun _ _ heq => hb.respects heq

theorem set_difference_exact (zeroK : K) (hfuel : 2 ^ 14 + 4 ≤ fuel) (ha : a.Means X) (hb : b.Means Y) :
    ∃ out, set_difference zeroK fuel a b = .ok out ∧ out.Means fun k => X k ∧ ¬ Y k := by
  refine select_exact zeroK hfuel ha (fun item => ?_) fun _ _ heq => not_congr (hb.respects heq)
  obtain ⟨there, hhas, hiff⟩ := hb.has (show 2 ^ 14 ≤ fuel by omega) item
  refine ⟨!there, by rw [hhas]; rfl, ?_⟩
  rw [← hiff]
  cases there <;> decide

theorem subsetFrom_spec (turns : ℕ) (hfuel : 2 ^ 14 ≤ fuel) (hb : b.Means Y) {left : List K} (hleft : left.length ≤ 6144) {i : ℕ}
    (hi : i ≤ left.length) (hturns : left.length - i < turns) (hbefore : ∀ item ∈ left.take i, Y item) :
    ∃ r, subsetFrom fuel left b turns i = .ok r ∧ (r = true ↔ ∀ item ∈ left, Y item) := by
  induction turns generalizing i with
  | zero => omega
  | succ turns ih =>
    rw [subsetFrom]
    rcases hi.lt_or_eq with hlt | rfl
    · obtain ⟨there, hhas, hiff⟩ := hb.has hfuel left[i]
      rw [if_pos (by omega), arrayGet_ok (List.getElem?_eq_getElem hlt), ok_bind, hhas, ok_bind, wrap16_succ (by omega)]
      cases there with
      | true =>
        refine ih hlt (by omega) fun item hitem => ?_
        rw [List.take_add_one, List.getElem?_eq_getElem hlt, List.mem_append] at hitem
        rcases hitem with hitem | hitem
        · exact hbefore item hitem
        · rw [Option.toList_some, List.mem_singleton] at hitem
          rw [hitem]
          exact hiff.mp rfl
      | false =>
        refine ⟨false, rfl, fun h => absurd h Bool.false_ne_true, fun h => ?_⟩
        exact hiff.mpr (h _ (List.getElem_mem hlt))
    · rw [if_neg (lt_irrefl _)]
      rw [List.take_length] at hbefore
      exact ⟨true, rfl, fun _ => hbefore, fun _ => rfl⟩

theorem set_is_subset_exact (zeroK : K) (hfuel : 2 ^ 14 + 4 ≤ fuel) (ha : a.Means X) (hb : b.Means Y) :
    ∃ r, set_is_subset zeroK fuel a b = .ok r ∧ (r = true ↔ ∀ k, X k → Y k) := by
  obtain ⟨left, hleft, -, hX, -, hsmall⟩ := ha.items zeroK (show 2 ^ 14 < fuel by omega)
  obtain ⟨r, hr, hiff⟩ := subsetFrom_spec (i := 0) fuel (show 2 ^ 14 ≤ fuel by omega) hb hsmall (Nat.zero_le _) (by omega)
    (by simp)
  refine ⟨r, by rw [set_is_subset, hleft, ok_bind]; exact hr, hiff.trans ⟨fun h k hk => ?_, fun h item hitem => ?_⟩⟩
  · obtain ⟨item, hitem, heq⟩ := (hX k).mp hk
    exact (hb.respects heq).mp (h item hitem)
  · exact h item ((hX item).mpr ⟨item, hitem, BEq.rfl⟩)

end Combining

section Memory

variable {K : Type} [BEq K] {zeroK : K} {fuel : ℕ} {a b : Set K} {X Y : K → Prop}

/-- What the arrays of a set take: a word for every element. -/
def Set.bytes (s : Set K) : ℕ := 2 * (s.entries.keys.length + s.entries.values.length + s.entries.state.length)

/-- The memory holds two sets, which may be one, beside an empty set of this capacity. -/
def HeapSuffices (zeroK : K) (fuel : ℕ) (a b : Set K) (capacity : ℤ) : Prop :=
  ∀ out, set_new zeroK fuel capacity a.entries.hash = .ok out → max a.bytes b.bytes + out.bytes ≤ 0x10000

theorem bytes_eq {s : Set K} {p : ℕ} (h : s.entries.Inv p) : s.bytes = 6 * 2 ^ p := by
  rw [Set.bytes, h.keys, h.values, h.state]
  omega

/-- Three words a slot, and three slots in four used at most. -/
theorem len_le_bytes {s : Set K} (h : s.Means X) : set_len s * 8 ≤ s.bytes := by
  obtain ⟨p, hinv⟩ := h.inv
  have hload := hinv.load
  rw [set_len, hinv.len, bytes_eq hinv]
  omega

/-- The memory never holds a table that a union could fill. -/
theorem union_room (hfuel : 2 ^ 14 + 4 ≤ fuel) (ha : a.Means X) (hb : b.Means Y)
    (hheap : HeapSuffices zeroK fuel a b (wrap16 (wrap16 (set_len a + set_len b) + 1))) : set_len a + set_len b ≤ 6144 := by
  obtain ⟨left, -, -, -, hlen, hsmall⟩ := ha.items zeroK (show 2 ^ 14 < fuel by omega)
  obtain ⟨right, -, -, -, hlen', hsmall'⟩ := hb.items zeroK (show 2 ^ 14 < fuel by omega)
  rw [capacity_eq (sum_eq hlen hlen' (by omega)) (by omega)] at hheap
  obtain ⟨m, p, hm, -, hinv, -, hcap, -⟩ := map_new_small zeroK false (show 12 ≤ fuel by omega) (show 3 ≤ 14 ∧ 14 ≤ 14 by decide)
    (show (((left.length + right.length) + 1 : ℕ) : ℤ) ≤ 2 ^ 14 by norm_num; omega) a.entries.hash
  have hfits := hheap ⟨m⟩ (by rw [set_new, hm]; rfl)
  have hbytes : (Set.mk m).bytes = 6 * 2 ^ p := bytes_eq hinv
  have hleft := len_le_bytes ha
  have hright := len_le_bytes hb
  have hcap' : left.length + right.length + 1 ≤ 2 ^ p := by exact_mod_cast hcap
  rw [hlen] at hleft ⊢
  rw [hlen'] at hright ⊢
  by_contra hmany
  -- then the new table has 8192 slots, and leaves a quarter of the memory
  have hlarge : 2 ^ 13 ≤ 2 ^ p := Nat.pow_le_pow_right (by decide) (by
    by_contra hp
    have : 2 ^ p ≤ 2 ^ 12 := Nat.pow_le_pow_right (by decide) (by omega)
    omega)
  omega

end Memory

section Algebra

variable {K : Type} [BEq K] [EquivBEq K] (zeroK : K) (fuel : ℕ)

/-- The sets of a program, one place for each that was ever built, and the members each is
to have: a call changes the set it is made on, and no other. -/
inductive Built : List (Set K) → List (K → Prop) → Prop
  | none : Built [] []
  | new {sets : List (Set K)} {members : List (K → Prop)} {capacity : ℤ} {hash : K → ℤ} {s : Set K} (built : Built sets members)
      (hpure : ∀ a b, (a == b) = true → hash a = hash b) (h : set_new zeroK fuel capacity hash = .ok s) :
      Built (sets ++ [s]) (members ++ [fun _ => False])
  | add {sets : List (Set K)} {members : List (K → Prop)} {i : ℕ} {s : Set K} {X : K → Prop} {item : K} {r : Bool × Set K}
      (built : Built sets members) (hs : sets[i]? = some s) (hX : members[i]? = some X) (h : set_add zeroK fuel s item = .ok r) :
      Built (sets.set i r.2) (members.set i fun k => (item == k) = true ∨ X k)
  | remove {sets : List (Set K)} {members : List (K → Prop)} {i : ℕ} {s : Set K} {X : K → Prop} {item : K} {r : Bool × Set K}
      (built : Built sets members) (hs : sets[i]? = some s) (hX : members[i]? = some X) (h : set_remove fuel s item = .ok r) :
      Built (sets.set i r.2) (members.set i fun k => X k ∧ ¬ (item == k) = true)
  | clear {sets : List (Set K)} {members : List (K → Prop)} {i : ℕ} {s s' : Set K} {X : K → Prop}
      (built : Built sets members) (hs : sets[i]? = some s) (hX : members[i]? = some X) (h : set_clear fuel s = .ok s') :
      Built (sets.set i s') (members.set i fun _ => False)
  | union {sets : List (Set K)} {members : List (K → Prop)} {i j : ℕ} {a b out : Set K} {X Y : K → Prop}
      (built : Built sets members) (ha : sets[i]? = some a) (hX : members[i]? = some X) (hb : sets[j]? = some b)
      (hY : members[j]? = some Y) (h : set_union zeroK fuel a b = .ok out) :
      Built (sets ++ [out]) (members ++ [fun k => X k ∨ Y k])
  | intersection {sets : List (Set K)} {members : List (K → Prop)} {i j : ℕ} {a b out : Set K} {X Y : K → Prop}
      (built : Built sets members) (ha : sets[i]? = some a) (hX : members[i]? = some X) (hb : sets[j]? = some b)
      (hY : members[j]? = some Y) (h : set_intersection zeroK fuel a b = .ok out) :
      Built (sets ++ [out]) (members ++ [fun k => X k ∧ Y k])
  | difference {sets : List (Set K)} {members : List (K → Prop)} {i j : ℕ} {a b out : Set K} {X Y : K → Prop}
      (built : Built sets members) (ha : sets[i]? = some a) (hX : members[i]? = some X) (hb : sets[j]? = some b)
      (hY : members[j]? = some Y) (h : set_difference zeroK fuel a b = .ok out) :
      Built (sets ++ [out]) (members ++ [fun k => X k ∧ ¬ Y k])

/-- Every set has its members, whatever it is asked. -/
def AllMembers (sets : List (Set K)) (members : List (K → Prop)) : Prop :=
  sets.length = members.length ∧ ∀ (i : ℕ) (s : Set K) (X : K → Prop), sets[i]? = some s → members[i]? = some X → Members zeroK fuel s X

/-- Every set keeps what it is to keep. -/
def AllMean (sets : List (Set K)) (members : List (K → Prop)) : Prop :=
  sets.length = members.length ∧ ∀ (i : ℕ) (s : Set K) (X : K → Prop), sets[i]? = some s → members[i]? = some X → s.Means X

variable {zeroK fuel} {sets : List (Set K)} {members : List (K → Prop)}

omit [EquivBEq K] in
theorem AllMean.concat (h : AllMean sets members) {s : Set K} {X : K → Prop} (hs : s.Means X) :
    AllMean (sets ++ [s]) (members ++ [X]) := by
  refine ⟨by rw [List.length_append, List.length_append, h.1]; rfl, fun i s' X' hs' hX' => ?_⟩
  rcases Nat.lt_or_ge i sets.length with hlt | hge
  · rw [List.getElem?_append_left hlt] at hs'
    rw [List.getElem?_append_left (h.1 ▸ hlt)] at hX'
    exact h.2 i s' X' hs' hX'
  · rw [List.getElem?_append_right hge, List.getElem?_singleton] at hs'
    rw [List.getElem?_append_right (h.1 ▸ hge), List.getElem?_singleton, ← h.1] at hX'
    split_ifs at hs' hX'
    cases hs'
    cases hX'
    exact hs

omit [EquivBEq K] in
theorem AllMean.replace (h : AllMean sets members) (i : ℕ) {s : Set K} {X : K → Prop} (hs : s.Means X) :
    AllMean (sets.set i s) (members.set i X) := by
  refine ⟨by rw [List.length_set, List.length_set, h.1], fun j s' X' hs' hX' => ?_⟩
  rw [List.getElem?_set] at hs' hX'
  by_cases hij : i = j
  · rw [if_pos hij] at hs' hX'
    split_ifs at hs' hX'
    cases hs'
    cases hX'
    exact hs
  · rw [if_neg hij] at hs' hX'
    exact h.2 j s' X' hs' hX'

theorem AllMean.answers (h : AllMean sets members) (hfuel : 2 ^ 14 < fuel) : AllMembers zeroK fuel sets members :=
  ⟨h.1, fun i s X hs hX => (h.2 i s X hs hX).members hfuel⟩

theorem built_means (hfuel : 2 ^ 14 + 4 ≤ fuel) (h : Built zeroK fuel sets members) : AllMean sets members := by
  induction h with
  | none => exact ⟨rfl, fun i s X hs => by simp at hs⟩
  | new built hpure hnew ih => exact ih.concat (set_new_means hpure (by omega) hnew)
  | @add sets members i s X item r built hs hX hadd ih =>
    have hends := set_add_ends zeroK (ih.2 _ _ _ hs hX) hfuel item
    rw [hadd] at hends
    exact ih.replace _ hends.of_ok
  | remove built hs hX hremove ih => exact ih.replace _ (set_remove_means (ih.2 _ _ _ hs hX) (by omega) _ hremove)
  | clear built hs hX hclear ih => exact ih.replace _ (set_clear_means (ih.2 _ _ _ hs hX) (by omega) hclear)
  | union built ha hX hb hY hunion ih =>
    exact ih.concat (set_union_means hfuel (ih.2 _ _ _ ha hX) (ih.2 _ _ _ hb hY) hunion)
  | intersection built ha hX hb hY hinter ih =>
    obtain ⟨out, hout, hmeans⟩ := set_intersection_exact zeroK hfuel (ih.2 _ _ _ ha hX) (ih.2 _ _ _ hb hY)
    cases hinter.symm.trans hout
    exact ih.concat hmeans
  | difference built ha hX hb hY hdiff ih =>
    obtain ⟨out, hout, hmeans⟩ := set_difference_exact zeroK hfuel (ih.2 _ _ _ ha hX) (ih.2 _ _ _ hb hY)
    cases hdiff.symm.trans hout
    exact ih.concat hmeans

/-- Whatever was done to the sets of a program, combining two of them, or one with itself,
computes the algebra of their members, and every set keeps its own. -/
theorem set_algebra (hfuel : 2 ^ 14 + 4 ≤ fuel) (hbuilt : Built zeroK fuel sets members) {i j : ℕ} {a b : Set K} {X Y : K → Prop}
    (ha : sets[i]? = some a) (hX : members[i]? = some X) (hb : sets[j]? = some b) (hY : members[j]? = some Y) :
    AllMembers zeroK fuel sets members ∧
    (HeapSuffices zeroK fuel a b (wrap16 (wrap16 (set_len a + set_len b) + 1)) → ∃ out, set_union zeroK fuel a b = .ok out ∧
      AllMembers zeroK fuel (sets ++ [out]) (members ++ [fun k => X k ∨ Y k])) ∧
    (∃ out, set_intersection zeroK fuel a b = .ok out ∧
      AllMembers zeroK fuel (sets ++ [out]) (members ++ [fun k => X k ∧ Y k])) ∧
    (∃ out, set_difference zeroK fuel a b = .ok out ∧
      AllMembers zeroK fuel (sets ++ [out]) (members ++ [fun k => X k ∧ ¬ Y k])) ∧
    ∃ r, set_is_subset zeroK fuel a b = .ok r ∧ (r = true ↔ ∀ k, X k → Y k) := by
  have hall := built_means hfuel hbuilt
  have hA := hall.2 _ _ _ ha hX
  have hB := hall.2 _ _ _ hb hY
  have hfuel' : 2 ^ 14 < fuel := by omega
  refine ⟨hall.answers hfuel', fun hheap => ?_, ?_, ?_, set_is_subset_exact zeroK hfuel hA hB⟩
  · obtain ⟨out, hout⟩ := set_union_small zeroK hfuel hA hB (union_room hfuel hA hB hheap)
    exact ⟨out, hout, (hall.concat (set_union_means hfuel hA hB hout)).answers hfuel'⟩
  · obtain ⟨out, hout, hmeans⟩ := set_intersection_exact zeroK hfuel hA hB
    exact ⟨out, hout, (hall.concat hmeans).answers hfuel'⟩
  · obtain ⟨out, hout, hmeans⟩ := set_difference_exact zeroK hfuel hA hB
    exact ⟨out, hout, (hall.concat hmeans).answers hfuel'⟩

def eightSlots (hash : ℤ → ℤ) : Set ℤ :=
  ⟨{ keys := List.replicate 8 0, values := List.replicate 8 false, state := List.replicate 8 0, hash := hash
     len := 0, dead := 0, mask := 7 }⟩

theorem new_eightSlots (hash : ℤ → ℤ) : set_new (0 : ℤ) 16388 3 hash = .ok (eightSlots hash) := by rfl

/-- The set of 5, a tombstone where 6 was, whose hash is the number itself, and the set of 7,
whose hash is its negative. -/
def twoSets : Run (Set ℤ × Set ℤ) := do
  let added ← set_add 0 16388 (eightSlots fun n => n) 5
  let more ← set_add 0 16388 added.2 6
  let left ← set_remove 16388 more.2 6
  let other ← set_add 0 16388 (eightSlots fun n => -n) 7
  return (left.2, other.2)

theorem twoSets_sizes : twoSets.map (fun r => (r.1.bytes, r.2.bytes, set_len r.1, set_len r.2, r.1.entries.dead)) =
    .ok (48, 48, 1, 1, 1) := by decide

/-- Their union has the members of both. -/
theorem set_algebra_pair : ∃ a b out, twoSets = .ok (a, b) ∧ a.entries.dead = 1 ∧ set_union 0 16388 a b = .ok out ∧
    AllMembers 0 16388 [a, b, out]
      [fun k => ((6 == k) = true ∨ (5 == k) = true ∨ False) ∧ ¬ (6 == k) = true, fun k => (7 == k) = true ∨ False,
        fun k => (((6 == k) = true ∨ (5 == k) = true ∨ False) ∧ ¬ (6 == k) = true) ∨ (7 == k) = true ∨ False] := by
  have hsizes := twoSets_sizes
  generalize hsets : twoSets = sets at hsizes
  cases sets with
  | error e => cases hsizes
  | ok sets =>
    obtain ⟨a, b⟩ := sets
    have hsizes := Except.ok.inj hsizes
    simp only [Prod.mk.injEq] at hsizes
    obtain ⟨hbytes, hbytes', hlen, hlen', hdead⟩ := hsizes
    obtain ⟨added, hadd, h⟩ := of_bind_ok hsets
    obtain ⟨more, hmore, h⟩ := of_bind_ok h
    obtain ⟨left, hleft, h⟩ := of_bind_ok h
    obtain ⟨other, hother, h⟩ := of_bind_ok h
    obtain ⟨rfl, rfl⟩ := Prod.mk.inj (Except.ok.inj h)
    have hself : ∀ a b : ℤ, (a == b) = true → a = b := fun a b h => beq_iff_eq.mp h
    have hnegative : ∀ a b : ℤ, (a == b) = true → -a = -b := fun a b h => congrArg _ (beq_iff_eq.mp h)
    have hboth := Built.new (.new .none hself (new_eightSlots _)) hnegative (new_eightSlots _)
    have hbuilt : Built (0 : ℤ) 16388 [left.2, other.2] _ := .add (i := 1)
      (.remove (i := 0) (.add (i := 0) (.add (i := 0) hboth rfl rfl hadd) rfl rfl hmore) rfl rfl hleft) rfl rfl hother
    have hfits : HeapSuffices 0 16388 left.2 other.2 (wrap16 (wrap16 (set_len left.2 + set_len other.2) + 1)) := by
      intro out hout
      have hcap : wrap16 (wrap16 (1 + 1) + 1) = 3 := by decide
      rw [hlen, hlen', hcap, new_eightSlots] at hout
      cases hout
      rw [hbytes, hbytes']
      exact (show 48 + 48 ≤ 0x10000 by decide)
    obtain ⟨out, hout, hall⟩ := (set_algebra (by decide) hbuilt (i := 0) (j := 1) rfl rfl rfl rfl).2.1 hfits
    exact ⟨left.2, other.2, out, rfl, hdead, hout, hall⟩

end Algebra

end QuinLang.Std
