import QuinLang.Std.MapGrowth

/-! Every operation of `std/map.ql`, and every run of them, against a finite map. -/

namespace QuinLang.Std

open Probing

section Lookup

variable {K V : Type} [BEq K] [EquivBEq K] {m : Map K V} {p : ℕ}

theorem map_get_spec (h : m.Inv p) (hhash : ∀ a b, (a == b) = true → m.hash a = m.hash b) {fuel : ℕ}
    (hfuel : 2 ^ p ≤ fuel) (key : K) : map_get fuel m key = .ok (lookup (entries m.slots) key) := by
  unfold map_get
  rcases map_slot_of_spec h hhash key hfuel with ⟨i, k, v, hr, hi, hs, hk⟩ | ⟨hr, habs⟩
  · obtain ⟨k', v', -, hv, ⟨-, hs'⟩ | ⟨-, hs'⟩ | ⟨-, hs'⟩⟩ := h.slot hi <;> rw [hs] at hs' <;> cases hs'
    have hpos : ¬ (i : ℤ) < 0 := by omega
    rw [h.sound.distinct_entries.lookup (mem_entries.mpr ⟨i, hs⟩) hk]
    simp only [hr, bind, Except.bind, if_neg hpos, arrayGet_ok hv]
    rfl
  · rw [lookup_of_absent habs]
    simp only [hr, bind, Except.bind]
    rfl

theorem map_has_spec (h : m.Inv p) (hhash : ∀ a b, (a == b) = true → m.hash a = m.hash b) {fuel : ℕ}
    (hfuel : 2 ^ p ≤ fuel) (key : K) : map_has fuel m key = .ok (lookup (entries m.slots) key).isSome := by
  unfold map_has
  rcases map_slot_of_spec h hhash key hfuel with ⟨i, k, v, hr, -, hs, hk⟩ | ⟨hr, habs⟩
  · have hpos : (i : ℤ) ≥ 0 := by omega
    rw [h.sound.distinct_entries.lookup (mem_entries.mpr ⟨i, hs⟩) hk]
    simp only [hr, bind, Except.bind, hpos, decide_true]
    rfl
  · rw [lookup_of_absent habs]
    simp only [hr, bind, Except.bind]
    rfl

end Lookup

section Removal

variable {K V : Type} [BEq K] [EquivBEq K] {m : Map K V} {p : ℕ}

omit [EquivBEq K] in
/-- Burying the entry of a slot. -/
theorem inv_kill (h : m.Inv p) {i : ℕ} (hi : i < 2 ^ p) {k : K} {v : V} (hs : m.slots[i]? = some (.used k v))
    {m' : Map K V} (hm' : m' = { m with
      state := m.state.set i map_dead_slot
      len := wrap16 (m.len - 1)
      dead := wrap16 (m.dead + 1) }) : m'.Inv p ∧ m'.slots = m.slots.set i .dead := by
  obtain ⟨k', v', hk, hv, -⟩ := h.slot hi
  have hslots : m'.slots = m.slots.set i .dead := by
    refine slots_set k' v' map_dead_slot ?_ ?_ (by rw [hm'])
    · obtain ⟨hi', rfl⟩ := List.getElem?_eq_some_iff.mp hk
      rw [hm']
      exact (List.set_getElem_self hi').symm
    · obtain ⟨hi', rfl⟩ := List.getElem?_eq_some_iff.mp hv
      rw [hm']
      exact (List.set_getElem_self hi').symm
  have hused := countP_set (y := .dead) hs Slot.isUsed
  have hdead := countP_set (y := .dead) hs Slot.isDead
  simp only [Slot.isUsed, Slot.isDead, if_true, Bool.false_eq_true, if_false, ← hslots] at hused hdead
  have hload := h.load
  have htop := h.top
  have hsize := h.size_le
  have hlen : m'.len = wrap16 (m.len - 1) ∧ m'.dead = wrap16 (m.dead + 1) := by
    rw [hm']
    exact ⟨rfl, rfl⟩
  refine ⟨h.update (by rw [hm']) (by rw [hm']) (by rw [hm']) (by rw [hm']) (by simp [hm']) ?_ ?_ ?_ (by omega)
    (by omega) ?_, hslots⟩
  · rw [hm']
    exact states_set h (Or.inr (Or.inr rfl))
  · rw [hlen.1, h.len, wrap16_of_range (by omega) (by omega)]
    omega
  · rw [hlen.2, h.dead, wrap16_of_range (by omega) (by omega)]
    omega
  · rw [hslots]
    exact h.sound.set_kept hs (by simp) (by simp)

theorem map_remove_spec (h : m.Inv p) (hhash : ∀ a b, (a == b) = true → m.hash a = m.hash b) {fuel : ℕ}
    (hfuel : 2 ^ p ≤ fuel) (key : K) :
    ∃ m', map_remove fuel m key = .ok ((lookup (entries m.slots) key).isSome, m') ∧ m'.hash = m.hash ∧ m'.Inv p ∧
      (entries m'.slots).Perm (erase (entries m.slots) key) ∧
      m'.slots.countP Slot.isUsed + m'.slots.countP Slot.isDead = m.slots.countP Slot.isUsed + m.slots.countP Slot.isDead := by
  unfold map_remove
  rcases map_slot_of_spec h hhash key hfuel with ⟨i, k, v, hr, hi, hs, hk⟩ | ⟨hr, habs⟩
  · have hpos : ¬ (i : ℤ) < 0 := by omega
    have hset := arraySet_ok (show i < m.state.length by rw [h.state]; exact hi) map_dead_slot
    obtain ⟨hinv, hslots⟩ := inv_kill h hi hs rfl
    refine ⟨{ m with
      state := m.state.set i map_dead_slot
      len := wrap16 (m.len - 1)
      dead := wrap16 (m.dead + 1) }, ?_, rfl, hinv, ?_, ?_⟩
    · rw [h.sound.distinct_entries.lookup (mem_entries.mpr ⟨i, hs⟩) hk]
      simp only [hr, bind, Except.bind, if_neg hpos, hset]
      rfl
    · rw [hslots]
      exact h.sound.entries_kill hs hk
    · have hused := countP_set (y := .dead) hs Slot.isUsed
      have hdead := countP_set (y := .dead) hs Slot.isDead
      simp only [Slot.isUsed, Slot.isDead, if_true, Bool.false_eq_true, if_false, ← hslots] at hused hdead
      omega
  · refine ⟨m, ?_, rfl, h, by rw [erase_of_absent habs], rfl⟩
    rw [lookup_of_absent habs]
    simp only [hr, bind, Except.bind]
    rfl

omit [EquivBEq K] in
theorem map_clear_spec (h : m.Inv p) {fuel : ℕ} (hfuel : 2 ^ 14 < fuel) :
    ∃ m', map_clear fuel m = .ok m' ∧ m'.hash = m.hash ∧ m'.Inv p ∧ m'.slots = List.replicate (2 ^ p) .empty := by
  have hsize := h.size_le
  obtain ⟨state, hloop, hstate⟩ := forUpTo_returns (fun i state => arraySet state i map_empty_slot) fuel (i := 0) (n := 2 ^ p)
    (s := m.state) (P := fun i state => state = List.replicate i map_empty_slot ++ m.state.drop i) (by omega)
    (fun i state hi hstate => by
      have hlt : i < state.length := by
        rw [hstate]
        simp [h.state]
        omega
      refine ⟨_, arraySet_ok hlt _, ?_⟩
      rw [hstate, List.set_append_right _ _ (by simp), List.length_replicate, Nat.sub_self,
        List.drop_eq_getElem_cons (by rw [h.state]; exact hi), List.set_cons_zero, List.replicate_succ',
        List.append_assoc, List.singleton_append])
    (Nat.zero_le _) (by omega) rfl
  rw [List.drop_eq_nil_of_le (by rw [h.state]), List.append_nil] at hstate
  obtain ⟨hinv, hslots⟩ := inv_of_empty (m := { m with state := state, len := 0, dead := 0 }) h.small h.mask
    h.keys h.values hstate rfl rfl
  refine ⟨{ m with state := state, len := 0, dead := 0 }, ?_, rfl, hinv, hslots⟩
  rw [map_clear, h.state]
  exact congrArg (fun r : Run (List ℤ) => r >>= fun state => pure { m with state := state, len := 0, dead := 0 }) hloop

/-- A turn of the loop of `map_keys`: the keys so far in the array, and how many there are. -/
def keysTurn (m : Map K V) (i : ℤ) (acc : List K × ℤ) : Run (List K × ℤ) := do
  if (← arrayGet m.state i) = map_used_slot then
    return (← arraySet acc.1 acc.2 (← arrayGet m.keys i), wrap16 (acc.2 + 1))
  else return acc

/-- The keys of the first slots, and room for the rest. -/
def Keys (m : Map K V) (zeroK : K) (i : ℕ) (acc : List K × ℤ) : Prop :=
  acc.2 = (((entries (m.slots.take i)).length : ℕ) : ℤ) ∧
    acc.1 = (entries (m.slots.take i)).map Prod.fst ++
      List.replicate ((entries m.slots).length - (entries (m.slots.take i)).length) zeroK

omit [EquivBEq K] in
theorem keysTurn_ok (zeroK : K) (h : m.Inv p) {i : ℕ} (hi : i < 2 ^ p) {acc : List K × ℤ} (hacc : Keys m zeroK i acc) :
    ∃ acc', keysTurn m i acc = .ok acc' ∧ Keys m zeroK (i + 1) acc' := by
  have hsize := h.size_le
  have hload := h.load
  rw [← length_entries] at hload
  have hskip : ∀ x, m.slots[i]? = some x → x.entry? = none → Keys m zeroK (i + 1) acc := fun x hx hnone => by
    have hsame : entries (m.slots.take (i + 1)) = entries (m.slots.take i) := by
      rw [entries_take_succ hx, hnone, Option.toList_none, List.append_nil]
    unfold Keys
    rw [hsame]
    exact hacc
  obtain ⟨hn, hout⟩ := hacc
  unfold keysTurn
  obtain ⟨k, v, hk, -, ⟨hst, hs⟩ | ⟨hst, hs⟩ | ⟨hst, hs⟩⟩ := h.slot hi
  · have hne : ¬ map_empty_slot = map_used_slot := by decide
    simp only [arrayGet_ok hst, bind, Except.bind, if_neg hne]
    exact ⟨_, rfl, hskip _ hs rfl⟩
  · have hsucc := entries_take_succ hs
    have hle : (entries (m.slots.take i)).length + 1 ≤ (entries m.slots).length := by
      have := ((List.take_sublist (i + 1) m.slots).filterMap Slot.entry?).length_le
      rw [← entries, hsucc, List.length_append] at this
      exact this
    have hset : arraySet acc.1 acc.2 k = .ok (acc.1.set (entries (m.slots.take i)).length k) := by
      rw [hn]
      refine arraySet_ok ?_ k
      rw [hout, List.length_append, List.length_map, List.length_replicate]
      omega
    simp only [arrayGet_ok hst, arrayGet_ok hk, hset, bind, Except.bind, if_true]
    refine ⟨_, rfl, ?_, ?_⟩
    · rw [hn, hsucc, List.length_append, wrap16_of_range (by omega) (by omega)]
      rfl
    · rw [hout, hsucc, List.map_append, List.length_append, List.append_assoc,
        List.set_append_right _ _ (by simp), List.length_map, Nat.sub_self]
      obtain ⟨r, hr⟩ := Nat.exists_eq_add_of_le hle
      rw [hr, show (entries (m.slots.take i)).length + 1 + r - (entries (m.slots.take i)).length = r + 1 by omega,
        List.replicate_succ, List.set_cons_zero]
      simp [Slot.entry?]
  · have hne : ¬ map_dead_slot = map_used_slot := by decide
    simp only [arrayGet_ok hst, bind, Except.bind, if_neg hne]
    exact ⟨_, rfl, hskip _ hs rfl⟩

omit [EquivBEq K] in
/-- The keys come in slot order. -/
theorem map_keys_spec (zeroK : K) (h : m.Inv p) {fuel : ℕ} (hfuel : 2 ^ 14 < fuel) :
    map_keys zeroK fuel m = .ok ((entries m.slots).map Prod.fst) := by
  have hsize := h.size_le
  have hcount : m.len = (((entries m.slots).length : ℕ) : ℤ) := by rw [length_entries, h.len]
  obtain ⟨acc, hloop, hacc⟩ := forUpTo_returns (keysTurn m) fuel (i := 0) (n := 2 ^ p)
    (s := (List.replicate (entries m.slots).length zeroK, 0)) (P := Keys m zeroK) (by omega)
    (fun i acc hi hacc => keysTurn_ok zeroK h hi hacc) (Nat.zero_le _) (by omega) ⟨rfl, rfl⟩
  have hall : acc.1 = (entries m.slots).map Prod.fst := by
    rw [hacc.2, List.take_of_length_le (by rw [h.length_slots]), Nat.sub_self, List.replicate_zero, List.append_nil]
  rw [map_keys, hcount, array_new_ok, h.state, ← hall]
  exact congrArg (fun r : Run (List K × ℤ) => r >>= fun filled => pure filled.1) hloop

end Removal

/-! A map means a partial function on its keys. -/

inductive Call (K V : Type)
  | set (key : K) (value : V)
  | get (key : K)
  | has (key : K)
  | remove (key : K)
  | clear
  | keys

inductive Answer (K V : Type)
  | void
  | option (value : Option V)
  | bool (b : Bool)
  | keys (keys : List K)
  deriving DecidableEq

section Runs

variable {K V : Type} [BEq K] (zeroK : K) (zeroV : V) (fuel : ℕ)

def Call.run (m : Map K V) : Call K V → Run (Answer K V × Map K V)
  | set key value => do return (.void, ← map_set zeroK zeroV fuel m key value)
  | get key => do return (.option (← map_get fuel m key), m)
  | has key => do return (.bool (← map_has fuel m key), m)
  | remove key => do
    let (there, m) ← map_remove fuel m key
    return (.bool there, m)
  | clear => do return (.void, ← map_clear fuel m)
  | keys => do return (.keys (← map_keys zeroK fuel m), m)

def runCalls (m : Map K V) : List (Call K V) → Run (List (Answer K V) × Map K V)
  | [] => return ([], m)
  | call :: calls => do
    let (answer, m) ← call.run zeroK zeroV fuel m
    let (answers, m) ← runCalls m calls
    return (answer :: answers, m)

/-- A program that builds a map and then only calls it. -/
def mapProgram (capacity : ℤ) (hash : K → ℤ) (calls : List (Call K V)) : Run (List (Answer K V) × Map K V) := do
  let m ← map_new zeroK zeroV fuel capacity hash
  runCalls zeroK zeroV fuel m calls

def Call.meaning (f : K → Option V) : Call K V → K → Option V
  | set key value => fun k => if key == k then some value else f k
  | remove key => fun k => if key == k then none else f k
  | clear => fun _ => none
  | get _ | has _ | keys => f

/-- What a finite map answers. -/
inductive Call.Answered (f : K → Option V) : Call K V → Answer K V → Prop
  | set (key : K) (value : V) : Answered f (.set key value) .void
  | get (key : K) : Answered f (.get key) (.option (f key))
  | has (key : K) : Answered f (.has key) (.bool (f key).isSome)
  | remove (key : K) : Answered f (.remove key) (.bool (f key).isSome)
  | clear : Answered f .clear .void
  | keys {ks : List K} (distinct : ks.Pairwise fun a b => (a == b) = false)
      (domain : ∀ k, (f k).isSome = true ↔ ∃ k' ∈ ks, (k' == k) = true) : Answered f .keys (.keys ks)

inductive AllAnswered : (K → Option V) → List (Call K V) → List (Answer K V) → Prop
  | nil (f : K → Option V) : AllAnswered f [] []
  | cons {f : K → Option V} {call : Call K V} {answer : Answer K V} {calls : List (Call K V)}
      {answers : List (Answer K V)} (h : call.Answered f answer) (hs : AllAnswered (call.meaning f) calls answers) :
      AllAnswered f (call :: calls) (answer :: answers)

/-- A map between two calls. -/
structure Map.Means (m : Map K V) (hash : K → ℤ) (f : K → Option V) : Prop where
  hash : m.hash = hash
  inv : ∃ p, m.Inv p
  means : ∀ k, lookup (entries m.slots) k = f k

variable [EquivBEq K] {zeroK zeroV fuel} {hash : K → ℤ}

theorem Map.Means.of_perm {m : Map K V} {p : ℕ} {es : List (K × V)} (hhash : m.hash = hash) (hinv : m.Inv p)
    (hperm : (entries m.slots).Perm es) : m.Means hash (lookup es) :=
  ⟨hhash, ⟨p, hinv⟩, hinv.sound.distinct_entries.lookup_perm hperm⟩

omit [EquivBEq K] in
theorem answered_keys {m : Map K V} {f : K → Option V} (h : m.Means hash f) :
    Call.Answered f .keys (.keys ((entries m.slots).map Prod.fst)) := by
  obtain ⟨p, hinv⟩ := h.inv
  refine .keys (List.pairwise_map.mpr hinv.sound.distinct_entries) fun k => ?_
  rw [← h.means k, lookup, Option.isSome_map, List.find?_isSome]
  simp

theorem call_ends {m : Map K V} {f : K → Option V} (hpure : ∀ a b, (a == b) = true → hash a = hash b)
    (hfuel : 2 ^ 14 + 4 ≤ fuel) (h : m.Means hash f) (call : Call K V) :
    Ends "map capacity overflow" (call.run zeroK zeroV fuel m) fun r =>
      call.Answered f r.1 ∧ r.2.Means hash (call.meaning f) := by
  obtain ⟨hhash, ⟨p, hinv⟩, hmeans⟩ := h
  have hpure' : ∀ a b, (a == b) = true → m.hash a = m.hash b := hhash ▸ hpure
  have hsize := hinv.size_le
  obtain rfl : lookup (entries m.slots) = f := funext hmeans
  cases call with
  | set key value =>
    refine (map_set_ends zeroK zeroV hinv hpure' hfuel key value).bind fun m' ⟨hh, p', hinv', hperm⟩ => ?_
    have := Map.Means.of_perm (hh.trans hhash) hinv' hperm
    rw [show lookup (insert (entries m.slots) key value) = (Call.set key value).meaning (lookup (entries m.slots)) from
      funext fun k => lookup_insert ..] at this
    exact .returns _ ⟨.set key value, this⟩
  | get key =>
    simp only [Call.run, map_get_spec hinv hpure' (show 2 ^ p ≤ fuel by omega)]
    exact .returns _ ⟨.get key, hhash, ⟨p, hinv⟩, hmeans⟩
  | has key =>
    simp only [Call.run, map_has_spec hinv hpure' (show 2 ^ p ≤ fuel by omega)]
    exact .returns _ ⟨.has key, hhash, ⟨p, hinv⟩, hmeans⟩
  | remove key =>
    obtain ⟨m', hm', hh, hinv', hperm, -⟩ := map_remove_spec hinv hpure' (show 2 ^ p ≤ fuel by omega) key
    have := Map.Means.of_perm (hh.trans hhash) hinv' hperm
    rw [show lookup (erase (entries m.slots) key) = (Call.remove key).meaning (lookup (entries m.slots)) from
      funext fun k => lookup_erase ..] at this
    simp only [Call.run, hm']
    exact .returns _ ⟨.remove key, this⟩
  | clear =>
    obtain ⟨m', hm', hh, hinv', hempty⟩ := map_clear_spec hinv (show 2 ^ 14 < fuel by omega)
    simp only [Call.run, hm']
    exact .returns _ ⟨.clear, hh.trans hhash, ⟨p, hinv'⟩, fun k => by rw [hempty, entries_replicate_empty]; rfl⟩
  | keys =>
    simp only [Call.run, map_keys_spec zeroK hinv (show 2 ^ 14 < fuel by omega)]
    have hm : m.Means hash (lookup (entries m.slots)) := ⟨hhash, ⟨p, hinv⟩, fun _ => rfl⟩
    exact .returns _ ⟨answered_keys hm, hm⟩

theorem runCalls_ends (hpure : ∀ a b, (a == b) = true → hash a = hash b) (hfuel : 2 ^ 14 + 4 ≤ fuel)
    (calls : List (Call K V)) {m : Map K V} {f : K → Option V} (h : m.Means hash f) :
    Ends "map capacity overflow" (runCalls zeroK zeroV fuel m calls) fun r =>
      AllAnswered f calls r.1 ∧ r.2.Means hash (calls.foldl Call.meaning f) := by
  induction calls generalizing m f with
  | nil => exact .returns _ ⟨.nil f, h⟩
  | cons call calls ih =>
    refine (call_ends hpure hfuel h call).bind fun r hr => ?_
    refine (ih hr.2).bind fun rs hrs => ?_
    exact .returns _ ⟨.cons hr.1 hrs.1, hrs.2⟩

def Call.isSet : Call K V → Bool
  | set _ _ => true
  | _ => false

/-- A table that is not the largest, with so many slots used or buried at most. -/
def Map.Below (hash : K → ℤ) (m : Map K V) (n : ℕ) : Prop :=
  m.hash = hash ∧ ∃ p, m.Inv p ∧ p ≤ 13 ∧ m.slots.countP Slot.isUsed + m.slots.countP Slot.isDead ≤ n

/-- A call takes a slot more at most, and only to set an entry. -/
theorem call_below {m : Map K V} {n : ℕ} (hpure : ∀ a b, (a == b) = true → hash a = hash b) (hfuel : 2 ^ 14 + 4 ≤ fuel)
    (h : m.Below hash n) (call : Call K V) (hroom : n + [call].countP Call.isSet ≤ 6144) :
    ∃ r, call.run zeroK zeroV fuel m = .ok r ∧ r.2.Below hash (n + [call].countP Call.isSet) := by
  obtain ⟨hhash, p, hinv, hp, hload⟩ := h
  have hpure' : ∀ a b, (a == b) = true → m.hash a = m.hash b := hhash ▸ hpure
  have hsize := hinv.size_le
  cases call with
  | set key value =>
    have hroom : n + 1 ≤ 6144 := hroom
    obtain ⟨m', p', hm', hh, hinv', hp', hperm, hdead⟩ := map_set_small zeroK zeroV hinv hp (by omega) hpure' hfuel key value
    refine ⟨(.void, m'), by rw [Call.run, hm']; rfl, hh.trans hhash, p', hinv', hp', ?_⟩
    have hlen := hperm.length_eq.trans_le (length_insert_le _ key value)
    rw [length_entries, length_entries] at hlen
    show m'.slots.countP Slot.isUsed + m'.slots.countP Slot.isDead ≤ n + 1
    omega
  | get key => exact ⟨_, by rw [Call.run, map_get_spec hinv hpure' (show 2 ^ p ≤ fuel by omega)]; rfl, hhash, p, hinv, hp, hload⟩
  | has key => exact ⟨_, by rw [Call.run, map_has_spec hinv hpure' (show 2 ^ p ≤ fuel by omega)]; rfl, hhash, p, hinv, hp, hload⟩
  | remove key =>
    obtain ⟨m', hm', hh, hinv', -, hsame⟩ := map_remove_spec hinv hpure' (show 2 ^ p ≤ fuel by omega) key
    exact ⟨_, by rw [Call.run, hm']; rfl, hh.trans hhash, p, hinv', hp, hsame.trans_le hload⟩
  | clear =>
    obtain ⟨m', hm', hh, hinv', hempty⟩ := map_clear_spec hinv (show 2 ^ 14 < fuel by omega)
    refine ⟨(.void, m'), by rw [Call.run, hm']; rfl, hh.trans hhash, p, hinv', hp, ?_⟩
    rw [hempty, countP_replicate_empty _ _ rfl, countP_replicate_empty _ _ rfl]
    exact Nat.zero_le _
  | keys => exact ⟨_, by rw [Call.run, map_keys_spec zeroK hinv (show 2 ^ 14 < fuel by omega)]; rfl, hhash, p, hinv, hp, hload⟩

theorem runCalls_below (hpure : ∀ a b, (a == b) = true → hash a = hash b) (hfuel : 2 ^ 14 + 4 ≤ fuel) (calls : List (Call K V))
    {m : Map K V} {n : ℕ} (h : m.Below hash n) (hroom : n + calls.countP Call.isSet ≤ 6144) :
    ∃ r, runCalls zeroK zeroV fuel m calls = .ok r := by
  induction calls generalizing m n with
  | nil => exact ⟨_, rfl⟩
  | cons call calls ih =>
    have hcount : (call :: calls).countP Call.isSet = [call].countP Call.isSet + calls.countP Call.isSet := by
      rw [← List.countP_append, List.singleton_append]
    obtain ⟨r, hr, hbelow⟩ : ∃ r, call.run zeroK zeroV fuel m = .ok r ∧ r.2.Below hash (n + [call].countP Call.isSet) :=
      call_below hpure hfuel h call (by omega)
    obtain ⟨rs, hrs⟩ := ih hbelow (by omega)
    exact ⟨_, by rw [runCalls, hr]; simp only [bind, Except.bind, hrs]; rfl⟩

/-- However a map is used, it answers as a finite map does, and is sound after every call; it
panics only where a capacity asks for more slots than there are, or as many entries are set as
three quarters of 8192. -/
theorem map_refines_finite_map (hpure : ∀ a b, (a == b) = true → hash a = hash b) (hfuel : 2 ^ 14 + 4 ≤ fuel)
    (capacity : ℤ) (calls : List (Call K V)) :
    (mapProgram zeroK zeroV fuel capacity hash calls = .error (.panic "map capacity is too large") ∧ 16384 < capacity) ∨
    (mapProgram zeroK zeroV fuel capacity hash calls = .error (.panic "map capacity overflow") ∧
      (8192 < capacity ∨ 6144 < calls.countP Call.isSet)) ∨
    ∃ answers m p, mapProgram zeroK zeroV fuel capacity hash calls = .ok (answers, m) ∧
      AllAnswered (fun _ => none) calls answers ∧ m.Inv p ∧ 0 < m.slots.countP Slot.isEmpty ∧
      ∀ k, lookup (entries m.slots) k = calls.foldl Call.meaning (fun _ => none) k := by
  have hnew := map_new_ends zeroK zeroV (show 12 ≤ fuel by omega) capacity hash
  have hsmall {top : ℕ} (htop : 3 ≤ top ∧ top ≤ 14) (hcap : capacity ≤ 2 ^ top) :=
    map_new_small zeroK zeroV (show 12 ≤ fuel by omega) htop hcap hash
  unfold mapProgram
  generalize hm₀ : map_new zeroK zeroV fuel capacity hash = r at hnew hsmall ⊢
  cases hnew with
  | panics =>
    refine Or.inl ⟨rfl, not_le.mp fun hcap => ?_⟩
    obtain ⟨m, p, hok, -⟩ := hsmall (show 3 ≤ 14 ∧ 14 ≤ 14 by decide) hcap
    cases hok
  | returns m h =>
    obtain ⟨hh, p, hinv, hempty⟩ := h
    have hmeans : m.Means hash (fun _ => none) := ⟨hh, ⟨p, hinv⟩, fun k => by rw [hempty]; rfl⟩
    have hrun : Ends _ (runCalls zeroK zeroV fuel m calls) _ := runCalls_ends hpure hfuel calls hmeans
    generalize hr : runCalls zeroK zeroV fuel m calls = r at hrun
    refine Or.inr ?_
    cases hrun with
    | panics =>
      refine Or.inl ⟨hr, or_iff_not_imp_left.mpr fun hcap => not_le.mp fun hsets => ?_⟩
      obtain ⟨m', p', hok, -, hinv', hp', -, hslots⟩ := hsmall (show 3 ≤ 13 ∧ 13 ≤ 14 by decide) (not_lt.mp hcap)
      cases hok
      have hbelow : m.Below hash 0 := by
        refine ⟨hh, p', hinv', hp', ?_⟩
        rw [hslots, countP_replicate_empty _ _ rfl, countP_replicate_empty _ _ rfl]
      obtain ⟨rs, hrs⟩ : ∃ rs, runCalls zeroK zeroV fuel m calls = .ok rs := runCalls_below hpure hfuel calls hbelow (by omega)
      rw [hr] at hrs
      cases hrs
    | returns r h =>
      obtain ⟨hans, -, ⟨p', hinv'⟩, hf⟩ := h
      exact Or.inr ⟨r.1, r.2, p', hr, hans, hinv', hinv'.has_empty, hf⟩

/-- Every key of these has the same negative hash, and there are more of them than the eight
slots of the first table take. -/
def crowdedCalls : List (Call ℤ ℤ) :=
  [.set 1 10, .set 2 20, .remove 1, .get 2, .set 2 30, .set 3 40, .get 2, .has 1, .remove 3, .set 4 50, .set 5 60, .set 6 70,
    .set 7 80, .set 8 90, .set 9 100, .keys]

/-- They are all answered, and the table has grown. -/
theorem crowdedCalls_refine : ∃ answers m p, mapProgram 0 0 16388 8 (fun _ => -3) crowdedCalls = .ok (answers, m) ∧
    AllAnswered (fun _ => none) crowdedCalls answers ∧ m.Inv p ∧ 0 < m.slots.countP Slot.isEmpty ∧
    (∀ k, lookup (entries m.slots) k = crowdedCalls.foldl Call.meaning (fun _ => none) k) ∧ 8 < 2 ^ p := by
  rcases @map_refines_finite_map ℤ ℤ _ 0 0 16388 _ (fun _ => -3) (fun _ _ _ => rfl) (by decide) 8
    crowdedCalls with ⟨-, hcap⟩ | ⟨-, hcap | hsets⟩ | ⟨answers, m, p, h, hans, hinv, hempty, hmeans⟩
  · exact absurd hcap (by decide)
  · exact absurd hcap (by decide)
  · exact absurd hsets (by decide)
  · have hkeys : [2, 4, 5, 6, 7, 8, 9] ⊆ (entries m.slots).map Prod.fst := by
      intro k hk
      have hsome : (lookup (entries m.slots) k).isSome = true := by
        rw [hmeans]
        revert k
        decide
      rw [lookup, Option.isSome_map, List.find?_isSome] at hsome
      obtain ⟨e, he, heq⟩ := hsome
      exact List.mem_map.mpr ⟨e, he, eq_of_beq heq⟩
    have hcount := (List.subperm_of_subset (by decide) hkeys).length_le
    rw [List.length_map, length_entries] at hcount
    have hload := hinv.load
    have hseven : 7 ≤ m.slots.countP Slot.isUsed := hcount
    exact ⟨answers, m, p, h, hans, hinv, hempty, hmeans, by omega⟩

end Runs

end QuinLang.Std
