import Mathlib

/-! Open addressing with linear probing. A table is a list of slots; what makes it sound
is that a walk from the home of a key it holds meets the key before any empty slot. Its
entries, in whatever order the slots give them, are a finite map. -/

namespace Probing

variable {K V : Type}

inductive Slot (K V : Type)
  | empty
  /-- held a key that was removed -/
  | dead
  | used (key : K) (value : V)

def Slot.entry? : Slot K V → Option (K × V)
  | used k v => some (k, v)
  | _ => none

def Slot.isUsed : Slot K V → Bool
  | used _ _ => true
  | _ => false

def Slot.isDead : Slot K V → Bool
  | dead => true
  | _ => false

def Slot.isEmpty : Slot K V → Bool
  | empty => true
  | _ => false

abbrev Table (K V : Type) := List (Slot K V)

def entries (t : Table K V) : List (K × V) := t.filterMap Slot.entry?

section FiniteMap

variable [BEq K]

/-! Finite maps as lists of entries whose order means nothing. -/

def Distinct (es : List (K × V)) : Prop := es.Pairwise fun a b => (a.1 == b.1) = false

def lookup (es : List (K × V)) (k : K) : Option V := (es.find? fun e => e.1 == k).map Prod.snd

/-- A key already there stays and takes the new value. -/
def insert (es : List (K × V)) (k : K) (v : V) : List (K × V) :=
  if es.any fun e => e.1 == k then es.map fun e => if e.1 == k then (e.1, v) else e else (k, v) :: es

def erase (es : List (K × V)) (k : K) : List (K × V) := es.filter fun e => !(e.1 == k)

theorem insert_perm {es es' : List (K × V)} (h : es.Perm es') (k : K) (v : V) :
    (insert es k v).Perm (insert es' k v) := by
  have hany : (es.any fun e => e.1 == k) = es'.any fun e => e.1 == k := h.any_eq
  unfold insert
  rw [hany]
  split
  · exact h.map _
  · exact h.cons _

theorem length_insert_le (es : List (K × V)) (k : K) (v : V) : (insert es k v).length ≤ es.length + 1 := by
  unfold insert
  split
  · rw [List.length_map]
    exact Nat.le_succ _
  · rfl

theorem erase_perm {es es' : List (K × V)} (h : es.Perm es') (k : K) : (erase es k).Perm (erase es' k) :=
  h.filter _

variable {es : List (K × V)} {k k' : K} {v v' : V}

theorem insert_of_absent (h : ∀ e ∈ es, (e.1 == k) = false) (v : V) : insert es k v = (k, v) :: es := by
  rw [insert, if_neg]
  simp only [List.any_eq_true, not_exists, not_and, Bool.not_eq_true]
  exact h

theorem insert_of_head (h : (k' == k) = true) (hes : ∀ e ∈ es, (e.1 == k) = false) :
    insert ((k', v') :: es) k v = (k', v) :: es := by
  have hmap : es.map (fun e => if e.1 == k then (e.1, v) else e) = es :=
    (List.map_congr_left fun e he => by simp [hes e he]).trans (List.map_id es)
  rw [insert, if_pos (by simp [h])]
  simp [h, hmap]

theorem erase_of_head (h : (k' == k) = true) (hes : ∀ e ∈ es, (e.1 == k) = false) :
    erase ((k', v') :: es) k = es := by
  simp only [erase, List.filter_cons, h]
  exact List.filter_eq_self.mpr fun e he => by simp [hes e he]

theorem erase_of_absent (hes : ∀ e ∈ es, (e.1 == k) = false) : erase es k = es :=
  List.filter_eq_self.mpr fun e he => by simp [hes e he]

theorem lookup_of_absent (hes : ∀ e ∈ es, (e.1 == k) = false) : lookup es k = none := by
  rw [lookup, List.find?_eq_none.mpr fun e he => by simp [hes e he]]
  rfl

variable [EquivBEq K]

/-- Inserting changes what one key is mapped to. -/
theorem lookup_insert (es : List (K × V)) (k k' : K) (v : V) :
    lookup (insert es k v) k' = if k == k' then some v else lookup es k' := by
  by_cases hany : (es.any fun e => e.1 == k) = true
  · rw [insert, if_pos hany]
    induction es with
    | nil => cases hany
    | cons e es ih =>
      have hcong : (e.1 == k) = true → (e.1 == k') = (k == k') := fun h => BEq.congr_left h
      have hrest : (es.any fun e => e.1 == k) = false →
          es.map (fun e => if e.1 == k then (e.1, v) else e) = es := fun h =>
        (List.map_congr_left fun e he => by
          rw [List.any_eq_false] at h
          simp [h e he]).trans (List.map_id es)
      simp only [lookup, List.map_cons, List.find?_cons] at ih ⊢
      cases hek : e.1 == k with
      | true =>
        simp only [if_true, hcong hek]
        cases hkk : k == k' with
        | true => simp
        | false =>
          simp only [hkk, Bool.false_eq_true, if_false] at ih ⊢
          cases hr : es.any fun e => e.1 == k with
          | true => exact ih hr
          | false => rw [hrest hr]
      | false =>
        simp only [Bool.false_eq_true, if_false]
        have hr : (es.any fun e => e.1 == k) = true := by simpa [hek] using hany
        cases hek' : e.1 == k' with
        | true =>
          have : (k == k') = false := by
            by_contra h
            rw [Bool.not_eq_false] at h
            rw [BEq.trans hek' (BEq.symm h)] at hek
            cases hek
          simp [this]
        | false => exact ih hr
  · rw [insert, if_neg hany]
    simp only [lookup, List.find?_cons]
    cases hkk : k == k' <;> simp

theorem lookup_erase (es : List (K × V)) (k k' : K) :
    lookup (erase es k) k' = if k == k' then none else lookup es k' := by
  have hcong : ∀ e : K × V, (k == k') = true → (e.1 == k') = (e.1 == k) := fun e h => (BEq.congr_right h).symm
  rw [lookup, erase, List.find?_filter]
  split
  · rename_i h
    rw [List.find?_eq_none.mpr fun e _ => by simp [hcong e h], Option.map_none]
  · rename_i h
    rw [lookup]
    congr 2
    funext e
    cases hek : e.1 == k' with
    | false => simp
    | true =>
      have : (e.1 == k) = false := by
        by_contra hk
        rw [Bool.not_eq_false] at hk
        exact h (BEq.trans (BEq.symm hk) hek)
      simp [this]

theorem Distinct.perm (hd : Distinct es) {es' : List (K × V)} (h : es.Perm es') : Distinct es' :=
  (h.pairwise_iff fun {a b} hab => by rw [BEq.comm]; exact hab).mp hd

theorem Distinct.lookup (hd : Distinct es) (he : (k', v) ∈ es) (hk : (k' == k) = true) :
    lookup es k = some v := by
  induction es with
  | nil => cases he
  | cons e es ih =>
    obtain ⟨hne, hd⟩ := List.pairwise_cons.mp hd
    rcases List.mem_cons.mp he with rfl | he
    · simp [Probing.lookup, hk]
    · have hek : (e.1 == k) = false := by
        by_contra h
        have := BEq.trans (Bool.not_eq_false _ ▸ h) (BEq.symm hk)
        simp [hne _ he] at this
      have := ih hd he
      simpa [Probing.lookup, hek] using this

theorem Distinct.lookup_perm (hd : Distinct es) {es' : List (K × V)} (h : es.Perm es') (k : K) :
    Probing.lookup es k = Probing.lookup es' k := by
  by_cases hk : ∃ e ∈ es, (e.1 == k) = true
  · obtain ⟨⟨k', v⟩, he, hek⟩ := hk
    rw [hd.lookup he hek, (hd.perm h).lookup (h.mem_iff.mp he) hek]
  · have hes : ∀ e ∈ es, (e.1 == k) = false := by simpa using hk
    rw [lookup_of_absent hes, lookup_of_absent fun e he => hes e (h.mem_iff.mpr he)]

end FiniteMap

section Tables

variable {t : Table K V} {home : K → ℕ} {j : ℕ}

theorem exists_split {x : Slot K V} (h : t[j]? = some x) :
    ∃ l r, t = l ++ x :: r ∧ l.length = j := by
  obtain ⟨hj, rfl⟩ := List.getElem?_eq_some_iff.mp h
  exact ⟨t.take j, t.drop (j + 1), by simp, by simp; omega⟩

theorem set_split {l r : Table K V} {x y : Slot K V} (hl : l.length = j) :
    (l ++ x :: r).set j y = l ++ y :: r := by
  subst hl
  simp

theorem entries_set {x y : Slot K V} (h : t[j]? = some x) :
    (x.entry?.toList ++ entries (t.set j y)).Perm (y.entry?.toList ++ entries t) := by
  obtain ⟨l, r, rfl, hl⟩ := exists_split h
  have hcons : ∀ (z : Slot K V) r, entries (z :: r) = z.entry?.toList ++ entries r := by
    intro z r
    cases z <;> rfl
  rw [set_split hl]
  simp only [entries, List.filterMap_append] at hcons ⊢
  rw [hcons, hcons]
  generalize x.entry?.toList = X, y.entry?.toList = Y, List.filterMap Slot.entry? l = L,
    List.filterMap Slot.entry? r = R
  exact (List.perm_append_comm_assoc X L (Y ++ R)).trans
    (((List.perm_append_comm_assoc X Y R).append_left L).trans (List.perm_append_comm_assoc L Y (X ++ R)))

theorem countP_set {x y : Slot K V} (h : t[j]? = some x) (p : Slot K V → Bool) :
    (t.set j y).countP p + (if p x then 1 else 0) = t.countP p + if p y then 1 else 0 := by
  obtain ⟨l, r, rfl, hl⟩ := exists_split h
  rw [set_split hl]
  simp only [List.countP_append, List.countP_cons]
  omega

theorem countP_slots (t : Table K V) :
    t.countP Slot.isUsed + t.countP Slot.isDead + t.countP Slot.isEmpty = t.length := by
  induction t with
  | nil => rfl
  | cons x t ih => cases x <;> simp [List.countP_cons, Slot.isUsed, Slot.isDead, Slot.isEmpty] <;> omega

theorem length_entries (t : Table K V) : (entries t).length = t.countP Slot.isUsed := by
  induction t with
  | nil => rfl
  | cons x t ih =>
    unfold entries at ih ⊢
    cases x <;> simp [List.filterMap_cons, List.countP_cons, Slot.entry?, Slot.isUsed, ih]

theorem entries_take_succ {i : ℕ} {x : Slot K V} (h : t[i]? = some x) :
    entries (t.take (i + 1)) = entries (t.take i) ++ x.entry?.toList := by
  rw [List.take_add_one, h, entries, List.filterMap_append]
  cases x <;> rfl

theorem length_entries_take (t : Table K V) (i : ℕ) : (entries (t.take i)).length ≤ t.countP Slot.isUsed := by
  rw [← length_entries]
  exact ((List.take_sublist i t).filterMap _).length_le

theorem mem_entries {k : K} {v : V} : (k, v) ∈ entries t ↔ ∃ j : ℕ, t[j]? = some (Slot.used k v) := by
  simp only [entries, List.mem_filterMap, ← List.mem_iff_getElem?]
  constructor
  · rintro ⟨x, hx, he⟩
    cases x <;> simp_all [Slot.entry?]
  · exact fun h => ⟨_, h, rfl⟩

variable [BEq K]

/-- Every key is met from its home before an empty slot, and no two are the same. -/
structure Sound (home : K → ℕ) (t : Table K V) : Prop where
  reach : ∀ (j : ℕ) k v, t[j]? = some (Slot.used k v) → ∃ d, d < t.length ∧ (home k + d) % t.length = j ∧
    ∀ e < d, t[(home k + e) % t.length]? ≠ some Slot.empty
  distinct : ∀ (i j : ℕ) k v k' v', t[i]? = some (Slot.used k v) → t[j]? = some (Slot.used k' v') →
    (k == k') = true → i = j

/-- A walk from the home of `k` has passed `d` slots, none of them empty or holding `k`. -/
def Passed (home : K → ℕ) (t : Table K V) (k : K) (d : ℕ) : Prop :=
  ∀ e < d, t[(home k + e) % t.length]? ≠ some Slot.empty ∧
    ∀ k' v, t[(home k + e) % t.length]? = some (Slot.used k' v) → (k' == k) = false

theorem Passed.zero (home : K → ℕ) (t : Table K V) (k : K) : Passed home t k 0 := fun _ h => nomatch h

theorem Passed.succ {k : K} {d : ℕ} (h : Passed home t k d)
    (he : t[(home k + d) % t.length]? ≠ some Slot.empty)
    (hk : ∀ k' v, t[(home k + d) % t.length]? = some (Slot.used k' v) → (k' == k) = false) :
    Passed home t k (d + 1) := fun e hlt => by
  rcases Nat.lt_succ_iff_lt_or_eq.mp hlt with hlt | rfl
  · exact h e hlt
  · exact ⟨he, hk⟩

theorem sound_replicate (home : K → ℕ) (n : ℕ) : Sound home (List.replicate n (Slot.empty : Slot K V)) where
  reach j k v h := by simp [List.getElem?_replicate] at h
  distinct i j k v k' v' h := by simp [List.getElem?_replicate] at h

namespace Sound

variable [EquivBEq K] {k k' : K} {v v' : V} {d : ℕ}

omit [EquivBEq K] in
theorem distinct_entries (h : Sound home t) : Distinct (entries t) := by
  rw [Distinct, entries, List.pairwise_filterMap, List.pairwise_iff_getElem]
  intro i j hi hj hij a ha b hb
  obtain ⟨ka, va⟩ := a
  obtain ⟨kb, vb⟩ := b
  have hused : ∀ (x : Slot K V) k v, x.entry? = some (k, v) → x = .used k v := by
    intro x k v hx
    cases x <;> simp_all [Slot.entry?]
  by_contra hne
  refine hij.ne (h.distinct i j ka va kb vb ?_ ?_ (by simpa using hne))
  · rw [List.getElem?_eq_getElem hi, hused _ _ _ ha]
  · rw [List.getElem?_eq_getElem hj, hused _ _ _ hb]

omit [EquivBEq K] in
/-- The entries before a slot do not have its key. -/
theorem absent_take (h : Sound home t) (hj : t[j]? = some (Slot.used k v)) :
    ∀ e ∈ entries (t.take j), (e.1 == k) = false := by
  have hsub : (entries (t.take j) ++ [(k, v)]).Sublist (entries t) := by
    have := (List.take_sublist (j + 1) t).filterMap Slot.entry?
    rwa [← entries, entries_take_succ hj] at this
  have hd := h.distinct_entries.sublist hsub
  exact fun e he => (List.pairwise_append.mp hd).2.2 e he (k, v) (List.mem_singleton_self _)

/-- The entry of a slot apart from all others. -/
theorem entries_split (h : Sound home t) (hj : t[j]? = some (Slot.used k v)) :
    (entries t).Perm ((k, v) :: entries (t.set j .dead)) ∧
    (∀ w, (entries (t.set j (Slot.used k w))).Perm ((k, w) :: entries (t.set j .dead))) ∧
    ∀ key, (k == key) = true → ∀ e ∈ entries (t.set j .dead), (e.1 == key) = false := by
  have hjlt : j < t.length := (List.getElem?_eq_some_iff.mp hj).1
  have hperm : (entries t).Perm ((k, v) :: entries (t.set j .dead)) :=
    (entries_set (y := Slot.dead) hj).symm
  refine ⟨hperm, fun w => ?_, fun key hk e he => ?_⟩
  · have hd : (t.set j Slot.dead)[j]? = some Slot.dead := by simp [hjlt]
    have := entries_set (y := Slot.used k w) hd
    rwa [List.set_set] at this
  · have hhead := (List.pairwise_cons.mp (h.distinct_entries.perm hperm)).1 e he
    by_contra hek
    rw [Bool.not_eq_false] at hek
    have := BEq.trans hk (BEq.symm hek)
    simp [this] at hhead

/-- Overwriting the value of a key is inserting it. -/
theorem entries_overwrite (h : Sound home t) (hj : t[j]? = some (Slot.used k v)) (hk : (k == k') = true) (w : V) :
    (entries (t.set j (Slot.used k w))).Perm (insert (entries t) k' w) := by
  obtain ⟨hperm, hset, habs⟩ := h.entries_split hj
  refine (hset w).trans (.trans (.of_eq ?_) (insert_perm hperm k' w).symm)
  exact (insert_of_head hk (habs k' hk)).symm

theorem entries_kill (h : Sound home t) (hj : t[j]? = some (Slot.used k v)) (hk : (k == k') = true) :
    (entries (t.set j .dead)).Perm (erase (entries t) k') := by
  obtain ⟨hperm, -, habs⟩ := h.entries_split hj
  refine .trans (.of_eq ?_) (erase_perm hperm k').symm
  exact (erase_of_head hk (habs k' hk)).symm

omit [EquivBEq K] in
/-- A walk that stops at an empty slot shows that the key is not in the table. -/
theorem absent (h : Sound home t) (hhome : ∀ a b, (a == b) = true → home a = home b)
    (hp : Passed home t k d) (he : t[(home k + d) % t.length]? = some Slot.empty) :
    ∀ e ∈ entries t, (e.1 == k) = false := by
  rintro ⟨k', v⟩ hm
  obtain ⟨j, hj⟩ := mem_entries.mp hm
  by_contra hk
  rw [Bool.not_eq_false] at hk
  obtain ⟨d', -, hat, hbefore⟩ := h.reach j k' v hj
  rw [hhome k' k hk] at hat hbefore
  rcases lt_trichotomy d' d with hlt | rfl | hlt
  · have := (hp d' hlt).2 k' v (hat ▸ hj)
    rw [hk] at this
    cases this
  · rw [hat, hj] at he
    cases he
  · exact hbefore d hlt he

/-- Writing a key that is not there where its walk can reach it. -/
theorem set_used (h : Sound home t) (hx : ∀ k' v', t[j]? ≠ some (Slot.used k' v')) (hd : d < t.length)
    (hj : (home k + d) % t.length = j) (hne : ∀ e < d, t[(home k + e) % t.length]? ≠ some Slot.empty)
    (habs : ∀ e ∈ entries t, (e.1 == k) = false) (v : V) : Sound home (t.set j (Slot.used k v)) := by
  have hjlt : j < t.length := hj ▸ Nat.mod_lt _ (by omega)
  have hkeep : ∀ i : ℕ, t[i]? ≠ some Slot.empty → (t.set j (Slot.used k v))[i]? ≠ some Slot.empty := by
    intro i hi
    rw [List.getElem?_set]
    split
    · simp
    · exact hi
  have hget : ∀ (i : ℕ) k' v', (t.set j (Slot.used k v))[i]? = some (Slot.used k' v') →
      i = j ∧ k' = k ∨ i ≠ j ∧ t[i]? = some (Slot.used k' v') := by
    intro i k' v' hi
    rw [List.getElem?_set] at hi
    split at hi
    · simp only [Option.some.injEq, Slot.used.injEq] at hi
      exact Or.inl ⟨by omega, hi.1.symm⟩
    · exact Or.inr ⟨by omega, hi⟩
  constructor
  · intro i k' v' hi
    simp only [List.length_set]
    rcases hget i k' v' hi with ⟨rfl, rfl⟩ | ⟨-, hi⟩
    · exact ⟨d, hd, hj, fun e he => hkeep _ (hne e he)⟩
    · obtain ⟨d', hd', hat, hb⟩ := h.reach i k' v' hi
      exact ⟨d', hd', hat, fun e he => hkeep _ (hb e he)⟩
  · intro i i' k₁ v₁ k₂ v₂ h₁ h₂ heq
    rcases hget i k₁ v₁ h₁ with ⟨rfl, rfl⟩ | ⟨hij, h₁⟩ <;> rcases hget i' k₂ v₂ h₂ with ⟨hi', hk'⟩ | ⟨hij', h₂⟩
    · exact hi'.symm
    · have := habs _ (mem_entries.mpr ⟨i', h₂⟩)
      rw [BEq.comm, heq] at this
      cases this
    · have := habs _ (mem_entries.mpr ⟨i, h₁⟩)
      rw [← hk', heq] at this
      cases this
    · exact h.distinct i i' k₁ v₁ k₂ v₂ h₁ h₂ heq

omit [EquivBEq K] in
/-- Changing the slot of a key to hold the key still, or to be dead. -/
theorem set_kept (h : Sound home t) (hj : t[j]? = some (Slot.used k v)) {y : Slot K V} (hy : y ≠ .empty)
    (hk : ∀ k' v', y = .used k' v' → k' = k) : Sound home (t.set j y) := by
  have hjlt : j < t.length := (List.getElem?_eq_some_iff.mp hj).1
  have hkeep : ∀ i : ℕ, t[i]? ≠ some Slot.empty → (t.set j y)[i]? ≠ some Slot.empty := by
    intro i hi
    rw [List.getElem?_set]
    split
    · simpa [hjlt] using hy
    · exact hi
  have hget : ∀ (i : ℕ) k' v', (t.set j y)[i]? = some (Slot.used k' v') → ∃ v₀, t[i]? = some (Slot.used k' v₀) := by
    intro i k' v' hi
    rw [List.getElem?_set] at hi
    split at hi
    · simp only [Option.some.injEq] at hi
      rename_i hij
      exact ⟨v, by rw [← hij, hj, hk k' v' hi]⟩
    · exact ⟨v', hi⟩
  constructor
  · intro i k' v' hi
    simp only [List.length_set]
    obtain ⟨v₀, hi⟩ := hget i k' v' hi
    obtain ⟨d', hd', hat, hb⟩ := h.reach i k' v₀ hi
    exact ⟨d', hd', hat, fun e he => hkeep _ (hb e he)⟩
  · intro i i' k₁ v₁ k₂ v₂ h₁ h₂ heq
    obtain ⟨w₁, h₁⟩ := hget i k₁ v₁ h₁
    obtain ⟨w₂, h₂⟩ := hget i' k₂ v₂ h₂
    exact h.distinct i i' k₁ w₁ k₂ w₂ h₁ h₂ heq

end Sound

omit [BEq K] in
/-- A walk meets an empty slot within one turn of a table that has one. -/
theorem exists_empty (h : 0 < t.countP Slot.isEmpty) (start : ℕ) :
    ∃ d < t.length, t[(start + d) % t.length]? = some Slot.empty := by
  obtain ⟨x, hx, he⟩ := List.countP_pos_iff.mp h
  obtain ⟨i, hi, rfl⟩ := List.mem_iff_getElem.mp hx
  have hempty : t[i] = .empty := by
    cases hti : t[i] <;> simp_all [Slot.isEmpty]
  refine ⟨(i + (t.length - start % t.length)) % t.length, Nat.mod_lt _ (by omega), ?_⟩
  have hmod : (start + (i + (t.length - start % t.length)) % t.length) % t.length = i := by
    have hs := Nat.mod_lt start (show 0 < t.length by omega)
    rw [Nat.add_mod, Nat.mod_mod, ← Nat.add_mod, ← Nat.mod_add_div start t.length]
    rw [show start % t.length + t.length * (start / t.length) +
        (i + (t.length - (start % t.length + t.length * (start / t.length)) % t.length)) =
        i + t.length + t.length * (start / t.length) by
      rw [Nat.add_mul_mod_self_left, Nat.mod_mod]; omega]
    rw [Nat.add_mul_mod_self_left, Nat.add_mod_right, Nat.mod_eq_of_lt hi]
  rw [hmod, List.getElem?_eq_getElem hi, hempty]

end Tables

end Probing
