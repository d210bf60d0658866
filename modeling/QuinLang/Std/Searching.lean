import QuinLang.Std.Strings
import QuinLang.Std.MapRefinement

/-! Where one string occurs in another, and the search functions of `std/string.ql`. -/

namespace QuinLang.Std

open Loops

section Builtins

variable {s : Str} {i : ℕ}

theorem str_char_at_ok (h : i < s.bytes.length) : str_char_at s i = .ok (s.bytes[i].toNat : ℤ) := by
  rw [str_char_at, if_neg (by omega), Int.toNat_natCast, List.getElem?_eq_getElem h]

theorem short_lt (h : i < s.bytes.length) : i < 32767 := h.trans_le s.short

theorem newString_ok {bytes : List UInt8} (h : bytes.length ≤ 0x7FFF) : newString bytes = .ok ⟨bytes, h⟩ := dif_pos h

theorem char_to_str_ok (b : UInt8) : char_to_str b.toNat = .ok ⟨[b], by simp⟩ := by
  have hlt := b.toNat_lt
  rw [char_to_str, if_neg (by omega), newString_ok (by simp)]
  simp

theorem str_slice_ok {start stop : ℕ} (hle : start ≤ stop) (hstop : stop ≤ s.bytes.length) :
    str_slice s start stop = .ok ⟨(s.bytes.take stop).drop start, by have := s.short; simp; omega⟩ := by
  have hrange : ¬ ((start : ℤ) < 0 ∨ (stop : ℤ) > str_len s ∨ (start : ℤ) > stop) := by
    unfold str_len
    omega
  rw [str_slice, if_neg hrange]
  exact newString_ok _

theorem concat_ok {a b : Str} (h : a.bytes.length + b.bytes.length ≤ 0x7FFF) :
    concat a b = .ok ⟨a.bytes ++ b.bytes, by simpa using h⟩ := newString_ok _

end Builtins

/-- The needle stands in the text at this index. -/
def OccursAt (text needle : List UInt8) (i : ℕ) : Prop := i ≤ text.length ∧ needle <+: text.drop i

section Occurrences

variable {text needle : List UInt8} {i : ℕ}

theorem OccursAt.le (h : OccursAt text needle i) : i + needle.length ≤ text.length := by
  have hle := h.2.length_le
  rw [List.length_drop] at hle
  have := h.1
  omega

/-- Character by character. -/
theorem occursAt_iff : OccursAt text needle i ↔
    i + needle.length ≤ text.length ∧ ∀ j, j < needle.length → text[i + j]? = needle[j]? := by
  constructor
  · intro h
    refine ⟨h.le, fun j hj => ?_⟩
    rw [← List.getElem?_drop, List.getElem?_eq_getElem hj]
    exact List.prefix_iff_getElem?.mp h.2 j hj
  · rintro ⟨hle, hchars⟩
    refine ⟨by omega, ?_⟩
    rw [List.prefix_iff_eq_take]
    refine List.ext_getElem? fun j => ?_
    by_cases hj : j < needle.length
    · rw [List.getElem?_take_of_lt hj, List.getElem?_drop, hchars j hj]
    · rw [List.getElem?_eq_none (by omega), List.getElem?_eq_none (by rw [List.length_take]; omega)]

instance : Decidable (OccursAt text needle i) := inferInstanceAs (Decidable (_ ∧ _))

end Occurrences

section Matching

variable {s needle : Str} {fuel base k : ℕ}

theorem str_len_lt : (k : ℤ) < str_len s ↔ k < s.bytes.length := by
  unfold str_len
  omega

/-- The comparing loop goes on over a character that is the same. -/
theorem matchTurn_same (hk : k < needle.bytes.length) (hb : base + k < s.bytes.length) (h : s.bytes[base + k] = needle.bytes[k]) :
    matchTurn s needle base k = .ok (.inl ((k + 1 : ℕ) : ℤ)) := by
  have hshort := short_lt hb
  have hwrap : wrap16 ((base : ℤ) + k) = ((base + k : ℕ) : ℤ) := by
    rw [wrap16_of_range (by omega) (by omega)]
    push_cast
    rfl
  rw [matchTurn, if_pos (str_len_lt.mpr hk), hwrap, str_char_at_ok hb, str_char_at_ok hk, h, wrap16_succ (short_lt hk)]
  exact if_neg (not_not_intro rfl)

/-- And stops at the first that differs. -/
theorem matchTurn_differs (hk : k < needle.bytes.length) (hb : base + k < s.bytes.length) (h : s.bytes[base + k] ≠ needle.bytes[k]) :
    matchTurn s needle base k = .ok (.inr false) := by
  have hshort := short_lt hb
  have hwrap : wrap16 ((base : ℤ) + k) = ((base + k : ℕ) : ℤ) := by
    rw [wrap16_of_range (by omega) (by omega)]
    push_cast
    rfl
  have hne : (s.bytes[base + k].toNat : ℤ) ≠ needle.bytes[k].toNat := fun heq => h (UInt8.toNat_inj.mp (by exact_mod_cast heq))
  rw [matchTurn, if_pos (str_len_lt.mpr hk), hwrap, str_char_at_ok hb, str_char_at_ok hk]
  exact if_pos hne

theorem matchTurn_end (hk : needle.bytes.length ≤ k) : matchTurn s needle base k = .ok (.inr true) := by
  rw [matchTurn, if_neg (mt str_len_lt.mp (by omega))]
  rfl

/-- What the comparing loop has seen when it is at `k`. -/
def Same (text needle : List UInt8) (base k : ℕ) : Prop := k ≤ needle.length ∧ ∀ j, j < k → text[base + j]? = needle[j]?

theorem matchesAt_spec (hbase : base + needle.bytes.length ≤ s.bytes.length) (hfuel : 0x7FFF < fuel) :
    matchesAt fuel s needle base = .ok (decide (OccursAt s.bytes needle.bytes base)) := by
  obtain ⟨b, hloop, rfl⟩ := loop_returns Stop.outOfFuel (matchTurn s needle base) fuel (s := 0)
    (P := fun i => ∃ k : ℕ, i = k ∧ Same s.bytes needle.bytes base k)
    (Q := fun b => b = decide (OccursAt s.bytes needle.bytes base)) (fun i => needle.bytes.length - i.toNat)
    (by
      rintro _ ⟨k, rfl, hk, hsame⟩
      rcases hk.lt_or_eq with hlt | rfl
      · have hb : base + k < s.bytes.length := by omega
        by_cases heq : s.bytes[base + k] = needle.bytes[k]
        · refine .inl ⟨_, matchTurn_same hlt hb heq, ⟨k + 1, rfl, hlt, fun j hj => ?_⟩, by omega⟩
          rcases Nat.lt_succ_iff_lt_or_eq.mp hj with hj | rfl
          · exact hsame j hj
          · rw [List.getElem?_eq_getElem hb, List.getElem?_eq_getElem hlt, heq]
        · refine .inr ⟨_, matchTurn_differs hlt hb heq, (decide_eq_false fun hoccurs => heq ?_).symm⟩
          have hchar := (occursAt_iff.mp hoccurs).2 k hlt
          rw [List.getElem?_eq_getElem hb, List.getElem?_eq_getElem hlt] at hchar
          exact Option.some.inj hchar
      · refine .inr ⟨_, matchTurn_end le_rfl, (decide_eq_true (occursAt_iff.mpr ⟨hbase, hsame⟩)).symm⟩)
    ⟨0, rfl, Nat.zero_le _, fun j hj => absurd hj (Nat.not_lt_zero j)⟩ (by have := needle.short; omega)
  exact hloop

theorem str_starts_with_spec (s pre : Str) (hfuel : 0x7FFF < fuel) :
    str_starts_with fuel s pre = .ok (decide (OccursAt s.bytes pre.bytes 0)) := by
  rw [str_starts_with]
  by_cases h : pre.bytes.length ≤ s.bytes.length
  · rw [if_neg (by unfold str_len; omega)]
    exact matchesAt_spec (by rwa [Nat.zero_add]) hfuel
  · rw [if_pos (by unfold str_len; omega), decide_eq_false fun hoccurs => h (by have := hoccurs.le; omega)]
    rfl

theorem str_ends_with_spec (s suffix : Str) (hfuel : 0x7FFF < fuel) : ∃ b, str_ends_with fuel s suffix = .ok b ∧
    (b = true ↔ ∃ i, OccursAt s.bytes suffix.bytes i ∧ i + suffix.bytes.length = s.bytes.length) := by
  have hs := s.short
  have hsuffix := suffix.short
  rw [str_ends_with]
  by_cases h : suffix.bytes.length ≤ s.bytes.length
  · have hbase : wrap16 (str_len s - str_len suffix) = ((s.bytes.length - suffix.bytes.length : ℕ) : ℤ) := by
      unfold str_len
      rw [wrap16_of_range (by omega) (by omega)]
      omega
    simp only [hbase, if_neg (show ¬ ((s.bytes.length - suffix.bytes.length : ℕ) : ℤ) < 0 by omega)]
    refine ⟨_, matchesAt_spec (by omega) hfuel, ?_⟩
    rw [decide_eq_true_iff]
    constructor
    · exact fun hoccurs => ⟨_, hoccurs, by omega⟩
    · rintro ⟨i, hoccurs, heq⟩
      rwa [show s.bytes.length - suffix.bytes.length = i by omega]
  · have hbase : wrap16 (str_len s - str_len suffix) < 0 := by
      unfold str_len
      rw [wrap16_of_range (by omega) (by omega)]
      omega
    refine ⟨false, if_pos hbase, ?_⟩
    simp only [Bool.false_eq_true, false_iff]
    rintro ⟨i, -, heq⟩
    omega

end Matching

section Search

variable {s needle : Str} {fuel : ℕ}

theorem searchTurn_found {past : ℤ → Bool} {next : ℤ → ℤ} {k : ℕ} (hfuel : 0x7FFF < fuel) (hpast : past k = false)
    (h : OccursAt s.bytes needle.bytes k) : searchTurn fuel s needle past next k = .ok (.inr (k : ℤ)) := by
  rw [searchTurn, if_neg (by rw [hpast]; exact Bool.false_ne_true), matchesAt_spec h.le hfuel, decide_eq_true h]
  rfl

theorem searchTurn_next {past : ℤ → Bool} {next : ℤ → ℤ} {k : ℕ} (hfuel : 0x7FFF < fuel) (hpast : past k = false)
    (hk : k + needle.bytes.length ≤ s.bytes.length) (h : ¬ OccursAt s.bytes needle.bytes k) :
    searchTurn fuel s needle past next k = .ok (.inl (next k)) := by
  rw [searchTurn, if_neg (by rw [hpast]; exact Bool.false_ne_true), matchesAt_spec hk hfuel, decide_eq_false h]
  rfl

theorem searchTurn_past {past : ℤ → Bool} {next : ℤ → ℤ} {i : ℤ} (hpast : past i = true) :
    searchTurn fuel s needle past next i = .ok (.inr (-1)) := by
  rw [searchTurn, if_pos hpast, wrap16_neg_one]
  rfl

/-- The first index where the needle occurs, or -1. -/
theorem str_index_of_spec (s needle : Str) (hfuel : 0x7FFF + 1 < fuel) : ∃ r, str_index_of fuel s needle = .ok r ∧
    ((r = -1 ∧ ∀ i, ¬ OccursAt s.bytes needle.bytes i) ∨
      ∃ i : ℕ, r = i ∧ OccursAt s.bytes needle.bytes i ∧ ∀ j, OccursAt s.bytes needle.bytes j → i ≤ j) := by
  have hs := s.short
  have hn := needle.short
  have hlimit : wrap16 (str_len s - str_len needle) = (s.bytes.length : ℤ) - needle.bytes.length := by
    unfold str_len
    exact wrap16_of_range (by omega) (by omega)
  rw [str_index_of, hlimit]
  refine loop_returns _ _ _ (P := fun i : ℤ => ∃ k : ℕ, i = k ∧ k ≤ s.bytes.length + 1 ∧ ∀ j, j < k → ¬ OccursAt s.bytes needle.bytes j)
    (fun i : ℤ => s.bytes.length + 1 - i.toNat) ?_ ⟨0, rfl, Nat.zero_le _, fun j hj => absurd hj (Nat.not_lt_zero j)⟩ (by omega)
  rintro _ ⟨k, rfl, hk, hbefore⟩
  by_cases hin : k + needle.bytes.length ≤ s.bytes.length
  · have hpast : decide ((s.bytes.length : ℤ) - needle.bytes.length < k) = false := decide_eq_false (by omega)
    by_cases hoccurs : OccursAt s.bytes needle.bytes k
    · refine .inr ⟨k, searchTurn_found (by omega) hpast hoccurs, .inr ⟨k, rfl, hoccurs, fun j hj => ?_⟩⟩
      by_contra hlt
      exact hbefore j (by omega) hj
    · -- the needle is not empty, or it would occur here
      have hlt : k < s.bytes.length := by
        by_contra hge
        have hnil : needle.bytes.length = 0 := by omega
        exact hoccurs ⟨by omega, by rw [List.length_eq_zero_iff.mp hnil]; exact List.nil_prefix⟩
      refine .inl ⟨((k + 1 : ℕ) : ℤ), ?_, ⟨k + 1, rfl, by omega, fun j hj => ?_⟩, by omega⟩
      · rw [searchTurn_next (by omega) hpast hin hoccurs, wrap16_succ (by omega)]
      · rcases Nat.lt_succ_iff_lt_or_eq.mp hj with hj | rfl
        · exact hbefore j hj
        · exact hoccurs
  · refine .inr ⟨-1, searchTurn_past (decide_eq_true (by omega)), .inl ⟨rfl, fun i hi => ?_⟩⟩
    exact hbefore i (by have := hi.le; omega) hi

/-- The last index where the needle occurs, or -1. -/
theorem str_last_index_of_spec (s needle : Str) (hfuel : 0x7FFF + 1 < fuel) : ∃ r, str_last_index_of fuel s needle = .ok r ∧
    ((r = -1 ∧ ∀ i, ¬ OccursAt s.bytes needle.bytes i) ∨
      ∃ i : ℕ, r = i ∧ OccursAt s.bytes needle.bytes i ∧ ∀ j, OccursAt s.bytes needle.bytes j → j ≤ i) := by
  have hs := s.short
  have hn := needle.short
  have hstart : wrap16 (str_len s - str_len needle) = (s.bytes.length : ℤ) - needle.bytes.length := by
    unfold str_len
    exact wrap16_of_range (by omega) (by omega)
  rw [str_last_index_of, hstart]
  refine loop_returns _ _ _ (P := fun i : ℤ => i + needle.bytes.length ≤ s.bytes.length ∧
      ∀ j : ℕ, i < j → ¬ OccursAt s.bytes needle.bytes j)
    (fun i : ℤ => (i + 1).toNat) ?_ ⟨by omega, fun j hj hoccurs => by have := hoccurs.le; omega⟩ (by omega)
  rintro i ⟨hi, hafter⟩
  by_cases hneg : i < 0
  · refine .inr ⟨-1, searchTurn_past (decide_eq_true hneg), .inl ⟨rfl, fun j => hafter j (by omega)⟩⟩
  · obtain ⟨k, rfl⟩ := Int.eq_ofNat_of_zero_le (not_lt.mp hneg)
    have hpast : decide ((k : ℤ) < 0) = false := decide_eq_false hneg
    by_cases hoccurs : OccursAt s.bytes needle.bytes k
    · refine .inr ⟨k, searchTurn_found (by omega) hpast hoccurs, .inr ⟨k, rfl, hoccurs, fun j hj => ?_⟩⟩
      by_contra hlt
      exact hafter j (by omega) hj
    · refine .inl ⟨(k : ℤ) - 1, ?_, ⟨by omega, fun j hj => ?_⟩, by omega⟩
      · rw [searchTurn_next (by omega) hpast (by omega) hoccurs, wrap16_of_range (by omega) (by omega)]
      · by_cases hjk : j = k
        · exact hjk ▸ hoccurs
        · exact hafter j (by omega)

theorem str_contains_spec (s needle : Str) (hfuel : 0x7FFF + 1 < fuel) : ∃ b, str_contains fuel s needle = .ok b ∧
    (b = true ↔ ∃ i, OccursAt s.bytes needle.bytes i) := by
  obtain ⟨r, hr, hspec⟩ := str_index_of_spec s needle hfuel
  refine ⟨decide (r ≥ 0), by rw [str_contains, hr]; rfl, ?_⟩
  rw [decide_eq_true_iff]
  rcases hspec with ⟨rfl, hnone⟩ | ⟨i, rfl, hi, -⟩
  · exact ⟨fun h => absurd h (by decide), fun ⟨i, hi⟩ => absurd hi (hnone i)⟩
  · exact ⟨fun _ => ⟨i, hi⟩, fun _ => by omega⟩

/-- Every search answers, and answers what it is asked: where the needle first and last
occurs, and whether it occurs at all, at the start and at the end. -/
theorem string_search_exact (s needle : Str) (hfuel : 0x7FFF + 1 < fuel) :
    (∃ r, str_index_of fuel s needle = .ok r ∧ ((r = -1 ∧ ∀ i, ¬ OccursAt s.bytes needle.bytes i) ∨
      ∃ i : ℕ, r = i ∧ OccursAt s.bytes needle.bytes i ∧ ∀ j, OccursAt s.bytes needle.bytes j → i ≤ j)) ∧
    (∃ r, str_last_index_of fuel s needle = .ok r ∧ ((r = -1 ∧ ∀ i, ¬ OccursAt s.bytes needle.bytes i) ∨
      ∃ i : ℕ, r = i ∧ OccursAt s.bytes needle.bytes i ∧ ∀ j, OccursAt s.bytes needle.bytes j → j ≤ i)) ∧
    (∃ b, str_contains fuel s needle = .ok b ∧ (b = true ↔ ∃ i, OccursAt s.bytes needle.bytes i)) ∧
    (∃ b, str_starts_with fuel s needle = .ok b ∧ (b = true ↔ OccursAt s.bytes needle.bytes 0)) ∧
    ∃ b, str_ends_with fuel s needle = .ok b ∧
      (b = true ↔ ∃ i, OccursAt s.bytes needle.bytes i ∧ i + needle.bytes.length = s.bytes.length) :=
  ⟨str_index_of_spec s needle hfuel, str_last_index_of_spec s needle hfuel, str_contains_spec s needle hfuel,
    ⟨_, str_starts_with_spec s needle (by omega), decide_eq_true_iff⟩, str_ends_with_spec s needle (by omega)⟩

/-- "ab" in "abab" -/
theorem string_search_abab : str_starts_with 0x8001 ⟨[97, 98, 97, 98], by decide⟩ ⟨[97, 98], by decide⟩ = .ok true ∧
    str_ends_with 0x8001 ⟨[97, 98, 97, 98], by decide⟩ ⟨[97, 98], by decide⟩ = .ok true := by
  obtain ⟨-, -, -, ⟨starts, hstarts, hat⟩, ends, hends, hafter⟩ :=
    string_search_exact ⟨[97, 98, 97, 98], by decide⟩ ⟨[97, 98], by decide⟩ (show 0x7FFF + 1 < 0x8001 by decide)
  rw [hstarts, hends, hat.mpr ⟨by decide, by decide⟩, hafter.mpr ⟨2, ⟨by decide, by decide⟩, rfl⟩]
  exact ⟨rfl, rfl⟩

end Search

end QuinLang.Std
