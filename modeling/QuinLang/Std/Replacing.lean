import QuinLang.Std.Searching

/-! Replacement: every leftmost occurrence that does not overlap an earlier one. -/

namespace QuinLang.Std

open Loops

/-- The text read from the left, an occurrence of `find` wherever one starts, and any other
character as it is. -/
inductive Replaced (find replace : List UInt8) : List UInt8 → List UInt8 → Prop
  | done : Replaced find replace [] []
  | hit {rest out : List UInt8} : Replaced find replace rest out → Replaced find replace (find ++ rest) (replace ++ out)
  | copy {c : UInt8} {rest out : List UInt8} : ¬ find <+: c :: rest → Replaced find replace rest out →
      Replaced find replace (c :: rest) (c :: out)

section Scanning

variable {find replace text out : List UInt8}

theorem Replaced.exists (hfind : find ≠ []) (replace text : List UInt8) : ∃ out, Replaced find replace text out := by
  induction hlen : text.length using Nat.strong_induction_on generalizing text with
  | _ n ih =>
    subst hlen
    cases text with
    | nil => exact ⟨[], .done⟩
    | cons c rest =>
      by_cases h : find <+: c :: rest
      · obtain ⟨tail, htail⟩ := h
        have hlt : tail.length < (c :: rest).length := by
          have := List.length_pos_iff.mpr hfind
          rw [← htail, List.length_append]
          omega
        obtain ⟨out, hout⟩ := ih _ hlt tail rfl
        exact ⟨replace ++ out, htail ▸ .hit hout⟩
      · obtain ⟨out, hout⟩ := ih _ (Nat.lt_succ_self _) rest rfl
        exact ⟨c :: out, .copy h hout⟩

theorem Replaced.unique (hfind : find ≠ []) {out' : List UInt8} (h : Replaced find replace text out)
    (h' : Replaced find replace text out') : out = out' := by
  induction h generalizing out' with
  | done =>
    generalize htext : ([] : List UInt8) = text at h'
    cases h' with
    | done => rfl
    | hit => exact absurd (List.append_eq_nil_iff.mp htext.symm).1 hfind
    | copy => cases htext
  | @hit rest out h ih =>
    generalize htext : find ++ rest = text at h'
    cases h' with
    | done => exact absurd (List.append_eq_nil_iff.mp htext).1 hfind
    | hit h' => rw [ih (List.append_cancel_left htext ▸ h')]
    | copy hno => exact absurd ⟨rest, htext⟩ hno
  | @copy c rest out hno h ih =>
    generalize htext : c :: rest = text at h'
    cases h' with
    | done => cases htext
    | hit => exact absurd ⟨_, htext.symm⟩ hno
    | copy hno' h' =>
      cases htext
      rw [ih h']

/-- Where nothing is found, nothing is changed. -/
theorem Replaced.eq_self (h : Replaced find replace text out) (hno : ∀ i, ¬ OccursAt text find i) : out = text := by
  induction h with
  | done => rfl
  | hit => exact absurd ⟨Nat.zero_le _, List.prefix_append _ _⟩ (hno 0)
  | copy _ _ ih =>
    rw [ih fun i hi => hno (i + 1) ⟨Nat.succ_le_succ hi.1, hi.2⟩]

end Scanning

section Loop

variable {s find replace acc : Str} {fuel k : ℕ}

theorem replaceTurn_hit (hfuel : 0x7FFF < fuel) (hfind : find.bytes ≠ []) (h : find.bytes <+: s.bytes.drop k)
    (hacc : acc.bytes.length + replace.bytes.length ≤ 0x7FFF) : replaceTurn fuel s find replace (acc, (k : ℤ)) =
      .ok (.inl (⟨acc.bytes ++ replace.bytes, by simpa using hacc⟩, ((k + find.bytes.length : ℕ) : ℤ))) := by
  have hs := s.short
  have hle := h.length_le
  have hpos := List.length_pos_iff.mpr hfind
  rw [List.length_drop] at hle
  have hnext : wrap16 ((k : ℤ) + str_len find) = ((k + find.bytes.length : ℕ) : ℤ) := by
    unfold str_len
    rw [wrap16_of_range (by omega) (by omega)]
    push_cast
    rfl
  have hslice := str_slice_ok (show k ≤ s.bytes.length by omega) le_rfl
  have hstarts : OccursAt ((s.bytes.take s.bytes.length).drop k) find.bytes 0 := by
    rw [List.take_length]
    exact ⟨Nat.zero_le _, h⟩
  rw [replaceTurn, if_pos (str_len_lt.mpr (by omega))]
  show (str_slice s k (s.bytes.length : ℤ) >>= _) = _
  rw [hslice]
  show (str_starts_with fuel _ find >>= _) = _
  rw [str_starts_with_spec _ _ hfuel, decide_eq_true hstarts]
  show (concat acc replace >>= _) = _
  rw [concat_ok hacc, hnext]
  rfl

theorem replaceTurn_copy (hfuel : 0x7FFF < fuel) (hk : k < s.bytes.length) (h : ¬ find.bytes <+: s.bytes.drop k)
    (hacc : acc.bytes.length + 1 ≤ 0x7FFF) : replaceTurn fuel s find replace (acc, (k : ℤ)) =
      .ok (.inl (⟨acc.bytes ++ [s.bytes[k]], by simpa using hacc⟩, ((k + 1 : ℕ) : ℤ))) := by
  have hslice := str_slice_ok hk.le le_rfl
  have hstarts : ¬ OccursAt ((s.bytes.take s.bytes.length).drop k) find.bytes 0 := by
    rw [List.take_length]
    exact fun hoccurs => h hoccurs.2
  rw [replaceTurn, if_pos (str_len_lt.mpr hk)]
  show (str_slice s k (s.bytes.length : ℤ) >>= _) = _
  rw [hslice]
  show (str_starts_with fuel _ find >>= _) = _
  rw [str_starts_with_spec _ _ hfuel, decide_eq_false hstarts]
  show (str_char_at s k >>= _) = _
  rw [str_char_at_ok hk]
  show (char_to_str s.bytes[k].toNat >>= _) = _
  rw [char_to_str_ok]
  show (concat acc _ >>= _) = _
  rw [concat_ok (by simpa using hacc), wrap16_succ (short_lt hk)]
  rfl

theorem replaceTurn_end : replaceTurn fuel s find replace (acc, (s.bytes.length : ℤ)) = .ok (.inr acc) := by
  rw [replaceTurn, if_neg (mt str_len_lt.mp (lt_irrefl _))]
  rfl

/-- What is left to read after `k` characters, and what is built of those before. -/
def Building (s find replace : Str) (out : List UInt8) (p : Str × ℤ) : Prop :=
  ∃ k rest, p.2 = (k : ℕ) ∧ k ≤ s.bytes.length ∧ Replaced find.bytes replace.bytes (s.bytes.drop k) rest ∧
    p.1.bytes ++ rest = out

theorem str_replace_spec (hfuel : 0x7FFF < fuel) (hfind : find.bytes ≠ []) {out : List UInt8}
    (h : Replaced find.bytes replace.bytes s.bytes out) (hshort : out.length ≤ 0x7FFF) :
    str_replace fuel s find replace = .ok ⟨out, hshort⟩ := by
  have hs := s.short
  have hpos := List.length_pos_iff.mpr hfind
  rw [str_replace, if_neg (by unfold str_len; omega)]
  obtain ⟨a, hloop, ha⟩ := loop_returns Stop.outOfFuel (replaceTurn fuel s find replace) fuel
    (s := (emptyString, 0)) (P := Building s find replace out) (Q := fun a => a = ⟨out, hshort⟩)
    (fun p => s.bytes.length - p.2.toNat)
    (by
      rintro ⟨acc, _⟩ ⟨k, rest, rfl, hk, hrest, hout⟩
      have hlen : acc.bytes.length + rest.length ≤ 0x7FFF := by
        rw [← List.length_append, hout]
        exact hshort
      generalize htail : s.bytes.drop k = tail at hrest
      cases hrest with
      | done =>
        obtain rfl : k = s.bytes.length := le_antisymm hk (List.drop_eq_nil_iff.mp htail)
        refine .inr ⟨acc, replaceTurn_end, ?_⟩
        rw [List.append_nil] at hout
        cases acc
        cases hout
        rfl
      | @hit tail rest hrest =>
        rw [List.length_append] at hlen
        have hprefix : find.bytes <+: s.bytes.drop k := ⟨tail, htail.symm⟩
        have hle := hprefix.length_le
        rw [List.length_drop] at hle
        refine .inl ⟨_, replaceTurn_hit hfuel hfind hprefix (by omega),
          ⟨k + find.bytes.length, rest, rfl, by omega, ?_, ?_⟩, ?_⟩
        · rwa [← List.drop_drop, htail, List.drop_left]
        · rw [List.append_assoc]
          exact hout
        · simp only [Int.toNat_natCast]
          omega
      | @copy c tail rest hno hrest =>
        rw [List.length_cons] at hlen
        have hlt : k < s.bytes.length := by
          by_contra hge
          rw [List.drop_eq_nil_of_le (by omega)] at htail
          cases htail
        rw [List.drop_eq_getElem_cons hlt] at htail
        cases htail
        refine .inl ⟨_, replaceTurn_copy hfuel hlt (by rwa [List.drop_eq_getElem_cons hlt]) (by omega),
          ⟨k + 1, rest, rfl, hlt, hrest, ?_⟩, ?_⟩
        · rw [List.append_assoc]
          exact hout
        · simp only [Int.toNat_natCast]
          omega)
    ⟨0, out, rfl, Nat.zero_le _, h, rfl⟩ (by simp; omega)
  rw [hloop, ha]

/-- Replacing is what the scan from the left comes to, and the scan comes to one thing. -/
theorem str_replace_leftmost (s find replace : Str) (hfuel : 0x7FFF < fuel) (hfind : find.bytes ≠ []) :
    ∃ out, (∀ out', Replaced find.bytes replace.bytes s.bytes out' ↔ out' = out) ∧
      ((∀ i, ¬ OccursAt s.bytes find.bytes i) → out = s.bytes) ∧
      ∀ hshort : out.length ≤ 0x7FFF, str_replace fuel s find replace = .ok ⟨out, hshort⟩ := by
  obtain ⟨out, hout⟩ := Replaced.exists hfind replace.bytes s.bytes
  refine ⟨out, fun out' => ⟨fun h => h.unique hfind hout, fun h => h ▸ hout⟩, hout.eq_self, fun hshort => ?_⟩
  exact str_replace_spec hfuel hfind hout hshort

/-- "aaa" with "b" for "aa" -/
theorem str_replace_overlapping :
    str_replace 0x8000 ⟨[97, 97, 97], by decide⟩ ⟨[97, 97], by decide⟩ ⟨[98], by decide⟩ = .ok ⟨[98, 97], by decide⟩ := by
  obtain ⟨out, hout, -, hok⟩ :=
    str_replace_leftmost ⟨[97, 97, 97], by decide⟩ ⟨[97, 97], by decide⟩ ⟨[98], by decide⟩ (show 0x7FFF < 0x8000 by decide) (by decide)
  have hscan : Replaced [97, 97] [98] [97, 97, 97] [98, 97] := .hit (.copy (by decide) .done)
  cases (hout _).mp hscan
  exact hok (by decide)

end Loop

end QuinLang.Std
