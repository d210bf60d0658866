import QuinLang.Std.Splitting

/-! Integers read from text. -/

namespace QuinLang.Std

open Loops

section Decimals

def IsDigit (b : UInt8) : Prop := 48 ≤ b.toNat ∧ b.toNat ≤ 57

instance (b : UInt8) : Decidable (IsDigit b) := inferInstanceAs (Decidable (_ ∧ _))

def digitOf (b : UInt8) : ℕ := b.toNat - 48

/-- The value of more digits after those of a value. -/
def valueFrom (v : ℕ) (ds : List UInt8) : ℕ := ds.foldl (fun v d => v * 10 + digitOf d) v

/-- The texts of decimal integers: a sign that may be left out, and at least one digit. -/
inductive Decimal : List UInt8 → ℤ → Prop
  | plain {ds : List UInt8} : ds ≠ [] → (∀ d ∈ ds, IsDigit d) → Decimal ds (valueFrom 0 ds)
  | plus {ds : List UInt8} : ds ≠ [] → (∀ d ∈ ds, IsDigit d) → Decimal (43 :: ds) (valueFrom 0 ds)
  | minus {ds : List UInt8} : ds ≠ [] → (∀ d ∈ ds, IsDigit d) → Decimal (45 :: ds) (-(valueFrom 0 ds : ℤ))

/-- The smallest integer with zeros before its digits. -/
def PaddedSmallest (bs : List UInt8) : Prop := ∃ zeros, bs = 45 :: (List.replicate (zeros + 1) 48 ++ [51, 50, 55, 54, 56])

variable {v : ℕ} {ds : List UInt8}

theorem valueFrom_concat (v : ℕ) (ds : List UInt8) (d : UInt8) : valueFrom v (ds ++ [d]) = valueFrom v ds * 10 + digitOf d := by
  rw [valueFrom, List.foldl_append]
  rfl

theorem le_valueFrom (v : ℕ) (ds : List UInt8) : v ≤ valueFrom v ds := by
  induction ds generalizing v with
  | nil => exact le_rfl
  | cons d ds ih => exact le_trans (by omega) (ih (v * 10 + digitOf d))

theorem digit_eq {d d' : UInt8} (h : IsDigit d) (h' : IsDigit d') (heq : digitOf d = digitOf d') : d = d' := by
  unfold IsDigit at h h'
  unfold digitOf at heq
  exact UInt8.toNat_inj.mp (by omega)

/-- Digits with a value are those of its tenth and a last one. -/
theorem last_digit {d : UInt8} {q : ℕ} (hds : ∀ d ∈ ds, IsDigit d) (hd : IsDigit d) (hv : valueFrom 0 ds = q * 10 + digitOf d)
    (hpos : 0 < valueFrom 0 ds) : ∃ init, ds = init ++ [d] ∧ (∀ d ∈ init, IsDigit d) ∧ valueFrom 0 init = q := by
  rcases List.eq_nil_or_concat ds with rfl | ⟨init, last, rfl⟩
  · exact absurd hpos (lt_irrefl _)
  · rw [List.concat_eq_append] at hds hv ⊢
    rw [valueFrom_concat] at hv
    have hlast := hds last (by simp)
    have hsame : digitOf last = digitOf d := by
      have h1 := hlast.2
      have h2 := hd.2
      unfold digitOf at hv ⊢
      omega
    rw [digit_eq hlast hd hsame]
    exact ⟨init, rfl, fun d hd => hds d (by simp [hd]), by omega⟩

theorem zeros_of_value (hds : ∀ d ∈ ds, IsDigit d) (h : valueFrom 0 ds = 0) : ds = List.replicate ds.length 48 := by
  induction ds using List.reverseRecOn with
  | nil => rfl
  | append_singleton ds d ih =>
    rw [valueFrom_concat] at h
    have hd : d = 48 := digit_eq (hds d (by simp)) (by decide) (by rw [show digitOf 48 = 0 from rfl]; omega)
    rw [List.length_append, List.length_singleton, List.replicate_succ', ← ih (fun d hd => hds d (by simp [hd])) (by omega), hd]

/-- The digits of the smallest integer, but for zeros before them. -/
theorem digits_of_smallest (hds : ∀ d ∈ ds, IsDigit d) (h : valueFrom 0 ds = 32768) :
    ∃ zeros, ds = List.replicate zeros 48 ++ [51, 50, 55, 54, 56] := by
  obtain ⟨ds₁, rfl, hds₁, h₁⟩ := last_digit (d := 56) (q := 3276) hds (by decide) h (by omega)
  obtain ⟨ds₂, rfl, hds₂, h₂⟩ := last_digit (d := 54) (q := 327) hds₁ (by decide) h₁ (by omega)
  obtain ⟨ds₃, rfl, hds₃, h₃⟩ := last_digit (d := 55) (q := 32) hds₂ (by decide) h₂ (by omega)
  obtain ⟨ds₄, rfl, hds₄, h₄⟩ := last_digit (d := 50) (q := 3) hds₃ (by decide) h₃ (by omega)
  obtain ⟨ds₅, rfl, hds₅, h₅⟩ := last_digit (d := 51) (q := 0) hds₄ (by decide) h₄ (by omega)
  refine ⟨ds₅.length, ?_⟩
  rw [← zeros_of_value hds₅ h₅]
  simp

end Decimals

section Scanning

variable {s : Str} {fuel : ℕ}

/-- Digits read after a value, as long as the value is an int. -/
def scanFrom : ℕ → List UInt8 → Option ℕ
  | v, [] => some v
  | v, d :: ds => if IsDigit d ∧ v * 10 + digitOf d ≤ 32767 then scanFrom (v * 10 + digitOf d) ds else none

theorem scanFrom_eq {v : ℕ} (hv : v ≤ 32767) (ds : List UInt8) {w : ℕ} :
    scanFrom v ds = some w ↔ (∀ d ∈ ds, IsDigit d) ∧ valueFrom v ds = w ∧ w ≤ 32767 := by
  induction ds generalizing v with
  | nil =>
    simp only [scanFrom, Option.some.injEq, List.not_mem_nil, false_imp_iff, implies_true, true_and]
    exact ⟨fun h => ⟨h, h ▸ hv⟩, fun h => h.1⟩
  | cons d ds ih =>
    rw [scanFrom]
    split
    · rename_i h
      rw [ih h.2, List.forall_mem_cons]
      exact ⟨fun hr => ⟨⟨h.1, hr.1⟩, hr.2⟩, fun hr => ⟨hr.1.2, hr.2⟩⟩
    · rename_i h
      constructor
      · intro hr
        cases hr
      · rintro ⟨hds, hw, hle⟩
        refine absurd ⟨hds d List.mem_cons_self, ?_⟩ h
        have := le_valueFrom (v * 10 + digitOf d) ds
        have hstep : valueFrom v (d :: ds) = valueFrom (v * 10 + digitOf d) ds := rfl
        omega

theorem is_digit_iff (b : UInt8) : is_digit b.toNat = decide (IsDigit b) := by
  rw [is_digit, ← Bool.decide_and]
  exact decide_eq_decide.mpr ⟨fun h => ⟨by omega, by omega⟩, fun h => ⟨by have := h.1; omega, by have := h.2; omega⟩⟩

theorem digit_code {b : UInt8} (h : IsDigit b) : wrap16 ((b.toNat : ℤ) - 48) = (digitOf b : ℕ) := by
  have h1 := h.1
  have h2 := h.2
  unfold digitOf
  rw [wrap16_of_range (by omega) (by omega)]
  omega

theorem digitOf_lt {b : UInt8} (h : IsDigit b) : digitOf b < 10 := by
  have h2 := h.2
  unfold digitOf
  omega

/-- The test before the multiplication tells whether the value would fit after it. -/
theorem limit_test {v d : ℕ} (hd : d < 10) : (v : ℤ) > wrap16 ((wrap16 (parse_int_limit - (d : ℤ))).tdiv 10) ↔ 32767 < v * 10 + d := by
  unfold parse_int_limit
  rw [wrap16_of_range (v := 32767 - (d : ℤ)) (by omega) (by omega), Int.tdiv_eq_ediv_of_nonneg (by omega),
    wrap16_of_range (by omega) (by omega)]
  omega

variable {k v : ℕ}

theorem digitTurn_other (hk : k < s.bytes.length) (h : ¬ IsDigit s.bytes[k]) : digitTurn s ((k : ℤ), (v : ℤ)) = .ok (.inr none) := by
  rw [digitTurn, if_pos (str_len_lt.mpr hk), str_char_at_ok hk, ok_bind, is_digit_iff, decide_eq_false h]
  rfl

theorem digitTurn_digit (hk : k < s.bytes.length) (h : IsDigit s.bytes[k]) : digitTurn s ((k : ℤ), (v : ℤ)) =
    if v * 10 + digitOf s.bytes[k] ≤ 32767 then .ok (.inl (((k + 1 : ℕ) : ℤ), ((v * 10 + digitOf s.bytes[k] : ℕ) : ℤ)))
    else .ok (.inr none) := by
  have hd := digitOf_lt h
  rw [digitTurn, if_pos (str_len_lt.mpr hk), str_char_at_ok hk, ok_bind, is_digit_iff, decide_eq_true h, digit_code h,
    if_neg (by simp)]
  by_cases hfits : v * 10 + digitOf s.bytes[k] ≤ 32767
  · have hnext : wrap16 (wrap16 ((v : ℤ) * 10) + (digitOf s.bytes[k] : ℤ)) = ((v * 10 + digitOf s.bytes[k] : ℕ) : ℤ) := by
      rw [wrap16_of_range (v := (v : ℤ) * 10) (by omega) (by omega), wrap16_of_range (by omega) (by omega)]
      push_cast
      rfl
    rw [if_pos hfits, if_neg (mt (limit_test hd).mp (by omega)), hnext, wrap16_succ (short_lt hk)]
    rfl
  · rw [if_neg hfits, if_pos ((limit_test hd).mpr (by omega))]
    rfl

theorem digitTurn_end (hk : s.bytes.length ≤ k) : digitTurn s ((k : ℤ), (v : ℤ)) = .ok (.inr (some (v : ℤ))) := by
  rw [digitTurn, if_neg (mt str_len_lt.mp (by omega))]
  rfl

/-- The loop of `parse_int` reads the rest of the digits. -/
theorem digits_loop (hk : k ≤ s.bytes.length) (hfuel : 0x7FFF < fuel) :
    loop .outOfFuel (digitTurn s) fuel ((k : ℤ), 0) = .ok ((scanFrom 0 (s.bytes.drop k)).map fun w : ℕ => (w : ℤ)) := by
  obtain ⟨r, hloop, rfl⟩ := loop_returns Stop.outOfFuel (digitTurn s) fuel (s := ((k : ℤ), ((0 : ℕ) : ℤ)))
    (P := fun p => ∃ j v : ℕ, p = ((j : ℤ), (v : ℤ)) ∧ j ≤ s.bytes.length ∧
      scanFrom v (s.bytes.drop j) = scanFrom 0 (s.bytes.drop k))
    (Q := fun r => r = (scanFrom 0 (s.bytes.drop k)).map fun w : ℕ => (w : ℤ)) (fun p => s.bytes.length - p.1.toNat)
    (by
      rintro _ ⟨j, v, rfl, hj, hscan⟩
      rcases hj.lt_or_eq with hlt | rfl
      · rw [List.drop_eq_getElem_cons hlt, scanFrom] at hscan
        by_cases hd : IsDigit s.bytes[j]
        · rw [digitTurn_digit hlt hd]
          by_cases hfits : v * 10 + digitOf s.bytes[j] ≤ 32767
          · rw [if_pos ⟨hd, hfits⟩] at hscan
            rw [if_pos hfits]
            exact .inl ⟨_, rfl, ⟨j + 1, _, rfl, hlt, hscan⟩, by simp only [Int.toNat_natCast]; omega⟩
          · rw [if_neg fun h => hfits h.2] at hscan
            rw [if_neg hfits]
            exact .inr ⟨none, rfl, by rw [← hscan]; rfl⟩
        · rw [if_neg fun h => hd h.1] at hscan
          exact .inr ⟨none, digitTurn_other hlt hd, by rw [← hscan]; rfl⟩
      · rw [List.drop_length, scanFrom] at hscan
        exact .inr ⟨_, digitTurn_end le_rfl, by rw [← hscan]; rfl⟩)
    ⟨k, 0, rfl, hk, rfl⟩ (by have := s.short; simp only [Int.toNat_natCast]; omega)
  exact hloop

/-- Every value `str_parse_int` goes through is the sixteen bits of the value of the digits. -/
theorem strDigitTurn_digit (hk : k < s.bytes.length) (h : IsDigit s.bytes[k]) :
    strDigitTurn s ((k : ℤ), wrap16 v) = .ok (.inl (((k + 1 : ℕ) : ℤ), wrap16 ((v * 10 + digitOf s.bytes[k] : ℕ) : ℤ))) := by
  have hwrap : wrap16 (wrap16 (wrap16 (v : ℤ) * 10) + (digitOf s.bytes[k] : ℤ)) = wrap16 ((v * 10 + digitOf s.bytes[k] : ℕ) : ℤ) := by
    push_cast
    unfold wrap16
    split_ifs <;> omega
  rw [strDigitTurn, if_pos (str_len_lt.mpr hk), str_char_at_ok hk, ok_bind, is_digit_iff, decide_eq_true h, digit_code h,
    if_neg (by simp), hwrap, wrap16_succ (short_lt hk)]
  rfl

theorem strDigitTurn_end {x : ℤ} (hk : s.bytes.length ≤ k) : strDigitTurn s ((k : ℤ), x) = .ok (.inr x) := by
  rw [strDigitTurn, if_neg (mt str_len_lt.mp (by omega))]
  rfl

theorem str_digits_loop (hk : k ≤ s.bytes.length) (hfuel : 0x7FFF < fuel) (hds : ∀ d ∈ s.bytes.drop k, IsDigit d) :
    loop .outOfFuel (strDigitTurn s) fuel ((k : ℤ), 0) = .ok (wrap16 (valueFrom 0 (s.bytes.drop k))) := by
  have hzero : wrap16 ((0 : ℕ) : ℤ) = 0 := wrap16_of_range (by omega) (by omega)
  obtain ⟨r, hloop, hr⟩ := loop_returns Stop.outOfFuel (strDigitTurn s) fuel (s := ((k : ℤ), 0))
    (P := fun p => ∃ j v : ℕ, p = ((j : ℤ), wrap16 v) ∧ j ≤ s.bytes.length ∧ (∀ d ∈ s.bytes.drop j, IsDigit d) ∧
      valueFrom v (s.bytes.drop j) = valueFrom 0 (s.bytes.drop k))
    (Q := fun r => r = wrap16 (valueFrom 0 (s.bytes.drop k))) (fun p => s.bytes.length - p.1.toNat)
    (by
      rintro _ ⟨j, v, rfl, hj, hdigits, hvalue⟩
      rcases hj.lt_or_eq with hlt | rfl
      · rw [List.drop_eq_getElem_cons hlt] at hdigits hvalue
        rw [List.forall_mem_cons] at hdigits
        rw [strDigitTurn_digit hlt hdigits.1]
        exact .inl ⟨_, rfl, ⟨j + 1, _, rfl, hlt, hdigits.2, hvalue⟩, by simp only [Int.toNat_natCast]; omega⟩
      · rw [List.drop_length] at hvalue
        rw [← hvalue]
        exact .inr ⟨_, strDigitTurn_end le_rfl, congrArg wrap16 (congrArg Nat.cast rfl)⟩)
    ⟨k, 0, by rw [hzero], hk, hds, rfl⟩ (by have := s.short; simp only [Int.toNat_natCast]; omega)
  rw [hloop, hr]

end Scanning

section Signs

variable {bs : List UInt8} {v : ℤ}

/-- Whether a text starts with a minus, and what comes after its sign. -/
def unsigned (bs : List UInt8) : Bool × List UInt8 :=
  if bs.head? = some 45 then (true, bs.tail) else if bs.head? = some 43 then (false, bs.tail) else (false, bs)

def withSign (negative : Bool) (w : ℕ) : ℤ := if negative then -(w : ℤ) else w

theorem unsigned_plain (hbs : ∀ d ∈ bs, IsDigit d) : unsigned bs = (false, bs) := by
  have hsign {c : UInt8} (hc : ¬ IsDigit c) : bs.head? ≠ some c := fun h => hc (hbs c (List.mem_of_head? h))
  rw [unsigned, if_neg (hsign (by decide)), if_neg (hsign (by decide))]

theorem eq_of_head {c : UInt8} (h : bs.head? = some c) : bs = c :: bs.tail := by
  exact (List.cons_head?_tail h).symm

theorem decimal_iff : Decimal bs v ↔ (unsigned bs).2 ≠ [] ∧ (∀ d ∈ (unsigned bs).2, IsDigit d) ∧
    v = withSign (unsigned bs).1 (valueFrom 0 (unsigned bs).2) := by
  constructor
  · intro h
    cases h with
    | plain hne hds => rw [unsigned_plain hds]; exact ⟨hne, hds, rfl⟩
    | plus hne hds => exact ⟨hne, hds, rfl⟩
    | minus hne hds => exact ⟨hne, hds, rfl⟩
  · rintro ⟨hne, hds, rfl⟩
    unfold unsigned at hne hds ⊢
    split_ifs at hne hds ⊢ with hminus hplus
    · rw [eq_of_head hminus]
      exact .minus hne hds
    · rw [eq_of_head hplus]
      exact .plus hne hds
    · exact .plain hne hds

end Signs

section Parsing

variable {s : Str} {fuel : ℕ} {v : ℤ}

/-- Where the digits start, as `signed` says. -/
theorem signed_unsigned {b : UInt8} (h : s.bytes.head? = some b) :
    ∃ k : ℕ, signed b.toNat = ((unsigned s.bytes).1, (k : ℤ)) ∧ k ≤ s.bytes.length ∧ s.bytes.drop k = (unsigned s.bytes).2 := by
  have hcode {c : UInt8} {n : ℕ} (hc : c.toNat = n) : (b.toNat : ℤ) = n ↔ s.bytes.head? = some c := by
    rw [h, Option.some_inj, ← UInt8.toNat_inj, Nat.cast_inj, hc]
  have hminus_code : (b.toNat : ℤ) = 45 ↔ s.bytes.head? = some 45 := hcode rfl
  have hplus_code : (b.toNat : ℤ) = 43 ↔ s.bytes.head? = some 43 := hcode rfl
  have hlen : 1 ≤ s.bytes.length := by
    rw [eq_of_head h]
    simp
  unfold signed unsigned
  by_cases hminus : s.bytes.head? = some 45
  · rw [if_pos hminus, if_pos (hminus_code.mpr hminus)]
    exact ⟨1, rfl, hlen, List.drop_one⟩
  · rw [if_neg hminus, if_neg (mt hminus_code.mp hminus)]
    by_cases hplus : s.bytes.head? = some 43
    · rw [if_pos hplus, if_pos (hplus_code.mpr hplus)]
      exact ⟨1, rfl, hlen, List.drop_one⟩
    · rw [if_neg hplus, if_neg (mt hplus_code.mp hplus)]
      exact ⟨0, rfl, Nat.zero_le _, List.drop_zero⟩

/-- A string that is not empty has a first character. -/
theorem first_char (hne : s.bytes ≠ []) : ∃ b : UInt8, s.bytes.head? = some b ∧ str_char_at s 0 = .ok b.toNat := by
  have hpos : 0 < s.bytes.length := List.length_pos_iff.mpr hne
  refine ⟨s.bytes[0], ?_, str_char_at_ok hpos⟩
  rw [List.head?_eq_getElem?, List.getElem?_eq_getElem hpos]

theorem str_len_zero : str_len s = 0 ↔ s.bytes = [] := by
  rw [str_len, Nat.cast_eq_zero, List.length_eq_zero_iff]

theorem no_digits {k : ℕ} (hk : k ≤ s.bytes.length) : (k : ℤ) = str_len s ↔ s.bytes.drop k = [] := by
  rw [str_len, Nat.cast_inj, List.drop_eq_nil_iff]
  omega

/-- What `parse_int` makes of a text: the value of the digits, unless it is none or does not
fit before the sign is put to it. -/
theorem parse_int_eq (hfuel : 0x7FFF < fuel) (hne : s.bytes ≠ []) (hs : s.bytes ≠ smallest) :
    parse_int fuel s = .ok (if (unsigned s.bytes).2 = [] then none
      else (scanFrom 0 (unsigned s.bytes).2).map (withSign (unsigned s.bytes).1)) := by
  obtain ⟨b, hhead, hfirst⟩ := first_char hne
  obtain ⟨k, hsign, hk, hdrop⟩ := signed_unsigned hhead
  rw [parse_int, if_neg (mt str_len_zero.mp hne), if_neg hs, hfirst, ok_bind, hsign, ← hdrop]
  dsimp only
  by_cases hend : s.bytes.drop k = []
  · rw [if_pos ((no_digits hk).mpr hend), if_pos hend]
    rfl
  · rw [if_neg (mt (no_digits hk).mp hend), if_neg hend, digits_loop hk hfuel, ok_bind]
    rcases hscan : scanFrom 0 (s.bytes.drop k) with _ | w
    · rfl
    · have hw := ((scanFrom_eq (Nat.zero_le _) _).mp hscan).2.2
      have hneg : wrap16 (0 - (w : ℤ)) = -(w : ℤ) := by
        rw [wrap16_of_range (by omega) (by omega), zero_sub]
      rw [Option.map_some, Option.map_some, Option.map_some, hneg]
      rfl

theorem parse_int_empty (h : s.bytes = []) : parse_int fuel s = .ok none := by
  rw [parse_int, if_pos (str_len_zero.mpr h)]
  rfl

theorem parse_int_smallest (h : s.bytes = smallest) : parse_int fuel s = .ok (some (-32768)) := by
  rw [parse_int, if_neg (mt str_len_zero.mp (by rw [h]; decide)), if_pos h]
  rfl

theorem parse_int_returns (hfuel : 0x7FFF < fuel) : ∃ r, parse_int fuel s = .ok r := by
  by_cases hne : s.bytes = []
  · exact ⟨_, parse_int_empty hne⟩
  · by_cases hs : s.bytes = smallest
    · exact ⟨_, parse_int_smallest hs⟩
    · exact ⟨_, parse_int_eq hfuel hne hs⟩

/-- But for the smallest integer, the accepted texts are the decimals whose digits are an int. -/
theorem parse_int_some (hfuel : 0x7FFF < fuel) (hs : s.bytes ≠ smallest) :
    parse_int fuel s = .ok (some v) ↔ Decimal s.bytes v ∧ valueFrom 0 (unsigned s.bytes).2 ≤ 32767 := by
  rw [decimal_iff]
  by_cases hne : s.bytes = []
  · rw [parse_int_empty hne]
    simp [hne, unsigned]
  · rw [parse_int_eq hfuel hne hs, Except.ok.injEq]
    split
    · rename_i hnone
      simp [hnone]
    · rename_i hsome
      rw [Option.map_eq_some_iff]
      constructor
      · rintro ⟨w, hscan, rfl⟩
        obtain ⟨hds, rfl, hw⟩ := (scanFrom_eq (Nat.zero_le _) _).mp hscan
        exact ⟨⟨hsome, hds, rfl⟩, hw⟩
      · rintro ⟨⟨-, hds, rfl⟩, hw⟩
        exact ⟨_, (scanFrom_eq (Nat.zero_le _) _).mpr ⟨hds, rfl, hw⟩, rfl⟩

/-- `str_parse_int` returns the value of every decimal that is an int. -/
theorem str_parse_int_eq (hfuel : 0x7FFF < fuel) (h : Decimal s.bytes v) (hlow : -32768 ≤ v) (hhigh : v ≤ 32767) :
    str_parse_int fuel s = .ok v := by
  obtain ⟨hne, hds, rfl⟩ := decimal_iff.mp h
  have hbytes : s.bytes ≠ [] := fun hnil => hne (by rw [hnil]; rfl)
  obtain ⟨b, hhead, hfirst⟩ := first_char hbytes
  obtain ⟨k, hsign, hk, hdrop⟩ := signed_unsigned hhead
  rw [str_parse_int, if_neg (mt str_len_zero.mp hbytes), hfirst, ok_bind, hsign]
  dsimp only
  rw [if_neg (mt (no_digits hk).mp (by rwa [hdrop])), str_digits_loop hk hfuel (by rwa [hdrop]), ok_bind, hdrop]
  unfold withSign at hlow hhigh ⊢
  split
  · rename_i hneg
    rw [if_pos hneg] at hlow hhigh
    have hwrap : wrap16 (0 - wrap16 (valueFrom 0 (unsigned s.bytes).2 : ℤ)) = -(valueFrom 0 (unsigned s.bytes).2 : ℤ) := by
      unfold wrap16
      split_ifs <;> omega
    rw [hwrap]
    rfl
  · rename_i hpos
    rw [if_neg hpos] at hlow hhigh
    rw [wrap16_of_range (by omega) (by omega)]
    rfl

end Parsing

section Exact

variable {s : Str} {fuel : ℕ} {v : ℤ}

/-- The texts of the smallest integer are "-32768" and those that put zeros before its digits. -/
theorem smallest_text (h : Decimal s.bytes v) (hlow : -32768 ≤ v) (hbig : 32767 < valueFrom 0 (unsigned s.bytes).2) (hhigh : v ≤ 32767) :
    v = -32768 ∧ (s.bytes = smallest ∨ PaddedSmallest s.bytes) := by
  obtain ⟨-, hds, rfl⟩ := decimal_iff.mp h
  unfold withSign at hlow hhigh ⊢
  split_ifs at hlow hhigh ⊢ with hneg
  · obtain ⟨zeros, hzeros⟩ := digits_of_smallest hds (by omega)
    have hminus : s.bytes.head? = some 45 := by
      by_contra hno
      rw [unsigned, if_neg hno] at hneg
      split_ifs at hneg
    have hbytes : s.bytes = 45 :: (unsigned s.bytes).2 := by
      rw [unsigned, if_pos hminus]
      exact eq_of_head hminus
    refine ⟨by omega, ?_⟩
    rw [hzeros] at hbytes
    cases zeros with
    | zero => exact .inl hbytes
    | succ zeros => exact .inr ⟨zeros, hbytes⟩
  · omega

theorem valueFrom_zeros (zeros : ℕ) (ds : List UInt8) : valueFrom 0 (List.replicate zeros 48 ++ ds) = valueFrom 0 ds := by
  induction zeros with
  | zero => rfl
  | succ zeros ih => exact ih

theorem smallest_value : valueFrom 0 [51, 50, 55, 54, 56] = 32768 := by decide

theorem smallest_decimal (zeros : ℕ) : Decimal (45 :: (List.replicate zeros 48 ++ [51, 50, 55, 54, 56])) (-32768) := by
  have hds : ∀ d ∈ List.replicate zeros 48 ++ [51, 50, 55, 54, 56], IsDigit d := by
    intro d hd
    simp only [List.mem_append, List.mem_replicate, List.mem_cons, List.not_mem_nil, or_false] at hd
    rcases hd with ⟨-, rfl⟩ | rfl | rfl | rfl | rfl | rfl <;> decide
  have hvalue : (-32768 : ℤ) = -(valueFrom 0 (List.replicate zeros 48 ++ [51, 50, 55, 54, 56]) : ℤ) := by
    rw [valueFrom_zeros, smallest_value]
    rfl
  rw [hvalue]
  exact .minus (by simp) hds

theorem padded_decimal (h : PaddedSmallest s.bytes) : Decimal s.bytes (-32768) ∧ valueFrom 0 (unsigned s.bytes).2 = 32768 := by
  obtain ⟨zeros, hbytes⟩ := h
  rw [hbytes]
  exact ⟨smallest_decimal (zeros + 1), (valueFrom_zeros _ _).trans smallest_value⟩

/-- `parse_int` returns the value of the decimals that an int can hold and no other, and
`str_parse_int` agrees, unless the text puts zeros before the digits of the smallest one. -/
theorem parse_int_exact (s : Str) (hfuel : 0x7FFF < fuel) :
    ((∃ r, parse_int fuel s = .ok r) ∧
      (∀ v, parse_int fuel s = .ok (some v) ↔ Decimal s.bytes v ∧ -32768 ≤ v ∧ v ≤ 32767) ∧
      ∀ v, parse_int fuel s = .ok (some v) → str_parse_int fuel s = .ok v) ↔ ¬ PaddedSmallest s.bytes := by
  constructor
  · rintro ⟨-, hiff, -⟩ hpadded
    obtain ⟨hdec, hvalue⟩ := padded_decimal hpadded
    by_cases hs : s.bytes = smallest
    · obtain ⟨zeros, hbytes⟩ := hpadded
      have hlen := congrArg List.length (hs.symm.trans hbytes)
      simp [smallest] at hlen
    · have := ((parse_int_some hfuel hs).mp ((hiff _).mpr ⟨hdec, by omega, by omega⟩)).2
      omega
  · intro hpadded
    have hiff (v : ℤ) : parse_int fuel s = .ok (some v) ↔ Decimal s.bytes v ∧ -32768 ≤ v ∧ v ≤ 32767 := by
      by_cases hs : s.bytes = smallest
      · have hdec : Decimal s.bytes (-32768) := by
          rw [hs]
          exact smallest_decimal 0
        rw [parse_int_smallest hs, Except.ok.injEq, Option.some_inj]
        refine ⟨fun h => h ▸ ⟨hdec, by omega, by omega⟩, fun h => ?_⟩
        rw [(decimal_iff.mp hdec).2.2, (decimal_iff.mp h.1).2.2]
      · rw [parse_int_some hfuel hs]
        refine ⟨fun h => ⟨h.1, ?_⟩, fun h => ⟨h.1, ?_⟩⟩
        · have hvalue := (decimal_iff.mp h.1).2.2
          have hw := h.2
          unfold withSign at hvalue
          split_ifs at hvalue <;> omega
        · by_contra hbig
          rcases (smallest_text h.1 h.2.1 (by omega) h.2.2).2 with hsmall | hpad
          · exact hs hsmall
          · exact hpadded hpad
    refine ⟨parse_int_returns hfuel, hiff, fun v h => ?_⟩
    obtain ⟨hdec, hlow, hhigh⟩ := (hiff v).mp h
    exact str_parse_int_eq hfuel hdec hlow hhigh

/-- "-12" -/
theorem parse_int_exact_twelve : parse_int 0x8000 ⟨[45, 49, 50], by decide⟩ = .ok (some (-12)) := by
  have hdec : Decimal [45, 49, 50] (-(valueFrom 0 [49, 50] : ℤ)) := .minus (by decide) (by simp [IsDigit])
  have hvalue : valueFrom 0 [49, 50] = 12 := by decide
  rw [hvalue] at hdec
  have hpadded : ¬ PaddedSmallest [45, 49, 50] := by
    rintro ⟨zeros, hbytes⟩
    cases hbytes
  exact (((parse_int_exact ⟨[45, 49, 50], by decide⟩ (by decide)).mpr hpadded).2.1 _).mpr ⟨hdec, by decide, by decide⟩

theorem padded_scan : scanFrom 0 [48, 51, 50, 55, 54, 56] = none := by decide

/-- "-032768" is in range and refused. -/
theorem padded_smallest_refused : Decimal [45, 48, 51, 50, 55, 54, 56] (-32768) ∧
    parse_int 0x8000 ⟨[45, 48, 51, 50, 55, 54, 56], by decide⟩ = .ok none := by
  refine ⟨smallest_decimal 1, ?_⟩
  rw [parse_int_eq (by decide) (by decide) (by decide), if_neg (by decide)]
  have hds : (unsigned [45, 48, 51, 50, 55, 54, 56]).2 = [48, 51, 50, 55, 54, 56] := rfl
  rw [hds, padded_scan, Option.map_none]

end Exact

end QuinLang.Std
