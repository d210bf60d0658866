import QuinLang.Runtime.Interpreter
import QuinLang.Std.Searching

/-! `std/math.ql`: greatest common divisors and least common multiples of 16-bit ints. -/

namespace QuinLang.Std

open Loops

section Operations

/-- `a / b`. -/
def intDiv (a b : ℤ) : Run ℤ := if b = 0 then .error (.fault "Division by zero") else .ok (wrap16 (truncDiv a b))

/-- `a % b`. -/
def intMod (a b : ℤ) : Run ℤ := if b = 0 then .error (.fault "Modulo by zero") else .ok (wrap16 (a - truncDiv a b * b))

def abs (x : ℤ) : ℤ := if x < 0 then wrap16 (0 - x) else x

/-- A turn of the loop of `gcd`. -/
def gcdTurn (p : ℤ × ℤ) : Run ((ℤ × ℤ) ⊕ ℤ) := do
  if p.2 ≠ 0 then return .inl (p.2, ← intMod p.1 p.2) else return .inr p.1

def gcd (fuel : ℕ) (a b : ℤ) : Run ℤ := loop .outOfFuel gcdTurn fuel (abs a, abs b)

def lcm (fuel : ℕ) (a b : ℤ) : Run ℤ := do
  if a = 0 ∨ b = 0 then return 0
  else
    let g ← gcd fuel a b
    return abs (wrap16 ((← intDiv a g) * b))

end Operations

/-- The divisions of Euclid's algorithm. -/
def divisions (a b : ℕ) : ℕ := if h : b = 0 then 0 else divisions b (a % b) + 1
termination_by b
decreasing_by exact Nat.mod_lt a (Nat.pos_of_ne_zero h)

section Euclid

variable {x y : ℤ}

theorem divisions_zero (a : ℕ) : divisions a 0 = 0 := by
  rw [divisions, dif_pos rfl]

theorem divisions_succ {a b : ℕ} (hb : b ≠ 0) : divisions a b = divisions b (a % b) + 1 := by
  rw [divisions, dif_neg hb]

theorem truncDiv_eq (a b : ℤ) : truncDiv a b = a.tdiv b := by
  cases a with
  | ofNat m =>
    cases b with
    | ofNat n =>
      have hsame : ¬((Int.ofNat m < 0) ≠ (Int.ofNat n < 0)) := by
        have hm : ¬Int.ofNat m < 0 := not_lt.mpr (Int.natCast_nonneg m)
        have hn : ¬Int.ofNat n < 0 := not_lt.mpr (Int.natCast_nonneg n)
        simp only [hm, hn, ne_eq, not_true_eq_false, not_false_eq_true]
      rw [truncDiv, if_neg hsame]
      rfl
    | negSucc n => simp [truncDiv, Int.tdiv]
  | negSucc m => cases b <;> simp [truncDiv, Int.tdiv]

/-- What a loop with truncating remainders ends with: the divisor has the sign of the one or
the other number, by the number of divisions. -/
def signedGcd (x y : ℤ) : ℤ := (if Even (divisions x.natAbs y.natAbs) then x.sign else y.sign) * (x.natAbs.gcd y.natAbs : ℕ)

theorem signedGcd_zero (x : ℤ) : signedGcd x 0 = x := by
  rw [signedGcd, Int.natAbs_zero, divisions_zero, if_pos (by decide), Nat.gcd_zero_right]
  exact Int.sign_mul_natAbs x

/-- A division swaps the two. -/
theorem signedGcd_tmod (hy : y ≠ 0) : signedGcd y (x.tmod y) = signedGcd x y := by
  have hy' : y.natAbs ≠ 0 := Int.natAbs_ne_zero.mpr hy
  rw [signedGcd, signedGcd, Int.natAbs_tmod, divisions_succ hy', Nat.gcd_comm y.natAbs, ← Nat.gcd_rec, Nat.gcd_comm y.natAbs]
  congr 1
  by_cases heven : Even (divisions y.natAbs (x.natAbs % y.natAbs))
  · rw [if_pos heven, if_neg fun h => (Nat.even_add_one.mp h) heven]
  · rw [if_neg heven, if_pos (Nat.even_add_one.mpr heven)]
    have hrest : ¬y ∣ x := by
      intro hdvd
      refine heven ?_
      rw [Nat.mod_eq_zero_of_dvd (Int.natAbs_dvd_natAbs.mpr hdvd), divisions_zero]
      exact ⟨0, rfl⟩
    rw [Int.sign_tmod, if_neg hrest]

/-- The loop on two ints, the smallest included. -/
theorem gcdLoop_eq (fuel : ℕ) (hy : y.natAbs ≤ 32768) (hfuel : y.natAbs < fuel) :
    loop .outOfFuel gcdTurn fuel (x, y) = .ok (signedGcd x y) := by
  induction fuel generalizing x y with
  | zero => omega
  | succ fuel ih =>
    rw [loop]
    by_cases hzero : y = 0
    · subst hzero
      rw [signedGcd_zero]
      rfl
    · have hlt : (x.tmod y).natAbs < y.natAbs := by
        rw [Int.natAbs_tmod]
        exact Nat.mod_lt _ (Int.natAbs_pos.mpr hzero)
      have hmod : intMod x y = .ok (x.tmod y) := by
        have heq : x - truncDiv x y * y = x.tmod y := by
          rw [truncDiv_eq, Int.tmod_def, mul_comm]
        rw [intMod, if_neg hzero, heq, wrap16_of_range (by omega) (by omega)]
      have hturn : gcdTurn (x, y) = .ok (.inl (y, x.tmod y)) := by
        rw [gcdTurn, if_pos hzero, hmod]
        rfl
      rw [hturn]
      exact (ih (by omega) (by omega)).trans (congrArg _ (signedGcd_tmod hzero))

theorem natAbs_abs {a : ℤ} (h : -32768 ≤ a) (h' : a ≤ 32767) : (abs a).natAbs = a.natAbs := by
  rw [abs]
  split
  · by_cases hmin : a = -32768
    · rw [hmin]
      rfl
    · rw [wrap16_of_range (by omega) (by omega)]
      omega
  · rfl

theorem abs_of_ne {a : ℤ} (h : -32768 < a) (h' : a ≤ 32767) : abs a = a.natAbs := by
  rw [abs]
  split
  · rw [wrap16_of_range (by omega) (by omega)]
    omega
  · omega

theorem abs_smallest : abs (-32768) = -32768 := by decide

theorem gcd_eq {a b : ℤ} (hb : -32768 ≤ b) (hb' : b ≤ 32767) {fuel : ℕ} (hfuel : 32768 < fuel) :
    gcd fuel a b = .ok (signedGcd (abs a) (abs b)) := by
  have hnat := natAbs_abs hb hb'
  exact gcdLoop_eq fuel (by omega) (by omega)

theorem sign_natCast_nonneg (n : ℕ) : 0 ≤ (n : ℤ).sign := by
  cases n with
  | zero => exact le_rfl
  | succ n => exact Int.one_nonneg

theorem natAbs_sign_mul {z : ℤ} {n : ℕ} (h : z = 0 → n = 0) : (z.sign * (n : ℤ)).natAbs = n := by
  rw [Int.natAbs_mul, Int.natAbs_natCast]
  by_cases hz : z = 0
  · rw [h hz, Nat.mul_zero]
  · rw [Int.natAbs_sign_of_ne_zero hz, Nat.one_mul]

/-- The number whose sign counts is not zero unless both are. -/
theorem natAbs_signedGcd (x y : ℤ) : (signedGcd x y).natAbs = x.natAbs.gcd y.natAbs := by
  rw [signedGcd]
  split
  · next heven =>
    refine natAbs_sign_mul ?_
    rintro rfl
    by_cases hy : y.natAbs = 0
    · rw [hy]
      rfl
    · rw [divisions_succ hy, Int.natAbs_zero, Nat.zero_mod, divisions_zero] at heven
      exact absurd heven (by decide)
  · next hodd =>
    refine natAbs_sign_mul ?_
    rintro rfl
    rw [Int.natAbs_zero, divisions_zero] at hodd
    exact absurd ⟨0, rfl⟩ hodd

end Euclid

section Exactness

variable {a b : ℤ}

/-- Neither number is the smallest int, or only one of them is and Euclid's algorithm takes
an odd number of divisions for it and the other. -/
def PositiveGcd (a b : ℤ) : Prop :=
  (a ≠ -32768 ∧ b ≠ -32768) ∨ (a = -32768 ∧ b ≠ -32768 ∧ Odd (divisions 32768 b.natAbs)) ∨
    (a ≠ -32768 ∧ b = -32768 ∧ Odd (divisions 32768 a.natAbs))

theorem signedGcd_nonneg_iff (ha : -32768 ≤ a) (ha' : a ≤ 32767) (hb : -32768 ≤ b) (hb' : b ≤ 32767) :
    0 ≤ signedGcd (abs a) (abs b) ↔ PositiveGcd a b := by
  have hgcd : ∀ n : ℕ, 0 < Nat.gcd 32768 n := fun n => Nat.gcd_pos_of_pos_left n (by decide)
  have hgcd' : ∀ n : ℕ, 0 < Nat.gcd n 32768 := fun n => Nat.gcd_pos_of_pos_right n (by decide)
  unfold PositiveGcd
  by_cases hmin : a = -32768
  · subst hmin
    by_cases hmin' : b = -32768
    · subst hmin'
      have hone : divisions 32768 32768 = 1 := by rw [divisions_succ (by decide), Nat.mod_self, divisions_zero]
      refine iff_of_false ?_ (by simp)
      have hodd : ¬Even 1 := by decide
      simp [signedGcd, abs_smallest, hone]
    · have hb'' : abs b = b.natAbs := abs_of_ne (by omega) hb'
      have hpos := hgcd b.natAbs
      rw [signedGcd, abs_smallest, hb'', Int.natAbs_natCast]
      simp only [ne_eq, not_true_eq_false, false_and, hmin', not_false_eq_true, true_and, false_or, or_false]
      rw [← Nat.not_even_iff_odd]
      split
      · next heven =>
        refine iff_of_false ?_ (fun h => h heven)
        have hneg : (-32768 : ℤ).sign * (Nat.gcd 32768 b.natAbs : ℕ) < 0 := by
          have hsign : (-32768 : ℤ).sign = -1 := rfl
          rw [hsign]
          omega
        exact not_le.mpr hneg
      · next hodd =>
        refine iff_of_true ?_ hodd
        exact mul_nonneg (sign_natCast_nonneg _) (Int.natCast_nonneg _)
  · have ha'' : abs a = a.natAbs := abs_of_ne (by omega) ha'
    by_cases hmin' : b = -32768
    · subst hmin'
      have hpos := hgcd' a.natAbs
      have hdiv : divisions a.natAbs 32768 = divisions 32768 a.natAbs + 1 := by
        rw [divisions_succ (by decide), Nat.mod_eq_of_lt (by omega)]
      rw [signedGcd, abs_smallest, ha'', Int.natAbs_natCast]
      simp only [ne_eq, not_true_eq_false, and_false, hmin, not_false_eq_true, true_and, false_or, false_and]
      rw [← Nat.not_even_iff_odd, ← Nat.even_add_one, ← hdiv]
      split
      · next heven =>
        refine iff_of_true ?_ heven
        exact mul_nonneg (sign_natCast_nonneg _) (Int.natCast_nonneg _)
      · next hodd =>
        refine iff_of_false ?_ hodd
        have hneg : (-32768 : ℤ).sign * (Nat.gcd a.natAbs 32768 : ℕ) < 0 := by
          have hsign : (-32768 : ℤ).sign = -1 := rfl
          rw [hsign]
          omega
        exact not_le.mpr hneg
    · have hb'' : abs b = b.natAbs := abs_of_ne (by omega) hb'
      refine iff_of_true ?_ (.inl ⟨hmin, hmin'⟩)
      rw [signedGcd, ha'', hb'']
      refine mul_nonneg ?_ (Int.natCast_nonneg _)
      split <;> exact sign_natCast_nonneg _

/-- What `gcd` is to be. -/
structure IsGcd (a b g : ℤ) : Prop where
  nonneg : 0 ≤ g
  dvd_left : g ∣ a
  dvd_right : g ∣ b
  greatest : ∀ d, d ∣ a → d ∣ b → d ∣ g
  eq_zero : g = 0 → a = 0 ∧ b = 0

/-- What `lcm` is to be: 0, or the least positive common multiple if it fits. -/
structure IsLcm (a b l : ℤ) : Prop where
  zero : a = 0 ∨ b = 0 → l = 0
  least : a ≠ 0 → b ≠ 0 → ∀ m, IsLeast {m : ℤ | 0 < m ∧ a ∣ m ∧ b ∣ m} m → m ≤ 32767 → l = m

theorem isGcd_iff {g : ℤ} (hg : g.natAbs = a.natAbs.gcd b.natAbs) : IsGcd a b g ↔ 0 ≤ g := by
  refine ⟨IsGcd.nonneg, fun h => ⟨h, ?_, ?_, fun d hda hdb => ?_, fun hzero => ?_⟩⟩
  · exact Int.natAbs_dvd_natAbs.mp (hg ▸ Nat.gcd_dvd_left _ _)
  · exact Int.natAbs_dvd_natAbs.mp (hg ▸ Nat.gcd_dvd_right _ _)
  · exact Int.natAbs_dvd_natAbs.mp (hg ▸ Nat.dvd_gcd (Int.natAbs_dvd_natAbs.mpr hda) (Int.natAbs_dvd_natAbs.mpr hdb))
  · rw [hzero, Int.natAbs_zero] at hg
    obtain ⟨h1, h2⟩ := Nat.gcd_eq_zero_iff.mp hg.symm
    exact ⟨Int.natAbs_eq_zero.mp h1, Int.natAbs_eq_zero.mp h2⟩

theorem isLeast_lcm (ha : a ≠ 0) (hb : b ≠ 0) {m : ℤ} (hm : IsLeast {m : ℤ | 0 < m ∧ a ∣ m ∧ b ∣ m} m) :
    m = (a.natAbs.lcm b.natAbs : ℕ) := by
  obtain ⟨⟨hpos, hda, hdb⟩, hleast⟩ := hm
  have hlcm : 0 < a.natAbs.lcm b.natAbs := Nat.lcm_pos (Int.natAbs_pos.mpr ha) (Int.natAbs_pos.mpr hb)
  refine le_antisymm (hleast ⟨by exact_mod_cast hlcm, ?_, ?_⟩) ?_
  · exact Int.natAbs_dvd.mp (Int.natCast_dvd_natCast.mpr (Nat.dvd_lcm_left _ _))
  · exact Int.natAbs_dvd.mp (Int.natCast_dvd_natCast.mpr (Nat.dvd_lcm_right _ _))
  · have hdvd : a.natAbs.lcm b.natAbs ∣ m.natAbs := Nat.lcm_dvd (Int.natAbs_dvd_natAbs.mpr hda) (Int.natAbs_dvd_natAbs.mpr hdb)
    have hle := Nat.le_of_dvd (Int.natAbs_pos.mpr hpos.ne') hdvd
    omega

theorem lcm_spec (ha : -32768 ≤ a) (ha' : a ≤ 32767) (hb : -32768 ≤ b) (hb' : b ≤ 32767) {fuel : ℕ} (hfuel : 32768 < fuel) :
    ∃ l, lcm fuel a b = .ok l ∧ IsLcm a b l := by
  by_cases hzero : a = 0 ∨ b = 0
  · refine ⟨0, by rw [lcm, if_pos hzero]; rfl, fun _ => rfl, fun ha0 hb0 => ?_⟩
    exact absurd hzero (not_or.mpr ⟨ha0, hb0⟩)
  · obtain ⟨ha0, hb0⟩ := not_or.mp hzero
    have hnat : (signedGcd (abs a) (abs b)).natAbs = a.natAbs.gcd b.natAbs := by
      rw [natAbs_signedGcd, natAbs_abs ha ha', natAbs_abs hb hb']
    have hg0 : signedGcd (abs a) (abs b) ≠ 0 := by
      rw [← Int.natAbs_ne_zero, hnat]
      exact Nat.gcd_ne_zero_left (Int.natAbs_ne_zero.mpr ha0)
    have hdiv : intDiv a (signedGcd (abs a) (abs b)) = .ok (wrap16 (a.tdiv (signedGcd (abs a) (abs b)))) := by
      rw [intDiv, if_neg hg0, truncDiv_eq]
    refine ⟨abs (wrap16 (wrap16 (a.tdiv (signedGcd (abs a) (abs b))) * b)), ?_, fun h => absurd h hzero, fun _ _ m hm hfits => ?_⟩
    · rw [lcm, if_neg hzero, gcd_eq hb hb' hfuel, ok_bind, hdiv]
      rfl
    · have hlcm : m = (a.natAbs.lcm b.natAbs : ℕ) := isLeast_lcm ha0 hb0 hm
      have hquot : (a.tdiv (signedGcd (abs a) (abs b))).natAbs * b.natAbs = a.natAbs.lcm b.natAbs := by
        rw [Int.natAbs_tdiv, hnat, Nat.lcm]
        exact Nat.div_mul_right_comm (Nat.gcd_dvd_left _ _) _
      generalize a.tdiv (signedGcd (abs a) (abs b)) = q at hquot ⊢
      have hq : q.natAbs ≤ a.natAbs.lcm b.natAbs := hquot ▸ Nat.le_mul_of_pos_right _ (Int.natAbs_pos.mpr hb0)
      have hprod : (q * b).natAbs = a.natAbs.lcm b.natAbs := (Int.natAbs_mul q b).trans hquot
      rw [wrap16_of_range (v := q) (by omega) (by omega), wrap16_of_range (by omega) (by omega), abs_of_ne (by omega) (by omega),
        hprod, hlcm]

/-- `gcd` is the greatest common divisor just where it comes out positive, and `lcm` the
least common multiple everywhere. -/
theorem gcd_lcm_exact (ha : -32768 ≤ a) (ha' : a ≤ 32767) (hb : -32768 ≤ b) (hb' : b ≤ 32767) {fuel : ℕ} (hfuel : 32768 < fuel) :
    ((∃ g, gcd fuel a b = .ok g ∧ IsGcd a b g) ∧ ∃ l, lcm fuel a b = .ok l ∧ IsLcm a b l) ↔ PositiveGcd a b := by
  have hnat : (signedGcd (abs a) (abs b)).natAbs = a.natAbs.gcd b.natAbs := by
    rw [natAbs_signedGcd, natAbs_abs ha ha', natAbs_abs hb hb']
  rw [gcd_eq hb hb' hfuel, ← signedGcd_nonneg_iff ha ha' hb hb', ← isGcd_iff hnat]
  constructor
  · rintro ⟨⟨g, hg, hspec⟩, -⟩
    cases hg
    exact hspec
  · exact fun h => ⟨⟨_, rfl, h⟩, lcm_spec ha ha' hb hb' hfuel⟩

theorem gcd_lcm_twelve : (∃ g, gcd 32769 12 (-18) = .ok g ∧ IsGcd 12 (-18) g) ∧ ∃ l, lcm 32769 12 (-18) = .ok l ∧ IsLcm 12 (-18) l :=
  (gcd_lcm_exact (by decide) (by decide) (by decide) (by decide) (by decide)).mpr (.inl ⟨by decide, by decide⟩)

/-- The remainder of the smallest int by 6 is negative, and so is the divisor. -/
theorem gcd_smallest : ¬ ∃ g, gcd 32769 (-32768) 6 = .ok g ∧ IsGcd (-32768) 6 g := by
  rintro ⟨g, hg, hspec⟩
  have hrun : gcd 32769 (-32768) 6 = .ok (-2) := by rfl
  rw [hrun] at hg
  cases hg
  exact absurd hspec.nonneg (by decide)

end Exactness

end QuinLang.Std
