import Mathlib

/-! Rounding rationals to the nearest multiple of a quantum, ties to even, and the two
quanta that depend on the number: of a binary floating point format, and of a number of
significant digits. -/

namespace Rounding

section Quanta

def roundEven (q : ℚ) : ℤ :=
  if Int.fract q < 1 / 2 then ⌊q⌋
  else if 1 / 2 < Int.fract q then ⌊q⌋ + 1
  else if Even ⌊q⌋ then ⌊q⌋ else ⌊q⌋ + 1

/-- The nearest multiple of `u`. -/
def roundTo (u q : ℚ) : ℚ := roundEven (q / u) * u

theorem abs_roundEven_sub_le (q : ℚ) : |(roundEven q : ℚ) - q| ≤ 1 / 2 := by
  have hfract := Int.self_sub_floor q
  have hnonneg := Int.fract_nonneg q
  have hlt := Int.fract_lt_one q
  unfold roundEven
  rw [abs_le]
  split_ifs <;> push_cast <;> constructor <;> linarith

theorem roundEven_eq {q : ℚ} {n : ℤ} (h : |q - n| < 1 / 2) : roundEven q = n := by
  have hround := abs_roundEven_sub_le q
  have hsub : |((roundEven q - n : ℤ) : ℚ)| < 1 := by
    push_cast
    rw [abs_lt] at h ⊢
    rw [abs_le] at hround
    constructor <;> linarith
  have hint : |roundEven q - n| < 1 := by exact_mod_cast hsub
  exact sub_eq_zero.mp (Int.abs_lt_one_iff.mp hint)

/-- Rounding does not leave a range that ends between whole numbers. -/
theorem abs_roundEven_le_of_lt {q : ℚ} {N : ℤ} (h : |q| < N + 1 / 2) : |roundEven q| ≤ N := by
  have hsub := (abs_sub_abs_le_abs_sub (roundEven q : ℚ) q).trans (abs_roundEven_sub_le q)
  have hlt : ((|roundEven q| : ℤ) : ℚ) < ((N + 1 : ℤ) : ℚ) := by
    push_cast
    linarith
  have hint := Int.cast_lt.mp hlt
  omega

theorem abs_roundEven_le {q : ℚ} {N : ℤ} (h : |q| ≤ N) : |roundEven q| ≤ N :=
  abs_roundEven_le_of_lt (h.trans_lt (by linarith))

variable {u q : ℚ}

theorem abs_roundTo_sub_le (hu : 0 < u) (q : ℚ) : |roundTo u q - q| ≤ u / 2 := by
  have h := abs_roundEven_sub_le (q / u)
  have heq : roundTo u q - q = ((roundEven (q / u) : ℚ) - q / u) * u := by
    rw [roundTo, sub_mul, div_mul_cancel₀ q hu.ne']
  rw [heq, abs_mul, abs_of_pos hu]
  nlinarith

theorem roundTo_eq (hu : 0 < u) {n : ℤ} (h : |q - n * u| < u / 2) : roundTo u q = n * u := by
  rw [roundTo, roundEven_eq]
  have heq : q / u - n = (q - n * u) / u := by
    rw [sub_div, mul_div_cancel_right₀ _ hu.ne']
  rw [heq, abs_div, abs_of_pos hu, div_lt_iff₀ hu]
  linarith

@[simp]
theorem roundTo_zero (u : ℚ) : roundTo u 0 = 0 := by
  have h : roundEven 0 = 0 := roundEven_eq (by norm_num)
  rw [roundTo, zero_div, h, Int.cast_zero, zero_mul]

end Quanta

section Powers

variable {b : ℕ} {q : ℚ}

/-- A multiple of a power of the base is one of every smaller power. -/
theorem multiple_of_le (hb : 0 < b) (m : ℤ) {e e' : ℤ} (h : e' ≤ e) : ∃ n : ℤ, (m : ℚ) * (b : ℚ) ^ e = n * (b : ℚ) ^ e' := by
  obtain ⟨k, rfl⟩ := Int.le.dest h
  refine ⟨m * (b : ℤ) ^ k, ?_⟩
  have hne : (b : ℚ) ≠ 0 := by exact_mod_cast hb.ne'
  rw [zpow_add₀ hne, zpow_natCast]
  push_cast
  ring

/-- Two multiples of one quantum are equal or a quantum apart. -/
theorem le_sub_of_lt {u : ℚ} (hu : 0 < u) {m n : ℤ} (h : (m : ℚ) * u < n * u) : (m : ℚ) * u ≤ n * u - u := by
  have hlt : m < n := by exact_mod_cast lt_of_mul_lt_mul_right h hu.le
  have hle : (m : ℚ) + 1 ≤ n := by exact_mod_cast hlt
  nlinarith

theorem two_pow_log_le (hq : q ≠ 0) : (2 : ℚ) ^ Int.log 2 |q| ≤ |q| := by
  exact_mod_cast Int.zpow_log_le_self one_lt_two (abs_pos.mpr hq)

theorem lt_two_pow_log (q : ℚ) : |q| < (2 : ℚ) ^ (Int.log 2 |q| + 1) := by
  exact_mod_cast Int.lt_zpow_succ_log_self one_lt_two |q|

theorem ten_pow_log_le (hq : q ≠ 0) : (10 : ℚ) ^ Int.log 10 |q| ≤ |q| := by
  exact_mod_cast Int.zpow_log_le_self (b := 10) (by norm_num) (abs_pos.mpr hq)

theorem lt_ten_pow_log (q : ℚ) : |q| < (10 : ℚ) ^ (Int.log 10 |q| + 1) := by
  exact_mod_cast Int.lt_zpow_succ_log_self (b := 10) (by norm_num) |q|

theorem le_log_two (hq : 0 < q) {e : ℤ} (h : (2 : ℚ) ^ e ≤ q) : e ≤ Int.log 2 q :=
  (Int.zpow_le_iff_le_log one_lt_two hq).mp (by exact_mod_cast h)

theorem log_two_lt (hq : 0 < q) {e : ℤ} (h : q < (2 : ℚ) ^ e) : Int.log 2 q < e :=
  (Int.lt_zpow_iff_log_lt one_lt_two hq).mp (by exact_mod_cast h)

theorem multiple_of_two_pow (m : ℤ) {e e' : ℤ} (h : e' ≤ e) : ∃ n : ℤ, (m : ℚ) * (2 : ℚ) ^ e = n * (2 : ℚ) ^ e' :=
  multiple_of_le (b := 2) (by norm_num) m h

theorem multiple_of_ten_pow (m : ℤ) {e e' : ℤ} (h : e' ≤ e) : ∃ n : ℤ, (m : ℚ) * (10 : ℚ) ^ e = n * (10 : ℚ) ^ e' :=
  multiple_of_le (b := 10) (by norm_num) m h

end Powers

section Formats

/-- The exponent of the last place of a number of `p` bits, not below `emin`. -/
def lastPlace (p : ℕ) (emin : ℤ) (q : ℚ) : ℤ := max (Int.log 2 |q| - (p - 1)) emin

/-- To the nearest number of `p` bits, however large. -/
def roundFloat (p : ℕ) (emin : ℤ) (q : ℚ) : ℚ := roundTo ((2 : ℚ) ^ lastPlace p emin q) q

/-- Numbers of `p` bits. -/
def IsFloat (p : ℕ) (emin : ℤ) (x : ℚ) : Prop := ∃ m e : ℤ, |m| < 2 ^ p ∧ emin ≤ e ∧ x = m * (2 : ℚ) ^ e

variable {p : ℕ} {emin : ℤ} {x y : ℚ}

theorem two_zpow_pos (e : ℤ) : (0 : ℚ) < (2 : ℚ) ^ e := zpow_pos (by norm_num) e

/-- Not to exceed half a last place. -/
theorem abs_roundFloat_sub_le (p : ℕ) (emin : ℤ) (q : ℚ) : |roundFloat p emin q - q| ≤ (2 : ℚ) ^ lastPlace p emin q / 2 :=
  abs_roundTo_sub_le (two_zpow_pos _) q

/-- The error is no more than that of the numbers that reach `2 ^ e`. -/
theorem abs_roundFloat_sub_le_of_lt {e : ℤ} {q : ℚ} (hq : |q| < 2 ^ e) (he : emin ≤ e - p) :
    |roundFloat p emin q - q| ≤ (2 : ℚ) ^ (e - p) / 2 := by
  obtain rfl | hq0 := eq_or_ne q 0
  · rw [roundFloat, roundTo_zero, sub_zero, abs_zero]
    positivity
  have hlog := log_two_lt (abs_pos.mpr hq0) hq
  have hlast : lastPlace p emin q ≤ e - p := by
    unfold lastPlace
    omega
  refine (abs_roundFloat_sub_le p emin q).trans ?_
  gcongr
  norm_num

/-- A float is a whole number of its last places, which is no larger than itself. -/
theorem IsFloat.lastPlace_le (h : IsFloat p emin x) (hx : x ≠ 0) :
    (∃ n : ℤ, x = n * (2 : ℚ) ^ lastPlace p emin x) ∧ lastPlace p emin x ≤ Int.log 2 |x| := by
  obtain ⟨m, e, hm, he, rfl⟩ := h
  have hm0 : m ≠ 0 := by
    rintro rfl
    exact hx (by simp)
  have hpos := two_zpow_pos e
  have habs : |(m : ℚ) * (2 : ℚ) ^ e| = |(m : ℚ)| * (2 : ℚ) ^ e := by rw [abs_mul, abs_of_pos hpos]
  have hlow : e ≤ Int.log 2 |(m : ℚ) * (2 : ℚ) ^ e| := by
    refine le_log_two (abs_pos.mpr hx) ?_
    rw [habs]
    have hone : (1 : ℚ) ≤ |(m : ℚ)| := by exact_mod_cast Int.one_le_abs hm0
    nlinarith
  have hhigh : Int.log 2 |(m : ℚ) * (2 : ℚ) ^ e| < e + p := by
    refine log_two_lt (abs_pos.mpr hx) ?_
    have hlt : |(m : ℚ)| < (2 : ℚ) ^ (p : ℤ) := by
      rw [zpow_natCast]
      exact_mod_cast hm
    rw [habs, zpow_add₀ (by norm_num), mul_comm]
    exact mul_lt_mul_of_pos_left hlt hpos
  have hp : 1 ≤ p := by
    by_contra hp
    obtain rfl : p = 0 := by omega
    exact hm0 (Int.abs_lt_one_iff.mp (by simpa using hm))
  constructor
  · refine multiple_of_two_pow m ?_
    unfold lastPlace
    omega
  · unfold lastPlace
    omega

/-- What is nearer to a float than a quarter of its last place rounds to it. -/
theorem IsFloat.roundFloat_eq (h : IsFloat p emin x) (hx : x ≠ 0) (hy : |y - x| < (2 : ℚ) ^ lastPlace p emin x / 4) :
    roundFloat p emin y = x := by
  obtain ⟨⟨n, hn⟩, hle⟩ := h.lastPlace_le hx
  have hu := two_zpow_pos (lastPlace p emin x)
  have hlow := two_pow_log_le hx
  have hhigh := lt_two_pow_log x
  have hplace : (2 : ℚ) ^ lastPlace p emin x ≤ (2 : ℚ) ^ Int.log 2 |x| := zpow_le_zpow_right₀ (by norm_num) hle
  obtain ⟨hylow, hyhigh⟩ := abs_lt.mp ((abs_abs_sub_abs_le y x).trans_lt hy)
  -- the nearest larger power of two is a last place away
  have hroom : |x| ≤ (2 : ℚ) ^ (Int.log 2 |x| + 1) - (2 : ℚ) ^ lastPlace p emin x := by
    obtain ⟨k, hk⟩ := multiple_of_two_pow 1 (show lastPlace p emin x ≤ Int.log 2 |x| + 1 by omega)
    rw [Int.cast_one, one_mul] at hk
    have habs : |x| = (|n| : ℤ) * (2 : ℚ) ^ lastPlace p emin x := by
      conv_lhs => rw [hn, abs_mul, abs_of_pos hu]
      rw [Int.cast_abs]
    have hlt : ((|n| : ℤ) : ℚ) * (2 : ℚ) ^ lastPlace p emin x < k * (2 : ℚ) ^ lastPlace p emin x := by
      rw [← habs, ← hk]
      exact hhigh
    have hsub := le_sub_of_lt hu hlt
    rw [← habs, ← hk] at hsub
    exact hsub
  have hhalf : (2 : ℚ) ^ (Int.log 2 |x| - 1) = (2 : ℚ) ^ Int.log 2 |x| / 2 := by
    rw [zpow_sub_one₀ (by norm_num)]
    ring
  have hy0 : 0 < |y| := by linarith [two_zpow_pos (Int.log 2 |x|)]
  have hlogle : Int.log 2 |x| - 1 ≤ Int.log 2 |y| := le_log_two hy0 (by rw [hhalf]; linarith [two_zpow_pos (Int.log 2 |x|)])
  have hlogge : Int.log 2 |y| < Int.log 2 |x| + 1 := log_two_lt hy0 (by linarith)
  have hplacele : lastPlace p emin y ≤ lastPlace p emin x := by
    unfold lastPlace
    omega
  have hplacege : lastPlace p emin x - 1 ≤ lastPlace p emin y := by
    unfold lastPlace
    omega
  obtain ⟨m, hm⟩ := multiple_of_two_pow n hplacele
  have hquarter : (2 : ℚ) ^ lastPlace p emin x / 2 ≤ (2 : ℚ) ^ lastPlace p emin y := by
    have h := zpow_le_zpow_right₀ (a := (2 : ℚ)) (by norm_num) hplacege
    rw [zpow_sub_one₀ (by norm_num)] at h
    linarith
  rw [hn, hm]
  refine roundTo_eq (two_zpow_pos _) ?_
  rw [← hm, ← hn]
  linarith

/-- Rounding gives a float, also where it carries into one more bit. -/
theorem isFloat_roundFloat (hp : 1 ≤ p) (q : ℚ) : IsFloat p emin (roundFloat p emin q) := by
  have hu := two_zpow_pos (lastPlace p emin q)
  have hhigh := lt_two_pow_log q
  have hquot : |q / (2 : ℚ) ^ lastPlace p emin q| ≤ 2 ^ p := by
    rw [abs_div, abs_of_pos hu, div_le_iff₀ hu, ← zpow_natCast, ← zpow_add₀ (by norm_num)]
    refine hhigh.le.trans (zpow_le_zpow_right₀ (by norm_num) ?_)
    unfold lastPlace
    omega
  have hle : |roundEven (q / (2 : ℚ) ^ lastPlace p emin q)| ≤ 2 ^ p := abs_roundEven_le (by exact_mod_cast hquot)
  have hemin : emin ≤ lastPlace p emin q := le_max_right _ _
  obtain hlt | heq := hle.lt_or_eq
  · exact ⟨_, _, hlt, hemin, rfl⟩
  · obtain ⟨s, hs, hround⟩ : ∃ s : ℤ, |s| = 1 ∧ roundEven (q / (2 : ℚ) ^ lastPlace p emin q) = s * 2 ^ p := by
      obtain h | h := abs_eq (by positivity) |>.mp heq
      · exact ⟨1, by norm_num, by rw [h, one_mul]⟩
      · exact ⟨-1, by norm_num, by rw [h, neg_one_mul]⟩
    refine ⟨s, lastPlace p emin q + p, ?_, by omega, ?_⟩
    · rw [hs]
      exact one_lt_pow₀ (by norm_num) (by omega)
    · rw [roundFloat, roundTo, hround, zpow_add₀ (by norm_num), zpow_natCast]
      push_cast
      ring

theorem abs_roundFloat_le (hp : 1 ≤ p) (hemin : emin ≤ 0) (q : ℚ) : |roundFloat p emin q| ≤ 2 * |q| + 1 := by
  obtain rfl | hq := eq_or_ne q 0
  · rw [roundFloat, roundTo_zero, abs_zero]
    norm_num
  have hclose := (abs_sub_abs_le_abs_sub (roundFloat p emin q) q).trans (abs_roundFloat_sub_le p emin q)
  have hplace : (2 : ℚ) ^ lastPlace p emin q ≤ |q| + 1 := by
    obtain h | h := max_choice (Int.log 2 |q| - (p - 1)) emin
    · have hle := zpow_le_zpow_right₀ (a := (2 : ℚ)) (by norm_num) (show Int.log 2 |q| - (p - 1) ≤ Int.log 2 |q| by omega)
      rw [lastPlace, h]
      linarith [two_pow_log_le hq]
    · have hle := zpow_le_one_of_nonpos₀ (a := (2 : ℚ)) (by norm_num) hemin
      rw [lastPlace, h]
      linarith [abs_nonneg q]
  linarith [abs_nonneg q]

/-- Of numbers no smaller than the smallest with `p` bits, not to exceed a part in `2 ^ p`. -/
theorem abs_roundFloat_sub_mul_le (hq : (2 : ℚ) ^ (emin + (p - 1)) ≤ |x|) : |roundFloat p emin x - x| * 2 ^ p ≤ |x| := by
  have hpos : 0 < |x| := (two_zpow_pos _).trans_le hq
  have hlog := le_log_two hpos hq
  have hclose := abs_roundFloat_sub_le p emin x
  have hlast : lastPlace p emin x = Int.log 2 |x| + 1 - p := by
    unfold lastPlace
    omega
  have hhalf : (2 : ℚ) ^ (Int.log 2 |x| + 1 - p) / 2 = 2 ^ Int.log 2 |x| / 2 ^ p := by
    rw [zpow_sub₀ (by norm_num), zpow_natCast, zpow_add_one₀ (by norm_num)]
    ring
  rw [hlast, hhalf] at hclose
  rw [← le_div_iff₀ (by positivity)]
  refine hclose.trans ?_
  gcongr
  exact two_pow_log_le (abs_pos.mp hpos)

/-- Of a float, what differs by a part in four times `2 ^ p` rounds to it. -/
theorem IsFloat.roundFloat_near (h : IsFloat p emin x) (hx : x ≠ 0) (hy : |y - x| * (4 * 2 ^ p) ≤ |x|) : roundFloat p emin y = x := by
  refine h.roundFloat_eq hx ?_
  have hlast : Int.log 2 |x| + 1 - p ≤ lastPlace p emin x := by
    unfold lastPlace
    omega
  have hplace := zpow_le_zpow_right₀ (a := (2 : ℚ)) (by norm_num) hlast
  rw [zpow_sub₀ (by norm_num), zpow_natCast] at hplace
  have hhigh := lt_two_pow_log x
  have hpow : (0 : ℚ) < 2 ^ p := by positivity
  rw [div_le_iff₀ hpow] at hplace
  rw [lt_div_iff₀ (by norm_num)]
  refine lt_of_mul_lt_mul_right ?_ hpow.le
  linarith

end Formats

section Digits

/-- To the nearest number of `d` significant digits. -/
def roundDigits (d : ℕ) (q : ℚ) : ℚ := roundTo ((10 : ℚ) ^ (Int.log 10 |q| - (d - 1))) q

/-- Numbers of `d` significant digits. -/
def IsDecimal (d : ℕ) (v : ℚ) : Prop := ∃ n k : ℤ, |n| < 10 ^ d ∧ v = n * (10 : ℚ) ^ k

variable {d d' : ℕ} {q v : ℚ}

theorem ten_zpow_pos (e : ℤ) : (0 : ℚ) < (10 : ℚ) ^ e := zpow_pos (by norm_num) e

theorem IsDecimal.mono (h : IsDecimal d v) (hle : d ≤ d') : IsDecimal d' v := by
  obtain ⟨n, k, hn, hv⟩ := h
  exact ⟨n, k, hn.trans_le (pow_le_pow_right₀ (by norm_num) hle), hv⟩

theorem isDecimal_zero (d : ℕ) : IsDecimal d 0 := ⟨0, 0, by simp, by simp⟩

theorem abs_roundDigits_sub_le (d : ℕ) (q : ℚ) :
    |roundDigits d q - q| ≤ (10 : ℚ) ^ (Int.log 10 |q| - (d - 1)) / 2 :=
  abs_roundTo_sub_le (ten_zpow_pos _) q

/-- Not to exceed half a part in ten for each digit but the first. -/
theorem abs_roundDigits_sub_mul_le (d : ℕ) (q : ℚ) : |roundDigits (d + 1) q - q| * (2 * 10 ^ d) ≤ |q| := by
  obtain rfl | hq := eq_or_ne q 0
  · rw [roundDigits, roundTo_zero, sub_zero, abs_zero, zero_mul]
  have hclose := abs_roundDigits_sub_le (d + 1) q
  have hexp : Int.log 10 |q| - (((d + 1 : ℕ) : ℤ) - 1) = Int.log 10 |q| - d := by
    push_cast
    ring
  rw [hexp, zpow_sub₀ (by norm_num), zpow_natCast, div_div, mul_comm _ (2 : ℚ)] at hclose
  rw [← le_div_iff₀ (by positivity)]
  refine hclose.trans ?_
  gcongr
  exact ten_pow_log_le hq

/-- The exponent of a nonzero number of few digits is not far below the number. -/
theorem IsDecimal.multiple (h : IsDecimal d v) {e : ℤ} (he : (10 : ℚ) ^ e ≤ |v|) :
    ∃ n : ℤ, v = n * (10 : ℚ) ^ (e - (d - 1)) := by
  obtain ⟨n, k, hn, rfl⟩ := h
  refine multiple_of_ten_pow n ?_
  have hlt : |(n : ℚ)| < (10 : ℚ) ^ (d : ℤ) := by
    rw [zpow_natCast]
    exact_mod_cast hn
  have hpow : (10 : ℚ) ^ e < (10 : ℚ) ^ (d + k : ℤ) := by
    rw [zpow_add₀ (by norm_num)]
    rw [abs_mul, abs_of_pos (ten_zpow_pos k)] at he
    exact he.trans_lt (mul_lt_mul_of_pos_right hlt (ten_zpow_pos k))
  have hexp := (zpow_lt_zpow_iff_right₀ (by norm_num)).mp hpow
  omega

/-- A number of few digits is rounded to itself. -/
theorem IsDecimal.roundDigits_eq (h : IsDecimal d v) : roundDigits d v = v := by
  obtain rfl | hv := eq_or_ne v 0
  · exact roundTo_zero _
  · obtain ⟨n, hn⟩ := h.multiple (ten_pow_log_le hv)
    have hu := ten_zpow_pos (Int.log 10 |v| - (d - 1))
    have hround := roundTo_eq (q := v) (n := n) hu (by rw [← hn, sub_self, abs_zero]; exact half_pos hu)
    exact hround.trans hn.symm

/-- Rounding does not fall below the leading power of ten. -/
theorem pow_log_le_roundDigits (hd : 1 ≤ d) (hq : q ≠ 0) : (10 : ℚ) ^ Int.log 10 |q| ≤ |roundDigits d q| := by
  have hu := ten_zpow_pos (Int.log 10 |q| - (d - 1))
  have hclose := abs_roundDigits_sub_le d q
  have hlow := ten_pow_log_le hq
  obtain ⟨k, hk⟩ := multiple_of_ten_pow 1 (show Int.log 10 |q| - (d - 1) ≤ Int.log 10 |q| by omega)
  rw [Int.cast_one, one_mul] at hk
  have habs : |roundDigits d q| =
      (|roundEven (q / (10 : ℚ) ^ (Int.log 10 |q| - (d - 1)))| : ℤ) * (10 : ℚ) ^ (Int.log 10 |q| - (d - 1)) := by
    rw [roundDigits, roundTo, abs_mul, abs_of_pos hu, Int.cast_abs]
  by_contra hlt
  rw [not_le] at hlt
  have hgap := hlt
  rw [habs, hk] at hgap
  have hsub := le_sub_of_lt hu hgap
  rw [← habs, ← hk] at hsub
  have hback := (abs_abs_sub_abs_le q (roundDigits d q)).trans (abs_sub_comm q _ ▸ hclose)
  have := (abs_le.mp hback).2
  linarith

theorem isDecimal_roundDigits (hd : 1 ≤ d) (q : ℚ) : IsDecimal d (roundDigits d q) := by
  have hu := ten_zpow_pos (Int.log 10 |q| - (d - 1))
  have hhigh := lt_ten_pow_log q
  have hquot : |q / (10 : ℚ) ^ (Int.log 10 |q| - (d - 1))| < 10 ^ d := by
    rw [abs_div, abs_of_pos hu, div_lt_iff₀ hu]
    have heq : (10 : ℚ) ^ d * (10 : ℚ) ^ (Int.log 10 |q| - (d - 1)) = (10 : ℚ) ^ (Int.log 10 |q| + 1) := by
      rw [← zpow_natCast, ← zpow_add₀ (by norm_num)]
      congr 1
      ring
    rw [heq]
    exact hhigh
  have hle : |roundEven (q / (10 : ℚ) ^ (Int.log 10 |q| - (d - 1)))| ≤ 10 ^ d :=
    abs_roundEven_le (by exact_mod_cast hquot.le)
  obtain hlt | heq := hle.lt_or_eq
  · exact ⟨_, _, hlt, rfl⟩
  · -- all nines were carried into one more digit
    obtain ⟨s, hs, hround⟩ : ∃ s : ℤ, |s| = 1 ∧ roundEven (q / (10 : ℚ) ^ (Int.log 10 |q| - (d - 1))) = s * 10 ^ d := by
      obtain h | h := abs_eq (by positivity) |>.mp heq
      · exact ⟨1, by norm_num, by rw [h, one_mul]⟩
      · exact ⟨-1, by norm_num, by rw [h, neg_one_mul]⟩
    refine ⟨s, Int.log 10 |q| - (d - 1) + d, ?_, ?_⟩
    · rw [hs]
      exact one_lt_pow₀ (by norm_num) (by omega)
    · rw [roundDigits, roundTo, hround, zpow_add₀ (by norm_num), zpow_natCast]
      push_cast
      ring

/-- A rounding that needs fewer digits is the rounding to that many. -/
theorem roundDigits_of_isDecimal (hd : 1 ≤ d) (hle : d ≤ d') (h : IsDecimal d (roundDigits d' q)) :
    roundDigits d q = roundDigits d' q := by
  obtain rfl | hlt := hle.eq_or_lt
  · rfl
  obtain rfl | hq := eq_or_ne q 0
  · rw [roundDigits, roundDigits, roundTo_zero, roundTo_zero]
  obtain ⟨n, hn⟩ := h.multiple (pow_log_le_roundDigits (by omega) hq)
  have hclose := abs_roundDigits_sub_le d' q
  rw [hn] at hclose ⊢
  refine roundTo_eq (ten_zpow_pos _) ?_
  rw [abs_sub_comm]
  have hstep : (10 : ℚ) ^ (Int.log 10 |q| - (d' - 1)) < (10 : ℚ) ^ (Int.log 10 |q| - (d - 1)) :=
    zpow_lt_zpow_right₀ (by norm_num) (by omega)
  linarith

end Digits

end Rounding
