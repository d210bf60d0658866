import QuinLang.Lib.Rounding
import QuinLang.Lib.StateExcept
import QuinLang.Runtime.Interpreter

/-! The text a float prints as, and when it is the shortest that reads back. -/

namespace QuinLang

open Rounding

section Numerals

def digitsValue (digits : List Char) : ℕ := digits.foldl (fun n c => n * 10 + (c.toNat - 48)) 0

def exponentOf (cs : List Char) : Option ℤ :=
  if cs ≠ [] ∧ cs.all Char.isDigit then some (digitsValue cs) else none

/-- The exponent that may end a numeral. -/
def exponentPart : List Char → Option ℤ
  | [] => some 0
  | c :: cs =>
    if c = 'e' ∨ c = 'E' then
      match cs with
      | '-' :: cs => (exponentOf cs).map (- ·)
      | '+' :: cs => exponentOf cs
      | cs => exponentOf cs
    else none

def scaled (digits : List Char) (places : ℕ) (rest : List Char) : Option ℚ :=
  if digits = [] then none
  else (exponentPart rest).map fun e => digitsValue digits * (10 : ℚ) ^ (e - (places : ℤ))

def unsignedNumeral (cs : List Char) : Option ℚ :=
  let whole := cs.takeWhile Char.isDigit
  match cs.dropWhile Char.isDigit with
  | '.' :: rest =>
    let places := rest.takeWhile Char.isDigit
    scaled (whole ++ places) places.length (rest.dropWhile Char.isDigit)
  | rest => scaled whole 0 rest

def numeral : List Char → Option ℚ
  | '-' :: cs => (unsignedNumeral cs).map (- ·)
  | '+' :: cs => unsignedNumeral cs
  | cs => unsignedNumeral cs

/-- The number that a decimal text stands for. -/
def spells (text : String) : Option ℚ := numeral text.toList

/-- A text with a decimal point or an exponent. -/
def marked (text : String) : Bool := text.toList.any (fun c => c == '.' || c == 'e' || c == 'E')

theorem digitsValue_concat (digits : List Char) (c : Char) :
    digitsValue (digits ++ [c]) = digitsValue digits * 10 + (c.toNat - 48) := by
  rw [digitsValue, List.foldl_append]
  rfl

variable {cs : List Char} {q : ℚ}

/-- A numeral without a point or an exponent is digits only. -/
theorem unsignedNumeral_digits (h : unsignedNumeral cs = some q) (hmark : cs.any (fun c => c == '.' || c == 'e' || c == 'E') = false) :
    cs ≠ [] ∧ (∀ c ∈ cs, c.isDigit = true) ∧ q = digitsValue cs := by
  have hsplit := List.takeWhile_append_dropWhile (p := Char.isDigit) (l := cs)
  cases hrest : cs.dropWhile Char.isDigit with
  | nil =>
    rw [hrest, List.append_nil] at hsplit
    rw [unsignedNumeral, hrest, hsplit] at h
    have hne : cs ≠ [] := by
      rintro rfl
      simp [scaled] at h
    refine ⟨hne, fun c hc => List.mem_takeWhile_imp (hsplit ▸ hc), ?_⟩
    simpa [scaled, hne, exponentPart] using h.symm
  | cons c rest =>
    have hmem : c ∈ cs := by
      rw [← hsplit, hrest]
      simp
    have hc := List.any_eq_false.mp hmark c hmem
    simp only [Bool.or_eq_true, beq_iff_eq, not_or] at hc
    rw [unsignedNumeral, hrest] at h
    simp [scaled, exponentPart, hc] at h

theorem unsignedNumeral_point (h : unsignedNumeral cs = some q) (hmark : cs.any (fun c => c == '.' || c == 'e' || c == 'E') = false) :
    unsignedNumeral (cs ++ ['.', '0']) = some q := by
  obtain ⟨hne, hdigits, rfl⟩ := unsignedNumeral_digits h hmark
  have htake : (cs ++ ['.', '0']).takeWhile Char.isDigit = cs := by
    rw [List.takeWhile_append_of_pos hdigits]
    simp
  have hdrop : (cs ++ ['.', '0']).dropWhile Char.isDigit = ['.', '0'] := by
    rw [List.dropWhile_append_of_pos hdigits]
    rfl
  have hscaled : scaled (cs ++ ['0']) 1 [] = some (digitsValue cs : ℚ) := by
    rw [scaled, if_neg (by simp), digitsValue_concat]
    simp [exponentPart]
  rw [unsignedNumeral, htake, hdrop]
  exact hscaled

theorem numeral_point (h : numeral cs = some q) (hmark : cs.any (fun c => c == '.' || c == 'e' || c == 'E') = false) :
    numeral (cs ++ ['.', '0']) = some q := by
  unfold numeral at h ⊢
  split at h
  · next cs =>
    obtain ⟨r, hr, rfl⟩ := Option.map_eq_some_iff.mp h
    rw [List.cons_append]
    simp [unsignedNumeral_point hr (by simpa using hmark)]
  · next cs =>
    rw [List.cons_append]
    simpa using unsignedNumeral_point h (by simpa using hmark)
  · next hminus hplus =>
    split
    · next tail heq =>
      cases cs with
      | nil => simp at heq
      | cons c cs =>
        obtain ⟨rfl, -⟩ := List.cons.inj heq
        exact absurd rfl (hminus cs)
    · next tail heq =>
      cases cs with
      | nil => simp at heq
      | cons c cs =>
        obtain ⟨rfl, -⟩ := List.cons.inj heq
        exact absurd rfl (hplus cs)
    · exact unsignedNumeral_point h hmark

theorem spells_point {text : String} (h : spells text = some q) (hmark : marked text = false) : spells (text ++ ".0") = some q := by
  rw [spells, String.toList_append]
  exact numeral_point h hmark

end Numerals

section Reading

def toDouble (q : ℚ) : ℚ := roundFloat 53 (-1074) q

def toSingle (q : ℚ) : ℚ := roundFloat 24 (-149) q

/-- The finite numbers of 32 bits. -/
structure IsSingle (x : ℚ) : Prop where
  float : IsFloat 24 (-149) x
  lt : |x| < 2 ^ 128

/-- The nearest decimal of `d` digits, read as a 64-bit number and packed into 32 bits. -/
def readBack (d : ℕ) (x : ℚ) : ℚ := toSingle (toDouble (roundDigits d x))

/-- Some decimal of `d` digits reads as `x`. -/
def Suffices (d : ℕ) (x : ℚ) : Prop := ∃ w, IsDecimal d w ∧ toSingle w = x

variable {x : ℚ} {d : ℕ}

theorem abs_roundDigits_le (hd : 1 ≤ d) (x : ℚ) : |roundDigits d x| ≤ 2 * |x| := by
  obtain ⟨d, rfl⟩ := Nat.exists_eq_succ_of_ne_zero (Nat.one_le_iff_ne_zero.mp hd)
  have hclose := abs_roundDigits_sub_mul_le d x
  have hten : (1 : ℚ) ≤ 10 ^ d := one_le_pow₀ (by norm_num)
  have hsub := abs_sub_abs_le_abs_sub (roundDigits (d + 1) x) x
  have hpart : |roundDigits (d + 1) x - x| ≤ |roundDigits (d + 1) x - x| * (2 * 10 ^ d) :=
    le_mul_of_one_le_right (abs_nonneg _) (by linarith)
  simp only [Nat.succ_eq_add_one]
  linarith

theorem IsSingle.abs_toDouble_lt (h : IsSingle x) (hd : 1 ≤ d) : |toDouble (roundDigits d x)| < 2 ^ 1024 := by
  have hround : |toDouble (roundDigits d x)| ≤ 2 * |roundDigits d x| + 1 := abs_roundFloat_le (by norm_num) (by norm_num) _
  have hle := abs_roundDigits_le hd x
  have hlt := h.lt
  calc |toDouble (roundDigits d x)| ≤ 2 * |roundDigits d x| + 1 := hround
    _ < 2 * (2 * 2 ^ 128) + 1 := by linarith
    _ ≤ 2 ^ 131 := by norm_num
    _ < 2 ^ 1024 := pow_lt_pow_right₀ (by norm_num) (by norm_num)

theorem IsSingle.smallest_le (h : IsSingle x) (hx : x ≠ 0) : (2 : ℚ) ^ (-149 : ℤ) ≤ |x| := by
  obtain ⟨-, hle⟩ := h.float.lastPlace_le hx
  have hlog : (-149 : ℤ) ≤ Int.log 2 |x| := le_trans (le_max_right _ _) hle
  exact (zpow_le_zpow_right₀ (by norm_num) hlog).trans (two_pow_log_le hx)

/-- Nine digits identify a number of 32 bits, read directly or through 64 bits. -/
theorem IsSingle.nine_digits (h : IsSingle x) : toSingle (roundDigits 9 x) = x ∧ readBack 9 x = x := by
  obtain rfl | hx := eq_or_ne x 0
  · simp [readBack, toSingle, toDouble, roundDigits, roundFloat]
  have hclose := abs_roundDigits_sub_mul_le 8 x
  simp only [Nat.reduceAdd] at hclose
  have hsmall : (2 : ℚ) ^ ((-1074 : ℤ) + ((53 : ℕ) - 1)) ≤ |roundDigits 9 x| := by
    have hsub := abs_sub_abs_le_abs_sub x (roundDigits 9 x)
    rw [abs_sub_comm] at hsub
    have hle := h.smallest_le hx
    have hstep : (2 : ℚ) ^ ((-1074 : ℤ) + ((53 : ℕ) - 1)) ≤ 2 ^ (-150 : ℤ) := zpow_le_zpow_right₀ (by norm_num) (by norm_num)
    have hhalf : (2 : ℚ) ^ (-149 : ℤ) = 2 * 2 ^ (-150 : ℤ) := by norm_num
    refine hstep.trans ?_
    rw [hhalf] at hle
    generalize (2 : ℚ) ^ (-150 : ℤ) = u at hle ⊢
    linarith [abs_nonneg x]
  have hdouble : |toDouble (roundDigits 9 x) - roundDigits 9 x| * 2 ^ 53 ≤ |roundDigits 9 x| := abs_roundFloat_sub_mul_le hsmall
  have htotal := abs_sub_le (toDouble (roundDigits 9 x)) (roundDigits 9 x) x
  have hround := abs_roundDigits_le (d := 9) (by norm_num) x
  constructor
  · refine h.float.roundFloat_near hx ?_
    linarith [abs_nonneg (roundDigits 9 x - x)]
  · refine h.float.roundFloat_near hx ?_
    linarith [abs_nonneg (roundDigits 9 x - x), abs_nonneg x]

end Reading

section Overflow

variable {x : ℚ} {d : ℕ}

/-- Below it the nearest decimals of any number of digits are packed without overflow. -/
def overflowFrom : ℚ := 34025 * 10 ^ 34

theorem abs_roundDigits_le_overflowFrom (hd : 1 ≤ d) (hx : |x| < overflowFrom) : |roundDigits d x| ≤ overflowFrom := by
  obtain rfl | hx0 := eq_or_ne x 0
  · rw [roundDigits, roundTo_zero, abs_zero]
    norm_num [overflowFrom]
  have hlog : Int.log 10 |x| < 39 :=
    (Int.lt_zpow_iff_log_lt (b := 10) (by norm_num) (abs_pos.mpr hx0)).mp (hx.trans (by norm_num [overflowFrom]))
  obtain hlow | htop := (show Int.log 10 |x| ≤ 38 by omega).lt_or_eq
  · have hclose := abs_roundDigits_sub_le d x
    have hsub := abs_sub_abs_le_abs_sub (roundDigits d x) x
    have hhigh : |x| < (10 : ℚ) ^ (38 : ℤ) := (lt_ten_pow_log x).trans_le (zpow_le_zpow_right₀ (by norm_num) (by omega))
    have hplace : (10 : ℚ) ^ (Int.log 10 |x| - (d - 1)) ≤ 10 ^ (37 : ℤ) := zpow_le_zpow_right₀ (by norm_num) (by omega)
    norm_num [overflowFrom] at hhigh hplace ⊢
    linarith
  · have hscaled : |x / 10 ^ ((38 : ℤ) - (d - 1))| < overflowFrom / 10 ^ ((38 : ℤ) - (d - 1)) := by
      rw [abs_div, abs_of_pos (ten_zpow_pos _)]
      gcongr
    have hbound : ∃ N : ℤ, overflowFrom / (10 : ℚ) ^ ((38 : ℤ) - (d - 1)) ≤ N + 1 / 2 ∧ N * (10 : ℚ) ^ ((38 : ℤ) - (d - 1)) ≤ overflowFrom := by
      obtain h | h := le_or_gt d 4
      · interval_cases d
        · exact ⟨3, by norm_num [overflowFrom], by norm_num [overflowFrom]⟩
        · exact ⟨34, by norm_num [overflowFrom], by norm_num [overflowFrom]⟩
        · exact ⟨340, by norm_num [overflowFrom], by norm_num [overflowFrom]⟩
        · exact ⟨3402, by norm_num [overflowFrom], by norm_num [overflowFrom]⟩
      · obtain ⟨k, rfl⟩ := Nat.exists_eq_add_of_lt h
        have hplace : (10 : ℚ) ^ ((38 : ℤ) - ((4 + k + 1 : ℕ) - 1)) * 10 ^ k = 10 ^ 34 := by
          rw [← zpow_natCast, ← zpow_natCast, ← zpow_add₀ (by norm_num)]
          congr 1
          push_cast
          ring
        have hscale : ((34025 * 10 ^ k : ℤ) : ℚ) * (10 : ℚ) ^ ((38 : ℤ) - ((4 + k + 1 : ℕ) - 1)) = overflowFrom := by
          rw [overflowFrom, ← hplace]
          push_cast
          ring
        refine ⟨34025 * 10 ^ k, ?_, hscale.le⟩
        rw [← hscale, mul_div_cancel_right₀ _ (ten_zpow_pos _).ne']
        norm_num
    obtain ⟨N, hN, hle⟩ := hbound
    have hround := abs_roundEven_le_of_lt (hscaled.trans_le hN)
    rw [roundDigits, roundTo, htop, abs_mul, abs_of_pos (ten_zpow_pos _)]
    refine le_trans ?_ hle
    gcongr
    exact_mod_cast hround

theorem readBack_fits (hd : 1 ≤ d) (hx : |x| < overflowFrom) : |readBack d x| < 2 ^ 128 := by
  have hround := abs_roundDigits_le_overflowFrom hd hx
  have hdouble : |toDouble (roundDigits d x) - roundDigits d x| ≤ (2 : ℚ) ^ ((128 : ℤ) - (53 : ℕ)) / 2 :=
    abs_roundFloat_sub_le_of_lt (hround.trans_lt (by norm_num [overflowFrom])) (by norm_num)
  have hsub := abs_sub_abs_le_abs_sub (toDouble (roundDigits d x)) (roundDigits d x)
  norm_num [overflowFrom] at hround hdouble
  have hsingle : |readBack d x - toDouble (roundDigits d x)| ≤ (2 : ℚ) ^ ((128 : ℤ) - (24 : ℕ)) / 2 :=
    abs_roundFloat_sub_le_of_lt (by norm_num; linarith) (by norm_num)
  have hsub' := abs_sub_abs_le_abs_sub (readBack d x) (toDouble (roundDigits d x))
  norm_num at hsingle ⊢
  linarith

theorem IsSingle.log_two (h : overflowFrom ≤ |x|) (hx : IsSingle x) : Int.log 2 |x| = 127 := by
  have hpos : 0 < |x| := lt_of_lt_of_le (by norm_num [overflowFrom]) h
  have hge := le_log_two hpos (e := 127) (le_trans (by norm_num [overflowFrom]) h)
  have hlt := log_two_lt hpos (e := 128) (by exact_mod_cast hx.lt)
  omega

/-- No float is halfway between two decimals of four digits there. -/
theorem IsSingle.overflowFrom_lt (hx : IsSingle x) (h : overflowFrom ≤ |x|) : overflowFrom < |x| := by
  refine lt_of_le_of_ne h fun heq => ?_
  have hx0 : x ≠ 0 := by
    rintro rfl
    norm_num [overflowFrom] at heq
  obtain ⟨⟨n, hn⟩, -⟩ := hx.float.lastPlace_le hx0
  have hplace : lastPlace 24 (-149) x = 104 := by
    rw [lastPlace, hx.log_two h]
    norm_num
  have habs : overflowFrom = ((|n| * 2 ^ 104 : ℤ) : ℚ) := by
    rw [heq, hn, hplace, abs_mul, abs_of_pos (two_zpow_pos _)]
    push_cast
    norm_num
  have hint : (34025 * 10 ^ 34 : ℤ) = |n| * 2 ^ 104 := by
    have := habs
    rw [overflowFrom] at this
    exact_mod_cast this
  omega

/-- From there on four digits overflow. -/
theorem IsSingle.readBack_four (hx : IsSingle x) (h : overflowFrom ≤ |x|) : 2 ^ 128 ≤ |readBack 4 x| := by
  have hlt := hx.overflowFrom_lt h
  have hpos : 0 < |x| := lt_of_lt_of_le (by norm_num [overflowFrom]) h
  have hlog : Int.log 10 |x| = 38 := by
    have hge := (Int.zpow_le_iff_le_log (b := 10) (x := 38) (by norm_num) hpos).mp (le_trans (by norm_num [overflowFrom]) h)
    have hlt := (Int.lt_zpow_iff_log_lt (b := 10) (x := 39) (by norm_num) hpos).mp (hx.lt.trans (by norm_num))
    omega
  have hround : |roundDigits 4 x| = 3403 * 10 ^ 35 := by
    have hhigh := hx.lt
    have hplace : (10 : ℚ) ^ (Int.log 10 |x| - ((4 : ℕ) - 1)) = 10 ^ 35 := by
      rw [hlog]
      norm_num
    rw [roundDigits, hplace]
    rw [overflowFrom] at hlt
    obtain ⟨habs, -⟩ | ⟨habs, -⟩ := abs_cases x
    · rw [roundTo_eq (n := 3403) (by norm_num) (abs_lt.mpr ⟨by push_cast; linarith, by push_cast; linarith⟩)]
      norm_num
    · rw [roundTo_eq (n := -3403) (by norm_num) (abs_lt.mpr ⟨by push_cast; linarith, by push_cast; linarith⟩)]
      norm_num
  have hdouble : |toDouble (roundDigits 4 x) - roundDigits 4 x| * 2 ^ 53 ≤ |roundDigits 4 x| :=
    abs_roundFloat_sub_mul_le ((zpow_le_one_of_nonpos₀ (by norm_num) (by norm_num)).trans (by rw [hround]; norm_num))
  have hsub := abs_sub_abs_le_abs_sub (roundDigits 4 x) (toDouble (roundDigits 4 x))
  rw [abs_sub_comm] at hsub
  rw [hround] at hdouble hsub
  have hsingle : |readBack 4 x - toDouble (roundDigits 4 x)| * 2 ^ 24 ≤ |toDouble (roundDigits 4 x)| :=
    abs_roundFloat_sub_mul_le (le_trans (by norm_num) (show (1 : ℚ) ≤ _ by linarith))
  have hsub' := abs_sub_abs_le_abs_sub (toDouble (roundDigits 4 x)) (readBack 4 x)
  rw [abs_sub_comm] at hsub'
  linarith

/-- Of three digits none reads as a float from there on. -/
theorem IsSingle.not_suffices_three (hx : IsSingle x) (h : overflowFrom ≤ |x|) : ¬Suffices 3 x := by
  rintro ⟨w, hw, hread⟩
  have hrough : |x| ≤ 2 * |w| + 1 := hread ▸ abs_roundFloat_le (by norm_num) (by norm_num) w
  have hclose : |x - w| * 2 ^ 24 ≤ |w| := by
    rw [← hread]
    refine abs_roundFloat_sub_mul_le (le_trans (by norm_num) (show (1 : ℚ) ≤ |w| from ?_))
    norm_num [overflowFrom] at h
    linarith
  have hlt := hx.lt
  have hsub := abs_sub_abs_le_abs_sub x w
  have hsub' := abs_sub_abs_le_abs_sub w x
  rw [abs_sub_comm] at hsub'
  norm_num [overflowFrom] at h hlt hclose
  obtain ⟨n, hn⟩ := hw.multiple (e := 38) (by norm_num; linarith)
  have habs : |w| = ((|n| : ℤ) : ℚ) * 10 ^ 36 := by
    rw [hn, abs_mul, abs_of_pos (ten_zpow_pos _)]
    push_cast
    norm_num
  have hlow : ((340 : ℤ) : ℚ) < ((|n| : ℤ) : ℚ) := by norm_num; push_cast at habs; linarith
  have hhigh : ((|n| : ℤ) : ℚ) < ((341 : ℤ) : ℚ) := by norm_num; push_cast at habs; linarith
  have := Int.cast_lt.mp hlow
  have := Int.cast_lt.mp hhigh
  omega

/-- The attempts do not overflow just if the float is below 3.4025e38. -/
theorem IsSingle.attempts_fit_iff (hx : IsSingle x) :
    (∀ d, 1 ≤ d → d ≤ 9 → (∀ d' < d, ¬Suffices d' x) → |readBack d x| < 2 ^ 128) ↔ |x| < overflowFrom := by
  refine ⟨fun h => not_le.mp fun hge => ?_, fun h d hd _ _ => readBack_fits hd h⟩
  have hfew : ∀ d' < 4, ¬Suffices d' x := by
    rintro d' hlt ⟨w, hw, hread⟩
    exact hx.not_suffices_three hge ⟨w, hw.mono (by omega), hread⟩
  exact (h 4 (by norm_num) (by norm_num) hfew).not_ge (hx.readBack_four hge)

end Overflow

section Printing

variable {F : FloatOps} {exact : F.Fl → Option ℚ} {value : F.Fl} {x : ℚ} {d e remaining : ℕ}

/-- The host's floats are 64-bit numbers, and rounded as such: `exact` is what a float
denotes, and none where it is not finite. -/
structure IsCorrectlyRounded (F : FloatOps) (exact : F.Fl → Option ℚ) : Prop where
  parse : ∀ text q, spells text = some q → |toDouble q| < 2 ^ 1024 → exact (F.parse text) = some (toDouble q)
  pack : ∀ v q, exact v = some q → |toSingle q| < 2 ^ 128 → ∃ bits, F.pack v = some bits ∧ exact (F.ofBits bits) = some (toSingle q)
  overflow : ∀ v q, exact v = some q → 2 ^ 128 ≤ |toSingle q| → F.pack v = none
  eq : ∀ v w q r, exact v = some q → exact w = some r → F.eq v w = decide (q = r)

/-- `{value:.{digits}g}` is the nearest decimal, for as many digits as are tried. -/
def FormatsNearest (F : FloatOps) (value : F.Fl) (x : ℚ) : Prop :=
  ∀ d, 1 ≤ d → d ≤ 9 → spells (F.formatG d value) = some (roundDigits d x)

variable {W : Type} {s s' : VM W} {text : String}

section Turns

variable (hF : IsCorrectlyRounded F exact) (hvalue : exact value = some x) (hx : IsSingle x) (hformat : FormatsNearest F value x)
include hF hx hformat

theorem shortest_overflow (hd : 1 ≤ d) (hd' : d ≤ 9) (h : 2 ^ 128 ≤ |readBack d x|) :
    shortest F value (remaining + 1) d s = .error (.host "OverflowError") := by
  have hparse := hF.parse _ _ (hformat d hd hd') (hx.abs_toDouble_lt hd)
  have hpack := hF.overflow _ _ hparse h
  simp only [shortest, hpack]
  rfl

include hvalue

theorem shortest_fits (hd : 1 ≤ d) (hd' : d ≤ 9) (h : |readBack d x| < 2 ^ 128) :
    shortest F value (remaining + 1) d s =
      if readBack d x = x then .ok (F.formatG d value, s) else shortest F value remaining (d + 1) s := by
  have hparse := hF.parse _ _ (hformat d hd hd') (hx.abs_toDouble_lt hd)
  obtain ⟨bits, hpack, hbits⟩ := hF.pack _ _ hparse h
  have heq := hF.eq _ _ _ _ hbits hvalue
  simp only [shortest, hpack, heq, decide_eq_true_eq]
  change (if readBack d x = x then _ else _ : Exec W String) s = _
  split <;> rfl

/-- The first count that reads back is found, if none before it overflows. -/
theorem shortest_ok (hd : 1 ≤ d) (hde : d ≤ e) (he : e ≤ 9) (hremaining : e < d + remaining)
    (hbefore : ∀ d', d ≤ d' → d' < e → |readBack d' x| < 2 ^ 128 ∧ readBack d' x ≠ x) (hback : readBack e x = x) :
    shortest F value remaining d s = .ok (F.formatG e value, s) := by
  induction remaining generalizing d with
  | zero => omega
  | succ remaining ih =>
    obtain rfl | hlt := hde.eq_or_lt
    · rw [shortest_fits hF hvalue hx hformat hd he (by rw [hback]; exact hx.lt), if_pos hback]
    · obtain ⟨hfits, hne⟩ := hbefore d le_rfl hlt
      rw [shortest_fits hF hvalue hx hformat hd (by omega) hfits, if_neg hne]
      exact ih (by omega) hlt (by omega) fun d' hle hlt' => hbefore d' (by omega) hlt'

/-- A text that is found is the first to read back, and none before it overflowed. -/
theorem shortest_inv (hd : 1 ≤ d) (hend : d + remaining = 10) (hle : d ≤ 9) (h : shortest F value remaining d s = .ok (text, s')) :
    ∃ e, d ≤ e ∧ e ≤ 9 ∧ text = F.formatG e value ∧ readBack e x = x ∧
      ∀ d', d ≤ d' → d' < e → |readBack d' x| < 2 ^ 128 ∧ readBack d' x ≠ x := by
  induction remaining generalizing d with
  | zero => omega
  | succ remaining ih =>
    obtain hfits | hover := lt_or_ge |readBack d x| (2 ^ 128)
    · rw [shortest_fits hF hvalue hx hformat hd hle hfits] at h
      split at h
      · next hback =>
        cases h
        exact ⟨d, le_rfl, hle, rfl, hback, fun d' hge hlt => by omega⟩
      · next hne =>
        have hnine : d ≠ 9 := by
          rintro rfl
          exact hne hx.nine_digits.2
        obtain ⟨e, hde, he, htext, hback, hbefore⟩ := ih (by omega) (by omega) (by omega) h
        refine ⟨e, by omega, he, htext, hback, fun d' hge hlt => ?_⟩
        obtain rfl | hgt := hge.eq_or_lt
        · exact ⟨hfits, hne⟩
        · exact hbefore d' hgt hlt
    · rw [shortest_overflow hF hx hformat hd hle hover] at h
      cases h

end Turns

/-- The point that is added where there is neither point nor exponent keeps the number. -/
theorem formatFloat_text {v : ℚ} (h : shortest F value 9 1 s = .ok (text, s)) (hspells : spells text = some v) :
    ∃ text', formatFloat F value s = .ok (text', s) ∧ marked text' = true ∧ spells text' = some v := by
  have hnames : text ∉ ["inf", "-inf", "nan"] := by
    intro hmem
    have hnone : ∀ name ∈ ["inf", "-inf", "nan"], spells name = none := by decide
    rw [hnone text hmem] at hspells
    cases hspells
  have hrun : formatFloat F value s = .ok (if marked text = true then text else text ++ ".0", s) := by
    rw [formatFloat, StateExcept.bind_eq h]
    change (if marked text = true ∨ text ∈ ["inf", "-inf", "nan"] then _ else _ : Exec W String) s = _
    by_cases hmark : marked text = true
    · rw [if_pos (Or.inl hmark), if_pos hmark]
      rfl
    · rw [if_neg (by tauto), if_neg hmark]
      rfl
  refine ⟨_, hrun, ?_⟩
  split
  · next hmark => exact ⟨hmark, hspells⟩
  · next hmark =>
    refine ⟨?_, spells_point hspells (by simpa using hmark)⟩
    rw [marked, String.toList_append, List.any_append]
    exact Bool.or_eq_true_iff.mpr (.inr (by decide))

end Printing

section Host

/-- The number of a 32-bit pattern. -/
def decodeSingle (bits : ℕ) : ℚ :=
  let magnitude := bits % 2 ^ 31
  let exponent : ℕ := magnitude / 2 ^ 23
  let mantissa : ℕ := magnitude % 2 ^ 23
  let q : ℚ :=
    if exponent = 0 then (mantissa : ℚ) * (2 : ℚ) ^ (-149 : ℤ)
    else ((2 ^ 23 + mantissa : ℕ) : ℚ) * (2 : ℚ) ^ ((exponent : ℤ) - 150)
  if bits / 2 ^ 31 % 2 = 1 then -q else q

def encodeSingle (x : ℚ) : ℕ :=
  if x = 0 then 0
  else
    let place := lastPlace 24 (-149) x
    (if x < 0 then 2 ^ 31 else 0) + (place + 149).toNat * 2 ^ 23 + ⌊|x| / (2 : ℚ) ^ place⌋₊

variable {x : ℚ}

/-- The mantissa of a number of 32 bits at its last place. -/
theorem IsSingle.mantissa (h : IsSingle x) (hx : x ≠ 0) :
    ∃ m : ℕ, |x| = m * (2 : ℚ) ^ lastPlace 24 (-149) x ∧ m < 2 ^ 24 ∧ (-149 < lastPlace 24 (-149) x → 2 ^ 23 ≤ m) := by
  obtain ⟨⟨n, hn⟩, -⟩ := h.float.lastPlace_le hx
  have hu := two_zpow_pos (lastPlace 24 (-149) x)
  have habs : |x| = n.natAbs * (2 : ℚ) ^ lastPlace 24 (-149) x := by
    conv_lhs => rw [hn, abs_mul, abs_of_pos hu]
    rw [Nat.cast_natAbs, Int.cast_abs]
  refine ⟨n.natAbs, habs, ?_, fun hnormal => ?_⟩
  · have hlt := lt_two_pow_log x
    have hexp : Int.log 2 |x| + 1 ≤ ((24 : ℕ) : ℤ) + lastPlace 24 (-149) x := by
      unfold lastPlace
      omega
    have hpow := hlt.trans_le (zpow_le_zpow_right₀ (a := (2 : ℚ)) (by norm_num) hexp)
    rw [zpow_add₀ (by norm_num), zpow_natCast] at hpow
    have hcast : (n.natAbs : ℚ) < 2 ^ 24 := lt_of_mul_lt_mul_right (habs ▸ hpow) hu.le
    exact_mod_cast hcast
  · have hge := two_pow_log_le hx
    have hexp : Int.log 2 |x| = ((23 : ℕ) : ℤ) + lastPlace 24 (-149) x := by
      unfold lastPlace at hnormal ⊢
      omega
    have hpow : (2 : ℚ) ^ 23 * (2 : ℚ) ^ lastPlace 24 (-149) x ≤ n.natAbs * (2 : ℚ) ^ lastPlace 24 (-149) x := by
      rw [← zpow_natCast, ← zpow_add₀ (by norm_num), ← hexp, ← habs]
      exact hge
    have hcast : (2 : ℚ) ^ 23 ≤ n.natAbs := le_of_mul_le_mul_right hpow hu
    exact_mod_cast hcast

theorem IsSingle.lastPlace_le (h : IsSingle x) (hx : x ≠ 0) : lastPlace 24 (-149) x ≤ 104 := by
  have hlog : Int.log 2 |x| < 128 := log_two_lt (abs_pos.mpr hx) (by exact_mod_cast h.lt)
  unfold lastPlace
  omega

theorem decodeSingle_encodeSingle (h : IsSingle x) : decodeSingle (encodeSingle x) = x := by
  obtain rfl | hx := eq_or_ne x 0
  · simp [encodeSingle, decodeSingle]
  obtain ⟨m, habs, hm, hnormal⟩ := h.mantissa hx
  have hle := h.lastPlace_le hx
  have hge : (-149 : ℤ) ≤ lastPlace 24 (-149) x := le_max_right _ _
  obtain ⟨e, he⟩ := Int.eq_ofNat_of_zero_le (show 0 ≤ lastPlace 24 (-149) x + 149 by omega)
  have hplace : lastPlace 24 (-149) x = (e : ℤ) - 149 := by omega
  have hfloor : ⌊|x| / (2 : ℚ) ^ lastPlace 24 (-149) x⌋₊ = m := by
    rw [habs, mul_div_cancel_right₀ _ (two_zpow_pos _).ne', Nat.floor_natCast]
  have henc : encodeSingle x = (if x < 0 then 2 ^ 31 else 0) + e * 2 ^ 23 + m := by
    rw [encodeSingle, if_neg hx]
    simp only [hfloor, he, Int.toNat_natCast]
  rw [hplace] at habs hnormal
  have hsmall : e * 2 ^ 23 + m < 2 ^ 31 := by omega
  have hmagnitude : encodeSingle x % 2 ^ 31 = e * 2 ^ 23 + m := by
    rw [henc]
    split <;> omega
  have hsign : encodeSingle x / 2 ^ 31 % 2 = 1 ↔ x < 0 := by
    rw [henc]
    split
    · next hneg => exact iff_of_true (by omega) hneg
    · next hpos => exact iff_of_false (by omega) hpos
  have hvalue : (if (e * 2 ^ 23 + m) / 2 ^ 23 = 0 then (((e * 2 ^ 23 + m) % 2 ^ 23 : ℕ) : ℚ) * (2 : ℚ) ^ (-149 : ℤ)
      else ((2 ^ 23 + (e * 2 ^ 23 + m) % 2 ^ 23 : ℕ) : ℚ) * (2 : ℚ) ^ ((((e * 2 ^ 23 + m) / 2 ^ 23 : ℕ) : ℤ) - 150)) = |x| := by
    rw [habs]
    split
    · obtain rfl : e = 0 := by omega
      rw [show (0 * 2 ^ 23 + m) % 2 ^ 23 = m by omega]
      rfl
    · obtain hlt | hbig := lt_or_ge m (2 ^ 23)
      · omega
      · rw [show 2 ^ 23 + (e * 2 ^ 23 + m) % 2 ^ 23 = m by omega, show (e * 2 ^ 23 + m) / 2 ^ 23 = e + 1 by omega]
        congr 2
        push_cast
        ring
  rw [decodeSingle]
  simp only [hmagnitude, hvalue, hsign]
  split
  · next hneg => rw [abs_of_neg hneg, neg_neg]
  · next hpos => rw [abs_of_nonneg (not_lt.mp hpos)]

/-- A host whose floats are the finite numbers, with the texts of its `%g`. -/
def rationalFloats (formatG : ℕ → ℚ → String) : FloatOps where
  Fl := ℚ
  ofBits := decodeSingle
  pack q := if |toSingle q| < 2 ^ 128 then some (encodeSingle (toSingle q)) else none
  isFinite q := decide (|q| < 2 ^ 1024)
  repr := formatG 17
  formatG := formatG
  parse text := toDouble ((spells text).getD 0)
  add q r := toDouble (q + r)
  sub q r := toDouble (q - r)
  mul q r := toDouble (q * r)
  div q r := toDouble (q / r)
  neg q := -q
  lt q r := decide (q < r)
  eq q r := decide (q = r)
  ofInt n := toDouble n
  trunc q := some (if 0 ≤ q then ⌊q⌋ else ⌈q⌉)

theorem rationalFloats_isCorrectlyRounded (formatG : ℕ → ℚ → String) : IsCorrectlyRounded (rationalFloats formatG) some where
  parse text q hspells _ := by simp [rationalFloats, hspells]
  pack v q hv hlt := by
    cases hv
    refine ⟨encodeSingle (toSingle v), if_pos hlt, ?_⟩
    have hsingle : IsSingle (toSingle v) := ⟨isFloat_roundFloat (by norm_num) v, hlt⟩
    exact congrArg some (decodeSingle_encodeSingle hsingle)
  overflow v q hv hge := by
    cases hv
    exact if_neg (not_lt.mpr hge)
  eq v w q r hv hw := by
    cases hv
    cases hw
    rfl

end Host

section Exactness

variable {F : FloatOps} {exact : F.Fl → Option ℚ} {value : F.Fl} {x : ℚ} {d : ℕ} {W : Type}

/-- At each number of digits up to the first that suffices the nearest decimal does not
overflow 32 bits and reads back through 64 bits just if the number of digits suffices, and
read directly where it does. -/
def NearestSuffices (x : ℚ) : Prop :=
  ∀ d, 1 ≤ d → d ≤ 9 → (∀ d' < d, ¬Suffices d' x) →
    |readBack d x| < 2 ^ 128 ∧ (readBack d x = x ↔ Suffices d x) ∧ (Suffices d x → toSingle (roundDigits d x) = x)

/-- Below 3.4025e38, the attempts are to be exact. -/
theorem IsSingle.nearestSuffices_iff (hx : IsSingle x) : NearestSuffices x ↔ |x| < overflowFrom ∧
    ∀ d, 1 ≤ d → d ≤ 9 → (∀ d' < d, ¬Suffices d' x) → (readBack d x = x ↔ Suffices d x) ∧ (Suffices d x → toSingle (roundDigits d x) = x) := by
  rw [← hx.attempts_fit_iff]
  constructor
  · exact fun h => ⟨fun d hd hd' hfirst => (h d hd hd' hfirst).1, fun d hd hd' hfirst => (h d hd hd' hfirst).2⟩
  · rintro ⟨hfits, hexact⟩ d hd hd' hfirst
    exact ⟨hfits d hd hd' hfirst, hexact d hd hd' hfirst⟩

/-- A number that is not zero has a digit. -/
theorem suffices_pos (hx0 : x ≠ 0) (h : Suffices d x) : 1 ≤ d := by
  by_contra hd
  obtain rfl : d = 0 := by omega
  obtain ⟨w, ⟨n, k, hn, rfl⟩, hw⟩ := h
  obtain rfl : n = 0 := Int.abs_lt_one_iff.mp (by simpa using hn)
  refine hx0 ?_
  rw [← hw, Int.cast_zero, zero_mul, toSingle, roundFloat, roundTo_zero]

/-- The text of a float is marked, reads back as the float, and spells a number of as few
digits as any that does, just if the nearest decimals suffice. -/
theorem formatFloat_shortest_exact (hF : IsCorrectlyRounded F exact) (hvalue : exact value = some x) (hx : IsSingle x)
    (hformat : FormatsNearest F value x) (s : VM W) :
    (∃ text, formatFloat F value s = .ok (text, s) ∧ marked text = true ∧ ∃ v, spells text = some v ∧ toSingle v = x ∧
      ∀ d w, IsDecimal d w → toSingle w = x → IsDecimal d v) ↔ NearestSuffices x := by
  constructor
  · rintro ⟨text, hrun, -, v, hspells, hdirect, hleast⟩ d hd hd' hfirst
    obtain ⟨t, s₁, hshort, -⟩ := StateExcept.bind_ok.mp hrun
    obtain ⟨e, he, he', -, hback, hbefore⟩ := shortest_inv hF hvalue hx hformat le_rfl rfl (by norm_num) hshort
    have hfound : shortest F value 9 1 s = .ok (F.formatG e value, s) :=
      shortest_ok hF hvalue hx hformat le_rfl he he' (by omega) hbefore hback
    obtain ⟨text', hrun', -, hspells'⟩ := formatFloat_text hfound (hformat e he he')
    rw [hrun] at hrun'
    cases hrun'
    rw [hspells] at hspells'
    cases hspells'
    have hsuffices : Suffices e x := ⟨_, isDecimal_roundDigits he x, hdirect⟩
    obtain hlt | rfl | hgt := lt_trichotomy d e
    · obtain ⟨hfits, hne⟩ := hbefore d hd hlt
      have hnot : ¬Suffices d x := by
        rintro ⟨w, hw, hwx⟩
        have hfewer := roundDigits_of_isDecimal hd hlt.le (hleast d w hw hwx)
        refine hne ?_
        rw [readBack, hfewer]
        exact hback
      exact ⟨hfits, iff_of_false hne hnot, fun h => absurd h hnot⟩
    · exact ⟨by rw [hback]; exact hx.lt, iff_of_true hback hsuffices, fun _ => hdirect⟩
    · exact absurd hsuffices (hfirst e hgt)
  · intro hnearest
    have hnine : Suffices 9 x := ⟨_, isDecimal_roundDigits (by norm_num) x, hx.nine_digits.1⟩
    obtain rfl | hx0 := eq_or_ne x 0
    · have hback : readBack 1 0 = 0 := by simp [readBack, toSingle, toDouble, roundDigits, roundFloat]
      have hshort : shortest F value 9 1 s = .ok (F.formatG 1 value, s) :=
        shortest_ok hF hvalue hx hformat le_rfl le_rfl (by norm_num) (by norm_num) (fun d' hge hlt => by omega) hback
      obtain ⟨text, hrun, hmark, hspells⟩ := formatFloat_text hshort (hformat 1 le_rfl (by norm_num))
      rw [roundDigits, roundTo_zero] at hspells
      exact ⟨text, hrun, hmark, 0, hspells, by simp [toSingle, roundFloat], fun d w _ _ => isDecimal_zero d⟩
    classical
    have hex : ∃ d, Suffices d x := ⟨9, hnine⟩
    have hfirst := Nat.find_spec hex
    have hmin : ∀ d' < Nat.find hex, ¬Suffices d' x := fun d' hlt => Nat.find_min hex hlt
    have hle : Nat.find hex ≤ 9 := Nat.find_min' hex hnine
    have hpos := suffices_pos hx0 hfirst
    obtain ⟨-, hiff, hdirect⟩ := hnearest _ hpos hle hmin
    have hbefore : ∀ d', 1 ≤ d' → d' < Nat.find hex → |readBack d' x| < 2 ^ 128 ∧ readBack d' x ≠ x := by
      intro d' hge hlt
      obtain ⟨hfits, hiff', -⟩ := hnearest d' hge (by omega) fun d'' hlt' => hmin d'' (hlt'.trans hlt)
      exact ⟨hfits, fun h => hmin d' hlt (hiff'.mp h)⟩
    have hshort : shortest F value 9 1 s = .ok (F.formatG (Nat.find hex) value, s) :=
      shortest_ok hF hvalue hx hformat le_rfl hpos hle (by omega) hbefore (hiff.mpr hfirst)
    obtain ⟨text, hrun, hmark, hspells⟩ := formatFloat_text hshort (hformat _ hpos hle)
    refine ⟨text, hrun, hmark, _, hspells, hdirect hfirst, fun d w hw hwx => ?_⟩
    exact (isDecimal_roundDigits hpos x).mono (Nat.find_min' hex ⟨w, hw, hwx⟩)

theorem isSingle_three : IsSingle 3 := ⟨⟨3, 0, by norm_num, by norm_num, by norm_num⟩, by norm_num⟩

theorem toSingle_three : toSingle 3 = 3 := isSingle_three.float.roundFloat_eq (by norm_num) (by rw [sub_self, abs_zero]; positivity)

theorem toDouble_three : toDouble 3 = 3 := by
  have hfloat : IsFloat 53 (-1074) 3 := ⟨3, 0, by norm_num, by norm_num, by norm_num⟩
  exact hfloat.roundFloat_eq (by norm_num) (by rw [sub_self, abs_zero]; positivity)

theorem isDecimal_three : IsDecimal 1 3 := ⟨3, 0, by norm_num, by norm_num⟩

theorem nearestSuffices_three : NearestSuffices 3 := by
  have hfirst : Suffices 1 3 := ⟨3, isDecimal_three, toSingle_three⟩
  intro d hd _ hbefore
  obtain rfl | hlt := hd.eq_or_lt
  · have hback : readBack 1 3 = 3 := by rw [readBack, isDecimal_three.roundDigits_eq, toDouble_three, toSingle_three]
    have hdirect : toSingle (roundDigits 1 3) = 3 := by rw [isDecimal_three.roundDigits_eq, toSingle_three]
    exact ⟨by rw [hback]; norm_num, iff_of_true hback hfirst, fun _ => hdirect⟩
  · exact absurd hfirst (hbefore 1 hlt)

theorem formatsNearest_three : FormatsNearest (rationalFloats fun _ _ => "3") (3 : ℚ) 3 := by
  intro d hd hd'
  change spells "3" = some (roundDigits d 3)
  have hspells : spells "3" = some (((3 : ℕ) : ℚ) * (10 : ℚ) ^ (0 - ((0 : ℕ) : ℤ))) := rfl
  rw [(isDecimal_three.mono hd).roundDigits_eq, hspells]
  norm_num

theorem formatFloat_shortest_three :
    ∃ text, formatFloat (rationalFloats fun _ _ => "3") (3 : ℚ) ({ io := () } : VM Unit) = .ok (text, { io := () }) ∧ marked text = true ∧
      ∃ v, spells text = some v ∧ toSingle v = 3 ∧ ∀ d w, IsDecimal d w → toSingle w = 3 → IsDecimal d v :=
  (formatFloat_shortest_exact (rationalFloats_isCorrectlyRounded _) rfl isSingle_three formatsNearest_three { io := () }).mpr
    nearestSuffices_three

/-- What `%g` gives for the largest number of 32 bits. -/
def largestTexts (d : ℕ) (_ : ℚ) : String :=
  ["3e+38", "3.4e+38", "3.4e+38", "3.403e+38", "3.4028e+38", "3.40282e+38", "3.402823e+38", "3.4028235e+38",
    "3.40282347e+38"].getD (d - 1) ""

def largest : ℚ := 2 ^ 128 - 2 ^ 104

theorem isSingle_largest : IsSingle largest :=
  ⟨⟨2 ^ 24 - 1, 104, by norm_num, by norm_num, by norm_num [largest]⟩, by norm_num [largest, abs_lt]⟩

/-- What the texts of the largest number stand for, and what they are read as. -/
theorem largest_attempts : (∀ d ∈ List.range' 1 9, spells (largestTexts d largest) = some (roundDigits d largest)) ∧
    (∀ d ∈ List.range' 1 3, |readBack d largest| < 2 ^ 128 ∧ readBack d largest ≠ largest) ∧ 2 ^ 128 ≤ |readBack 4 largest| := by
  decide +kernel

theorem formatsNearest_largest : FormatsNearest (rationalFloats largestTexts) largest largest := fun d hd hd' =>
  largest_attempts.1 d (List.mem_range'_1.mpr (by omega))

/-- The fourth attempt for the largest number does not fit. -/
theorem largest_raises (s : VM W) : formatFloat (rationalFloats largestTexts) largest s = .error (.host "OverflowError") := by
  have hF := rationalFloats_isCorrectlyRounded largestTexts
  refine StateExcept.bind_error ?_
  obtain ⟨-, hattempts, hover⟩ := largest_attempts
  have hbefore : ∀ d, 1 ≤ d → d < 4 → |readBack d largest| < 2 ^ 128 ∧ readBack d largest ≠ largest := fun d hd hd' =>
    hattempts d (List.mem_range'_1.mpr (by omega))
  have hfits : ∀ d remaining, 1 ≤ d → d < 4 → shortest (rationalFloats largestTexts) largest (remaining + 1) d s =
      shortest (rationalFloats largestTexts) largest remaining (d + 1) s := by
    intro d remaining hd hd'
    obtain ⟨hlt, hne⟩ := hbefore d hd hd'
    rw [shortest_fits hF rfl isSingle_largest formatsNearest_largest hd (by omega) hlt, if_neg hne]
  rw [hfits 1 8 le_rfl (by norm_num), hfits 2 7 (by norm_num) (by norm_num), hfits 3 6 (by norm_num) (by norm_num)]
  exact shortest_overflow hF isSingle_largest formatsNearest_largest (by norm_num) (by norm_num) hover

theorem formatFloat_largest :
    IsCorrectlyRounded (rationalFloats largestTexts) some ∧ IsSingle largest ∧
      FormatsNearest (rationalFloats largestTexts) largest largest ∧
      ∀ s : VM Unit, formatFloat (rationalFloats largestTexts) largest s = .error (.host "OverflowError") :=
  ⟨rationalFloats_isCorrectlyRounded largestTexts, isSingle_largest, formatsNearest_largest, largest_raises⟩

end Exactness

end QuinLang
