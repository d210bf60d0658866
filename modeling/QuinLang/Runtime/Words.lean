import QuinLang.Runtime.StraightLine
import QuinLang.Std.Divisors

/-! The machine's arithmetic on words is that of 16-bit two's complement. -/

namespace QuinLang

theorem toSigned_toNat (v : BitVec 16) : toSigned v.toNat = v.toInt := by
  rw [toSigned, word_of_lt v.isLt, BitVec.toInt_eq_toNat_cond, SIGN_BIT]
  split_ifs <;> omega

theorem wordOfInt_eq (v : ℤ) : wordOfInt v = (BitVec.ofInt 16 v).toNat := by
  rw [BitVec.toNat_ofInt]
  rfl

theorem wordOfInt_toNat (v : BitVec 16) : wordOfInt v.toNat = v.toNat := by
  rw [wordOfInt_eq, BitVec.ofInt_natCast, BitVec.ofNat_toNat, BitVec.setWidth_eq]

theorem ofInt_toNat (v : BitVec 16) : BitVec.ofInt 16 v.toNat = v := by
  rw [BitVec.ofInt_natCast, BitVec.ofNat_toNat, BitVec.setWidth_eq]

theorem wordOfInt_add (a b : BitVec 16) : wordOfInt (a.toNat + b.toNat) = (a + b).toNat := by
  rw [wordOfInt_eq, BitVec.ofInt_add, ofInt_toNat, ofInt_toNat]

theorem wordOfInt_sub (a b : BitVec 16) : wordOfInt (a.toNat - b.toNat) = (a - b).toNat := by
  rw [wordOfInt_eq, Int.sub_eq_add_neg, BitVec.ofInt_add, BitVec.ofInt_neg, ofInt_toNat, ofInt_toNat, BitVec.sub_eq_add_neg]

theorem wordOfInt_mul (a b : BitVec 16) : wordOfInt (a.toNat * b.toNat) = (a * b).toNat := by
  rw [wordOfInt_eq, BitVec.ofInt_mul, ofInt_toNat, ofInt_toNat]

theorem wordOfInt_neg (a : BitVec 16) : wordOfInt (-(a.toNat : ℤ)) = (-a).toNat := by
  rw [wordOfInt_eq, BitVec.ofInt_neg, ofInt_toNat]

theorem wordOfInt_not (a : BitVec 16) : wordOfInt (-(a.toNat : ℤ) - 1) = (~~~a).toNat := by
  rw [wordOfInt_eq, Int.sub_eq_add_neg, BitVec.ofInt_add, BitVec.ofInt_neg, ofInt_toNat, BitVec.not_eq_neg_add,
    BitVec.sub_eq_add_neg]
  rfl

theorem wordOfInt_div (a b : BitVec 16) : wordOfInt (truncDiv a.toInt b.toInt) = (a.sdiv b).toNat := by
  rw [wordOfInt_eq]
  congr 1
  refine BitVec.eq_of_toInt_eq ?_
  rw [BitVec.toInt_ofInt, BitVec.toInt_sdiv, Std.truncDiv_eq]

theorem wordOfInt_mod (a b : BitVec 16) : wordOfInt (a.toInt - truncDiv a.toInt b.toInt * b.toInt) = (a.srem b).toNat := by
  have hmod : a.toInt - truncDiv a.toInt b.toInt * b.toInt = (a.srem b).toInt := by
    rw [Std.truncDiv_eq, BitVec.toInt_srem, Int.tmod_def, Int.mul_comm]
  rw [hmod, wordOfInt_eq, BitVec.ofInt_toInt]

theorem wordOfInt_shiftLeft (a : BitVec 16) (n : ℕ) : wordOfInt (a.toNat * 2 ^ n) = (a <<< n).toNat := by
  have hcast : (a.toNat * 2 ^ n : ℤ) = (a.toNat * 2 ^ n : ℕ) := by push_cast; rfl
  rw [BitVec.toNat_shiftLeft, Nat.shiftLeft_eq, hcast, wordOfInt]
  omega

theorem wordOfInt_shiftRight (a : BitVec 16) (n : ℕ) : wordOfInt (a.toInt / 2 ^ n) = (a.sshiftRight n).toNat := by
  have hshift : a.toInt / 2 ^ n = (a.sshiftRight n).toInt := by
    rw [BitVec.toInt_sshiftRight, Int.shiftRight_eq_div_pow]
    norm_cast
  rw [hshift, wordOfInt_eq, BitVec.ofInt_toInt]

theorem wordOfInt_natCast (a b : BitVec 16) (f : ℕ → ℕ → ℕ) (g : BitVec 16 → BitVec 16 → BitVec 16)
    (h : (g a b).toNat = f a.toNat b.toNat) : wordOfInt (f a.toNat b.toNat : ℕ) = (g a b).toNat := by
  rw [← h, wordOfInt_toNat]

end QuinLang
