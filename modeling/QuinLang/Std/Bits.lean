import QuinLang.Std.Divisors
import QuinLang.Std.MapRefinement

/-! `std/bits.ql`: 16-bit ints by their bits. -/

namespace QuinLang.Std

open Loops

section Operations

/-- `a | b`. -/
def or16 (a b : ℤ) : ℤ := wrap16 ((a % 65536).toNat ||| (b % 65536).toNat : ℕ)

/-- `a ^ b`. -/
def xor16 (a b : ℤ) : ℤ := wrap16 ((a % 65536).toNat ^^^ (b % 65536).toNat : ℕ)

/-- `~a`. -/
def not16 (a : ℤ) : ℤ := wrap16 (-(a % 65536) - 1)

/-- `a << count`. -/
def shl16 (a count : ℤ) : Run ℤ :=
  if count < 0 ∨ count > 15 then .error (.fault s!"Shift count out of range for SHL: {count}")
  else .ok (wrap16 (a % 65536 * 2 ^ count.toNat))

/-- `a >> count`, which copies the sign bit. -/
def shr16 (a count : ℤ) : Run ℤ :=
  if count < 0 ∨ count > 15 then .error (.fault s!"Shift count out of range for SHR: {count}")
  else .ok (wrap16 (a / 2 ^ count.toNat))

def bit_width : ℤ := 16

def check_index (n : ℤ) : Run Unit :=
  if n < 0 ∨ n > 15 then .error (.panic "bit index out of range: expected 0..15") else .ok ()

/-- `(x >> i) & 1`. -/
def bitAt (x i : ℤ) : Run ℤ := do return and16 (← shr16 x i) 1

def bit_get (x n : ℤ) : Run Bool := do
  check_index n
  return (← bitAt x n) == 1

def bit_set (x n : ℤ) : Run ℤ := do
  check_index n
  return or16 x (← shl16 1 n)

def bit_clear (x n : ℤ) : Run ℤ := do
  check_index n
  return and16 x (not16 (← shl16 1 n))

def bit_toggle (x n : ℤ) : Run ℤ := do
  check_index n
  return xor16 x (← shl16 1 n)

/-- A turn of the loop of `popcount`, on `i` and `count`. -/
def popcountTurn (x : ℤ) (s : ℤ × ℤ) : Run ((ℤ × ℤ) ⊕ ℤ) := do
  if s.1 < 16 then
    if (← bitAt x s.1) = 1 then return .inl (wrap16 (s.1 + 1), wrap16 (s.2 + 1))
    else return .inl (wrap16 (s.1 + 1), s.2)
  else return .inr s.2

def popcount (fuel : ℕ) (x : ℤ) : Run ℤ := loop .outOfFuel (popcountTurn x) fuel (0, 0)

/-- A turn of the loop of `reverse_bits`, on `i` and `result`. -/
def reverseBitsTurn (x : ℤ) (s : ℤ × ℤ) : Run ((ℤ × ℤ) ⊕ ℤ) := do
  if s.1 < 16 then return .inl (wrap16 (s.1 + 1), or16 (← shl16 s.2 1) (← bitAt x s.1))
  else return .inr s.2

def reverse_bits (fuel : ℕ) (x : ℤ) : Run ℤ := loop .outOfFuel (reverseBitsTurn x) fuel (0, 0)

/-- A turn of the loop of `leading_zeros`. -/
def leadingTurn (x i : ℤ) : Run (ℤ ⊕ ℤ) := do
  if i ≥ 0 then
    if (← bitAt x i) = 1 then return .inr (wrap16 (15 - i)) else return .inl (wrap16 (i - 1))
  else return .inr 16

def leading_zeros (fuel : ℕ) (x : ℤ) : Run ℤ := loop .outOfFuel (leadingTurn x) fuel 15

/-- A turn of the loop of `trailing_zeros`. -/
def trailingTurn (x i : ℤ) : Run (ℤ ⊕ ℤ) := do
  if i < 16 then
    if (← bitAt x i) = 1 then return .inr i else return .inl (wrap16 (i + 1))
  else return .inr 16

def trailing_zeros (fuel : ℕ) (x : ℤ) : Run ℤ := loop .outOfFuel (trailingTurn x) fuel 0

def highest_bit (fuel : ℕ) (x : ℤ) : Run ℤ := do
  if x = 0 then return wrap16 (0 - 1) else return wrap16 (15 - (← leading_zeros fuel x))

/-- `n % 16`, made non-negative. -/
def rotation (n : ℤ) : Run ℤ := do
  let k ← intMod n 16
  if k < 0 then return wrap16 (k + 16) else return k

def rotate_left (x n : ℤ) : Run ℤ := do
  let k ← rotation n
  if k = 0 then return x
  else
    let low := and16 (← shr16 x (wrap16 (16 - k))) (wrap16 ((← shl16 1 k) - 1))
    return or16 (← shl16 x k) low

def rotate_right (x n : ℤ) : Run ℤ := do
  let k ← rotation n
  if k = 0 then return x else rotate_left x (wrap16 (16 - k))

def logical_shift_right (x n : ℤ) : Run ℤ := do
  if n < 0 ∨ n > 15 then throw (.panic "shift count out of range: expected 0..15")
  else if n = 0 then return x
  else return and16 (← shr16 x n) (wrap16 ((← shl16 1 (wrap16 (16 - n))) - 1))

end Operations

section Words

/-- The bits of an int. -/
def bits (x : ℤ) : BitVec 16 := BitVec.ofInt 16 x

theorem wrap16_eq (v : ℤ) : wrap16 v = (bits v).toInt := by
  rw [bits, BitVec.toInt_ofInt, Int.bmod_def]
  unfold wrap16
  norm_num

@[simp] theorem bits_toInt (u : BitVec 16) : bits u.toInt = u := BitVec.ofInt_toInt

theorem toInt_bits {x : ℤ} (hx : -32768 ≤ x) (hx' : x ≤ 32767) : (bits x).toInt = x := by
  rw [← wrap16_eq, wrap16_of_range hx (by omega)]

theorem toNat_bits (x : ℤ) : (bits x).toNat = (x % 65536).toNat := by
  rw [bits, BitVec.toNat_ofInt]
  norm_num

theorem wrap16_natCast (n : ℕ) : wrap16 (n : ℤ) = (BitVec.ofNat 16 n).toInt := by
  rw [wrap16_eq, bits, BitVec.ofInt_natCast]

theorem and16_eq (a b : ℤ) : and16 a b = (bits a &&& bits b).toInt := by
  rw [and16, wrap16_natCast, ← toNat_bits, ← toNat_bits, ← BitVec.toNat_and, BitVec.ofNat_toNat, BitVec.setWidth_eq]

theorem or16_eq (a b : ℤ) : or16 a b = (bits a ||| bits b).toInt := by
  rw [or16, wrap16_natCast, ← toNat_bits, ← toNat_bits, ← BitVec.toNat_or, BitVec.ofNat_toNat, BitVec.setWidth_eq]

theorem xor16_eq (a b : ℤ) : xor16 a b = (bits a ^^^ bits b).toInt := by
  rw [xor16, wrap16_natCast, ← toNat_bits, ← toNat_bits, ← BitVec.toNat_xor, BitVec.ofNat_toNat, BitVec.setWidth_eq]

theorem not16_eq (a : ℤ) : not16 a = (~~~ bits a).toInt := by
  have hlt : (bits a).toNat < 65536 := (bits a).isLt
  have hmod : a % 65536 = ((bits a).toNat : ℕ) := by
    rw [toNat_bits]
    omega
  rw [not16, wrap16_eq, hmod]
  congr 1
  apply BitVec.eq_of_toNat_eq
  rw [toNat_bits, BitVec.toNat_not]
  omega

theorem shl16_eq (a : ℤ) {n : ℕ} (hn : n < 16) : shl16 a n = .ok (bits a <<< n).toInt := by
  have hmod : a % 65536 = ((bits a).toNat : ℕ) := by
    rw [toNat_bits]
    omega
  have hpow : ((bits a).toNat : ℤ) * 2 ^ n = ((bits a).toNat * 2 ^ n : ℕ) := by push_cast; rfl
  rw [shl16, if_neg (by omega), Int.toNat_natCast, hmod, hpow, wrap16_natCast]
  congr 2
  apply BitVec.eq_of_toNat_eq
  rw [BitVec.toNat_shiftLeft, BitVec.toNat_ofNat, Nat.shiftLeft_eq]

theorem shr16_eq {a : ℤ} (ha : -32768 ≤ a) (ha' : a ≤ 32767) {n : ℕ} (hn : n < 16) :
    shr16 a n = .ok ((bits a).sshiftRight n).toInt := by
  have hshift : a / 2 ^ n = ((bits a).sshiftRight n).toInt := by
    rw [BitVec.toInt_sshiftRight, toInt_bits ha ha', Int.shiftRight_eq_div_pow]
    norm_cast
  rw [shr16, if_neg (by omega), Int.toNat_natCast, hshift, wrap16_eq, bits_toInt]

/-- A difference of 16-bit ints is the difference of their bits. -/
theorem wrap16_sub (a b : ℤ) : wrap16 (a - b) = (bits a - bits b).toInt := by
  rw [wrap16_eq, bits, bits, bits, sub_eq_add_neg, BitVec.ofInt_add, BitVec.ofInt_neg, ← BitVec.sub_eq_add_neg]

/-- The lowest bits of a word, as the code masks them: `(1 << k) - 1`. -/
theorem getLsbD_mask {k : ℕ} (hk : k < 16) (j : ℕ) : (1#16 <<< k - 1#16).getLsbD j = decide (j < k) := by
  have hpow : 2 ^ k < 2 ^ 16 := Nat.pow_lt_pow_right (by omega) hk
  have hpos : 0 < 2 ^ k := Nat.two_pow_pos k
  have hmask : (1#16 <<< k - 1#16).toNat = 2 ^ k - 1 := by
    rw [BitVec.toNat_sub, BitVec.toNat_shiftLeft, Nat.shiftLeft_eq]
    simp only [BitVec.toNat_ofNat]
    omega
  rw [← BitVec.testBit_toNat, hmask, Nat.testBit_two_pow_sub_one]

/-- An arithmetic shift whose copies of the sign are masked off is the logical one. -/
theorem sshiftRight_and_mask (u : BitVec 16) {n : ℕ} (hn : 0 < n) (hn' : n ≤ 16) :
    u.sshiftRight n &&& (1#16 <<< (16 - n) - 1#16) = u >>> n := by
  apply BitVec.eq_of_getLsbD_eq
  intro j hj
  rw [BitVec.getLsbD_and, getLsbD_mask (by omega), BitVec.getLsbD_sshiftRight, BitVec.getLsbD_ushiftRight]
  by_cases hlow : n + j < 16
  · simp [hlow, show j < 16 - n by omega, show ¬ 16 ≤ j by omega]
  · simp [show ¬ j < 16 - n by omega, BitVec.getLsbD_of_ge u (n + j) (by omega)]

theorem bitAt_eq {x : ℤ} (hx : -32768 ≤ x) (hx' : x ≤ 32767) {n : ℕ} (hn : n < 16) :
    bitAt x n = .ok ((bits x).getLsbD n).toInt := by
  have hbit : ((bits x).sshiftRight n).getLsbD 0 = (bits x).getLsbD n := by
    rw [BitVec.getLsbD_sshiftRight, Nat.add_zero, if_pos hn]
    rfl
  rw [bitAt, shr16_eq hx hx' hn, ok_bind, and16_eq, bits_toInt]
  change Except.ok ((bits x).sshiftRight n &&& 1#16).toInt = _
  rw [BitVec.and_one_eq_setWidth_ofBool_getLsbD, hbit]
  cases (bits x).getLsbD n <;> rfl

end Words

section Loops

variable {x : ℤ} {fuel : ℕ}

theorem popcountTurn_eq (hx : -32768 ≤ x) (hx' : x ≤ 32767) {n c : ℕ} (hn : n < 16) (hc : c ≤ 16) :
    popcountTurn x (n, c) = .ok (.inl ((n + 1 : ℕ), (c + ((bits x).getLsbD n).toNat : ℕ))) := by
  have hnext : wrap16 ((n : ℤ) + 1) = (n + 1 : ℕ) := wrap16_succ (by omega)
  have hcount : wrap16 ((c : ℤ) + 1) = (c + 1 : ℕ) := wrap16_succ (by omega)
  rw [popcountTurn, if_pos (by dsimp only; omega)]
  dsimp only
  rw [bitAt_eq hx hx' hn, ok_bind, hnext, hcount]
  cases (bits x).getLsbD n <;> rfl

/-- The bits counted so far. -/
theorem popcount_eq (hx : -32768 ≤ x) (hx' : x ≤ 32767) (hfuel : 16 < fuel) :
    popcount fuel x = .ok ((bits x).cpop.toNat : ℕ) := by
  have hrun := loop_returns .outOfFuel (popcountTurn x) fuel
    (P := fun s => ∃ n : ℕ, n ≤ 16 ∧ s = ((n : ℤ), (((bits x).cpopNatRec n 0 : ℕ) : ℤ))) (Q := fun c => c = ((bits x).cpop.toNat : ℕ))
    (fun s => 16 - s.1.toNat) ?_ (s := (0, 0)) ⟨0, by omega, by simp⟩ (by simpa using hfuel)
  · obtain ⟨c, hrun, rfl⟩ := hrun
    exact hrun
  · rintro s ⟨n, hn, rfl⟩
    rcases Nat.lt_or_ge n 16 with hlt | hge
    · left
      refine ⟨_, popcountTurn_eq hx hx' hlt ((bits x).cpopNatRec_zero_le n), ⟨n + 1, hlt, ?_⟩, by simp only [Int.toNat_natCast]; omega⟩
      rw [BitVec.cpopNatRec_succ, BitVec.cpopNatRec_eq (0 + _), Nat.zero_add]
    · right
      obtain rfl : n = 16 := by omega
      exact ⟨_, rfl, by rw [BitVec.toNat_cpop]⟩

/-- The lowest `n` bits of `u`, last first. -/
def Turned (u v : BitVec 16) (n : ℕ) : Prop := ∀ j, v.getLsbD j = (decide (j < n) && u.getLsbD (n - 1 - j))

theorem Turned.next {u v : BitVec 16} {n : ℕ} (h : Turned u v n) (hn : n < 16) :
    Turned u (v <<< 1 ||| BitVec.ofNat 16 (u.getLsbD n).toNat) (n + 1) := by
  intro j
  have hlow : (BitVec.ofNat 16 (u.getLsbD n).toNat).getLsbD j = (decide (j = 0) && u.getLsbD n) := by
    cases u.getLsbD n <;> cases j <;> simp
  rw [BitVec.getLsbD_or, BitVec.getLsbD_shiftLeft, hlow, h]
  cases j with
  | zero => simp
  | succ j =>
    by_cases hj : j < n
    · simp [hj, show j + 1 < 16 by omega, show n - (j + 1) = n - 1 - j by omega]
    · simp [hj]

theorem reverseBitsTurn_eq (hx : -32768 ≤ x) (hx' : x ≤ 32767) {n : ℕ} (hn : n < 16) (v : BitVec 16) :
    reverseBitsTurn x (n, v.toInt) =
      .ok (.inl ((n + 1 : ℕ), (v <<< 1 ||| BitVec.ofNat 16 ((bits x).getLsbD n).toNat).toInt)) := by
  have hnext : wrap16 ((n : ℤ) + 1) = (n + 1 : ℕ) := wrap16_succ (by omega)
  have hshift : shl16 v.toInt 1 = .ok (v <<< 1).toInt := by
    have h := shl16_eq v.toInt (n := 1) (by omega)
    rwa [bits_toInt] at h
  rw [reverseBitsTurn, if_pos (by dsimp only; omega)]
  dsimp only
  rw [hshift, ok_bind, bitAt_eq hx hx' hn, ok_bind, hnext, or16_eq, bits_toInt]
  cases (bits x).getLsbD n <;> rfl

theorem leadingTurn_eq (hx : -32768 ≤ x) (hx' : x ≤ 32767) {n : ℕ} (hn : n < 16) :
    leadingTurn x n = .ok (if (bits x).getLsbD n then .inr (15 - n) else .inl (n - 1)) := by
  have hends : wrap16 (15 - (n : ℤ)) = 15 - n := wrap16_of_range (by omega) (by omega)
  have hnext : wrap16 ((n : ℤ) - 1) = n - 1 := wrap16_of_range (by omega) (by omega)
  rw [leadingTurn, if_pos (by omega), bitAt_eq hx hx' hn, ok_bind, hends, hnext]
  cases (bits x).getLsbD n <;> rfl

theorem trailingTurn_eq (hx : -32768 ≤ x) (hx' : x ≤ 32767) {n : ℕ} (hn : n < 16) :
    trailingTurn x n = .ok (if (bits x).getLsbD n then .inr n else .inl (n + 1 : ℕ)) := by
  have hnext : wrap16 ((n : ℤ) + 1) = (n + 1 : ℕ) := wrap16_succ (by omega)
  rw [trailingTurn, if_pos (by omega), bitAt_eq hx hx' hn, ok_bind, hnext]
  cases (bits x).getLsbD n <;> rfl

/-- The highest bit of a word is as far from the top as there are leading zeros. -/
theorem clz_of_highest {u : BitVec 16} {n : ℕ} (hn : n < 16) (hbit : u.getLsbD n = true)
    (habove : ∀ j, n < j → u.getLsbD j = false) : u.clz.toNat = 15 - n := by
  have hne : u ≠ 0#16 := by
    rintro rfl
    simp at hbit
  have htop := BitVec.getLsbD_true_clz_of_ne_zero (by omega) hne
  have hlow : 16 - 1 - u.clz.toNat ≤ n := by
    by_contra hgt
    rw [habove _ (by omega)] at htop
    cases htop
  have hhigh : 2 ^ n < 2 ^ (16 - u.clz.toNat) :=
    (Nat.ge_two_pow_of_testBit hbit).trans_lt BitVec.toNat_lt_two_pow_sub_clz
  have hexp : n < 16 - u.clz.toNat := (Nat.pow_lt_pow_iff_right (by omega)).mp hhigh
  omega

theorem ctz_of_lowest {u : BitVec 16} {n : ℕ} (hbit : u.getLsbD n = true)
    (hbelow : ∀ j < n, u.getLsbD j = false) : u.ctz.toNat = n := by
  have hne : u ≠ 0#16 := by
    rintro rfl
    simp at hbit
  have hlow := BitVec.getLsbD_true_ctz_of_ne_zero hne
  rcases Nat.lt_trichotomy u.ctz.toNat n with hlt | heq | hgt
  · rw [hbelow _ hlt] at hlow
    cases hlow
  · exact heq
  · rw [BitVec.getLsbD_false_of_lt_ctz hgt] at hbit
    cases hbit

theorem eq_zero_of_bits {u : BitVec 16} (h : ∀ j < 16, u.getLsbD j = false) : u = 0#16 := by
  apply BitVec.eq_of_getLsbD_eq
  intro j hj
  rw [h j hj, BitVec.getLsbD_zero]

theorem reverse_bits_eq (hx : -32768 ≤ x) (hx' : x ≤ 32767) (hfuel : 16 < fuel) :
    reverse_bits fuel x = .ok (bits x).reverse.toInt := by
  have hrun := loop_returns .outOfFuel (reverseBitsTurn x) fuel
    (P := fun s => ∃ (n : ℕ) (v : BitVec 16), n ≤ 16 ∧ s = ((n : ℤ), v.toInt) ∧ Turned (bits x) v n)
    (Q := fun r => r = (bits x).reverse.toInt) (fun s => 16 - s.1.toNat) ?_ (s := (0, 0))
    ⟨0, 0#16, by omega, rfl, fun j => by simp⟩ (by simpa using hfuel)
  · obtain ⟨r, hrun, rfl⟩ := hrun
    exact hrun
  · rintro s ⟨n, v, hn, rfl, hv⟩
    rcases Nat.lt_or_ge n 16 with hlt | hge
    · left
      exact ⟨_, reverseBitsTurn_eq hx hx' hlt v, ⟨n + 1, _, hlt, rfl, hv.next hlt⟩, by simp only [Int.toNat_natCast]; omega⟩
    · right
      obtain rfl : n = 16 := by omega
      refine ⟨_, rfl, congrArg BitVec.toInt (BitVec.eq_of_getLsbD_eq fun j hj => ?_)⟩
      rw [hv, BitVec.getLsbD_reverse, BitVec.getMsbD_eq_getLsbD]

theorem leading_zeros_eq (hx : -32768 ≤ x) (hx' : x ≤ 32767) (hfuel : 16 < fuel) :
    leading_zeros fuel x = .ok ((bits x).clz.toNat : ℕ) := by
  have hrun := loop_returns .outOfFuel (leadingTurn x) fuel
    (P := fun i => ∃ n : ℕ, n ≤ 16 ∧ i = (n : ℤ) - 1 ∧ ∀ j, n ≤ j → (bits x).getLsbD j = false)
    (Q := fun c => c = ((bits x).clz.toNat : ℕ)) (fun i => (i + 1).toNat) ?_ (s := 15)
    ⟨16, le_rfl, rfl, fun j hj => BitVec.getLsbD_of_ge _ _ hj⟩ (by simpa using hfuel)
  · obtain ⟨c, hrun, rfl⟩ := hrun
    exact hrun
  · rintro i ⟨n, hn, rfl, habove⟩
    cases n with
    | zero =>
      right
      have hzero : bits x = 0#16 := eq_zero_of_bits fun j _ => habove j (by omega)
      exact ⟨16, rfl, by rw [hzero]; rfl⟩
    | succ n =>
      rw [show ((n + 1 : ℕ) : ℤ) - 1 = n by omega, leadingTurn_eq hx hx' (by omega)]
      cases hbit : (bits x).getLsbD n with
      | true =>
        right
        exact ⟨_, rfl, by rw [clz_of_highest (by omega) hbit fun j hj => habove j hj]; omega⟩
      | false =>
        left
        refine ⟨_, rfl, ⟨n, by omega, rfl, fun j hj => ?_⟩, by omega⟩
        rcases Nat.eq_or_lt_of_le hj with rfl | hlt
        · exact hbit
        · exact habove j hlt

theorem trailing_zeros_eq (hx : -32768 ≤ x) (hx' : x ≤ 32767) (hfuel : 16 < fuel) :
    trailing_zeros fuel x = .ok ((bits x).ctz.toNat : ℕ) := by
  have hrun := loop_returns .outOfFuel (trailingTurn x) fuel
    (P := fun i => ∃ n : ℕ, n ≤ 16 ∧ i = n ∧ ∀ j < n, (bits x).getLsbD j = false)
    (Q := fun c => c = ((bits x).ctz.toNat : ℕ)) (fun i => 16 - i.toNat) ?_ (s := 0)
    ⟨0, by omega, rfl, fun j hj => by omega⟩ (by simpa using hfuel)
  · obtain ⟨c, hrun, rfl⟩ := hrun
    exact hrun
  · rintro i ⟨n, hn, rfl, hbelow⟩
    rcases Nat.lt_or_ge n 16 with hlt | hge
    · rw [trailingTurn_eq hx hx' hlt]
      cases hbit : (bits x).getLsbD n with
      | true =>
        right
        exact ⟨_, rfl, by rw [ctz_of_lowest hbit hbelow]⟩
      | false =>
        left
        refine ⟨_, rfl, ⟨n + 1, hlt, rfl, fun j hj => ?_⟩, by simp only [Int.toNat_natCast]; omega⟩
        rcases Nat.eq_or_lt_of_le (Nat.le_of_lt_succ hj) with rfl | hlt
        · exact hbit
        · exact hbelow j hlt
    · right
      obtain rfl : n = 16 := by omega
      have hzero : bits x = 0#16 := eq_zero_of_bits hbelow
      exact ⟨16, rfl, by rw [hzero]; rfl⟩

end Loops

section Exact

variable {x n : ℤ} {fuel : ℕ}

theorem indexed_eq {α : Type} {n : ℤ} {f g : Run α} (h : ∀ k : ℕ, k < 16 → n = k → f = g) :
    (do check_index n; f) = (do check_index n; g) := by
  unfold check_index
  split
  · rfl
  · exact h n.toNat (by omega) (by omega)

theorem bit_get_eq (hx : -32768 ≤ x) (hx' : x ≤ 32767) :
    bit_get x n = do check_index n; return (bits x).getLsbD n.toNat := by
  refine indexed_eq fun k hk hn => ?_
  subst hn
  rw [bitAt_eq hx hx' hk, ok_bind, Int.toNat_natCast]
  cases (bits x).getLsbD k <;> rfl

theorem shl16_one {k : ℕ} (hk : k < 16) : shl16 1 k = .ok (BitVec.twoPow 16 k).toInt := shl16_eq 1 hk

theorem bit_set_eq : bit_set x n = do check_index n; return (bits x ||| BitVec.twoPow 16 n.toNat).toInt := by
  refine indexed_eq fun k hk hn => ?_
  subst hn
  rw [shl16_one hk, ok_bind, or16_eq, bits_toInt, Int.toNat_natCast]

theorem bit_clear_eq : bit_clear x n = do check_index n; return (bits x &&& ~~~ BitVec.twoPow 16 n.toNat).toInt := by
  refine indexed_eq fun k hk hn => ?_
  subst hn
  rw [shl16_one hk, ok_bind, not16_eq, and16_eq, bits_toInt, bits_toInt, Int.toNat_natCast]

theorem bit_toggle_eq : bit_toggle x n = do check_index n; return (bits x ^^^ BitVec.twoPow 16 n.toNat).toInt := by
  refine indexed_eq fun k hk hn => ?_
  subst hn
  rw [shl16_one hk, ok_bind, xor16_eq, bits_toInt, Int.toNat_natCast]

theorem highest_bit_eq (hx : -32768 ≤ x) (hx' : x ≤ 32767) (hfuel : 16 < fuel) :
    highest_bit fuel x = .ok (15 - ((bits x).clz.toNat : ℕ)) := by
  have hle : (bits x).clz.toNat ≤ 16 := BitVec.clz_le
  have hend : wrap16 (15 - ((bits x).clz.toNat : ℤ)) = 15 - (bits x).clz.toNat := wrap16_of_range (by omega) (by omega)
  rw [highest_bit, leading_zeros_eq hx hx' hfuel, ok_bind, hend]
  split
  · rename_i hzero
    subst hzero
    rfl
  · rfl

theorem rotation_eq : rotation n = .ok (n % 16) := by
  have hrem : intMod n 16 = .ok (n.tmod 16) := by
    have hdef : n - n.tdiv 16 * 16 = n.tmod 16 := by rw [Int.tmod_def]; ring
    have habs := Int.tmod_eq_emod (a := n) (b := 16)
    rw [intMod, if_neg (by decide), truncDiv_eq, hdef, wrap16_of_range]
    all_goals split at habs <;> omega
  rw [rotation, hrem, ok_bind]
  have habs := Int.tmod_eq_emod (a := n) (b := 16)
  split
  · rw [wrap16_of_range (by split at habs <;> omega) (by omega)]
    exact congrArg Except.ok (by split at habs <;> omega)
  · exact congrArg Except.ok (by split at habs <;> omega)

/-- Shifting right past a mask of what is left, as the code writes it. -/
theorem masked_shift (hx : -32768 ≤ x) (hx' : x ≤ 32767) {k : ℕ} (hk : 0 < k) (hk' : k < 16) :
    (do return and16 (← shr16 x k) (wrap16 ((← shl16 1 (16 - k : ℕ)) - 1)) : Run ℤ) = .ok (bits x >>> k).toInt := by
  rw [shr16_eq hx hx' hk', ok_bind, shl16_eq 1 (by omega), ok_bind, wrap16_sub, and16_eq, bits_toInt, bits_toInt, bits_toInt]
  exact congrArg (fun u => Except.ok (BitVec.toInt u)) (sshiftRight_and_mask (bits x) hk hk'.le)

theorem logical_shift_right_eq (hx : -32768 ≤ x) (hx' : x ≤ 32767) :
    logical_shift_right x n =
      if n < 0 ∨ n > 15 then .error (.panic "shift count out of range: expected 0..15")
      else .ok (bits x >>> n.toNat).toInt := by
  unfold logical_shift_right
  by_cases hout : n < 0 ∨ n > 15
  · rw [if_pos hout, if_pos hout]
    rfl
  · rw [if_neg hout, if_neg hout]
    obtain ⟨k, rfl⟩ : ∃ k : ℕ, n = k := ⟨n.toNat, by omega⟩
    rw [Int.toNat_natCast]
    by_cases hzero : (k : ℤ) = 0
    · obtain rfl : k = 0 := by omega
      rw [if_pos hzero, BitVec.ushiftRight_zero, toInt_bits hx hx']
      rfl
    · have hcount : wrap16 (16 - (k : ℤ)) = (16 - k : ℕ) := by
        rw [wrap16_of_range (by omega) (by omega)]
        omega
      rw [if_neg hzero, hcount]
      exact masked_shift hx hx' (by omega) (by omega)

theorem rotate_left_eq (hx : -32768 ≤ x) (hx' : x ≤ 32767) :
    rotate_left x n = .ok ((bits x).rotateLeft (n % 16).toNat).toInt := by
  obtain ⟨k, hk⟩ : ∃ k : ℕ, n % 16 = k := ⟨(n % 16).toNat, by omega⟩
  have hlt : k < 16 := by omega
  rw [rotate_left, rotation_eq, ok_bind, hk, Int.toNat_natCast, BitVec.rotateLeft_def, Nat.mod_eq_of_lt hlt]
  by_cases hzero : (k : ℤ) = 0
  · obtain rfl : k = 0 := by omega
    rw [if_pos hzero, BitVec.shiftLeft_zero, Nat.sub_zero, BitVec.ushiftRight_eq_zero le_rfl, BitVec.or_zero, toInt_bits hx hx']
    rfl
  · have hcount : wrap16 (16 - (k : ℤ)) = (16 - k : ℕ) := by
      rw [wrap16_of_range (by omega) (by omega)]
      omega
    have hlow := @masked_shift x hx hx' (16 - k) (by omega) (by omega)
    rw [show 16 - (16 - k) = k by omega, shr16_eq hx hx' (by omega), ok_bind, shl16_eq 1 hlt, ok_bind] at hlow
    have hlow' := Except.ok.inj hlow
    rw [if_neg hzero, hcount, shr16_eq hx hx' (by omega), ok_bind, shl16_eq 1 hlt, ok_bind]
    dsimp only
    rw [hlow', shl16_eq x hlt, ok_bind, or16_eq, bits_toInt, bits_toInt]
    rfl

theorem rotate_right_eq (hx : -32768 ≤ x) (hx' : x ≤ 32767) :
    rotate_right x n = .ok ((bits x).rotateRight (n % 16).toNat).toInt := by
  obtain ⟨k, hk⟩ : ∃ k : ℕ, n % 16 = k := ⟨(n % 16).toNat, by omega⟩
  have hlt : k < 16 := by omega
  rw [rotate_right, rotation_eq, ok_bind, hk, Int.toNat_natCast, BitVec.rotateRight_def, Nat.mod_eq_of_lt hlt]
  by_cases hzero : (k : ℤ) = 0
  · obtain rfl : k = 0 := by omega
    rw [if_pos hzero, BitVec.ushiftRight_zero, Nat.sub_zero, BitVec.shiftLeft_eq_zero le_rfl, BitVec.or_zero, toInt_bits hx hx']
    rfl
  · have hcount : wrap16 (16 - (k : ℤ)) = (16 - k : ℕ) := by
      rw [wrap16_of_range (by omega) (by omega)]
      omega
    have hmod : (((16 - k : ℕ) : ℤ) % 16).toNat = 16 - k := by omega
    rw [if_neg hzero, hcount, rotate_left_eq hx hx', hmod, BitVec.rotateLeft_def, Nat.mod_eq_of_lt (by omega),
      show 16 - (16 - k) = k by omega, BitVec.or_comm]

/-- What the operations on an int and an index, a count or a rotation do to its bits. -/
structure ActsOnBits (fuel : ℕ) (x n : ℤ) : Prop where
  get : bit_get x n = do check_index n; return (bits x).getLsbD n.toNat
  set : bit_set x n = do check_index n; return (bits x ||| BitVec.twoPow 16 n.toNat).toInt
  clear : bit_clear x n = do check_index n; return (bits x &&& ~~~ BitVec.twoPow 16 n.toNat).toInt
  toggle : bit_toggle x n = do check_index n; return (bits x ^^^ BitVec.twoPow 16 n.toNat).toInt
  count : popcount fuel x = .ok ((bits x).cpop.toNat : ℕ)
  reversed : reverse_bits fuel x = .ok (bits x).reverse.toInt
  leading : leading_zeros fuel x = .ok ((bits x).clz.toNat : ℕ)
  trailing : trailing_zeros fuel x = .ok ((bits x).ctz.toNat : ℕ)
  highest : highest_bit fuel x = .ok (15 - ((bits x).clz.toNat : ℕ))
  left : rotate_left x n = .ok ((bits x).rotateLeft (n % 16).toNat).toInt
  right : rotate_right x n = .ok ((bits x).rotateRight (n % 16).toNat).toInt
  shifted : logical_shift_right x n =
    if n < 0 ∨ n > 15 then .error (.panic "shift count out of range: expected 0..15")
    else .ok (bits x >>> n.toNat).toInt

/-- Every operation is the one on words of 16 bits. -/
theorem bits_exact (hx : -32768 ≤ x) (hx' : x ≤ 32767) (hfuel : 16 < fuel) (n : ℤ) : ActsOnBits fuel x n where
  get := bit_get_eq hx hx'
  set := bit_set_eq
  clear := bit_clear_eq
  toggle := bit_toggle_eq
  count := popcount_eq hx hx' hfuel
  reversed := reverse_bits_eq hx hx' hfuel
  leading := leading_zeros_eq hx hx' hfuel
  trailing := trailing_zeros_eq hx hx' hfuel
  highest := highest_bit_eq hx hx' hfuel
  left := rotate_left_eq hx hx'
  right := rotate_right_eq hx hx'
  shifted := logical_shift_right_eq hx hx'

theorem bits_exact_smallest : ActsOnBits 17 (-32768) (-3) := bits_exact (by decide) (by decide) (by decide) (-3)

end Exact

section Laws

variable {x a b : ℤ} {fuel : ℕ}

theorem toInt_bounds (u : BitVec 16) : -32768 ≤ u.toInt ∧ u.toInt ≤ 32767 := by
  have hlow := u.le_two_mul_toInt
  have hhigh := u.two_mul_toInt_lt
  norm_num at hlow hhigh
  omega

theorem getLsbD_rotatedLeft (u : BitVec 16) {i k : ℕ} (hi : i < 16) (hk : k < 16) :
    (u.rotateLeft i).getLsbD k = u.getLsbD ((k + 16 - i) % 16) := by
  rw [BitVec.getLsbD_rotateLeft_of_le hi]
  by_cases hlow : k < i
  · rw [show (k + 16 - i) % 16 = 16 - i + k by omega, decide_eq_true hlow, cond_true]
  · rw [show (k + 16 - i) % 16 = k - i by omega, decide_eq_false hlow, cond_false, decide_eq_true hk, Bool.true_and]

theorem getLsbD_rotatedRight (u : BitVec 16) {i k : ℕ} (hi : i < 16) (hk : k < 16) :
    (u.rotateRight i).getLsbD k = u.getLsbD ((k + i) % 16) := by
  rw [BitVec.getLsbD_rotateRight_of_lt hi]
  by_cases hlow : k < 16 - i
  · rw [show (k + i) % 16 = i + k by omega, decide_eq_true hlow, cond_true]
  · rw [show (k + i) % 16 = k - (16 - i) by omega, decide_eq_false hlow, cond_false, decide_eq_true hk, Bool.true_and]

theorem getLsbD_reversed (u : BitVec 16) {k : ℕ} (hk : k < 16) : u.reverse.getLsbD k = u.getLsbD (15 - k) := by
  rw [BitVec.getLsbD_reverse, BitVec.getMsbD_eq_getLsbD, decide_eq_true hk, Bool.true_and, Nat.sub_right_comm]

theorem rotateLeft_rotateLeft (u : BitVec 16) {i j : ℕ} (hi : i < 16) (hj : j < 16) :
    (u.rotateLeft i).rotateLeft j = u.rotateLeft ((i + j) % 16) := by
  apply BitVec.eq_of_getLsbD_eq
  intro k hk
  rw [getLsbD_rotatedLeft _ hj hk, getLsbD_rotatedLeft _ hi (by omega), getLsbD_rotatedLeft _ (by omega) hk]
  congr 1
  omega

theorem rotateRight_rotateLeft (u : BitVec 16) {i : ℕ} (hi : i < 16) : (u.rotateLeft i).rotateRight i = u := by
  apply BitVec.eq_of_getLsbD_eq
  intro k hk
  rw [getLsbD_rotatedRight _ hi hk, getLsbD_rotatedLeft _ hi (by omega)]
  congr 1
  omega

theorem reverse_rotateLeft (u : BitVec 16) {i : ℕ} (hi : i < 16) : (u.rotateLeft i).reverse = u.reverse.rotateRight i := by
  apply BitVec.eq_of_getLsbD_eq
  intro k hk
  rw [getLsbD_reversed _ hk, getLsbD_rotatedLeft _ hi (by omega), getLsbD_rotatedRight _ hi hk, getLsbD_reversed _ (by omega)]
  congr 1
  omega

theorem toNat_cpop_eq_sum (u : BitVec 16) : u.cpop.toNat = ∑ k ∈ Finset.range 16, (u.getLsbD k).toNat := by
  have hsum : ∀ n, u.cpopNatRec n 0 = ∑ k ∈ Finset.range n, (u.getLsbD k).toNat := by
    intro n
    induction n with
    | zero => rfl
    | succ n ih => rw [BitVec.cpopNatRec_succ, BitVec.cpopNatRec_eq, ih, Finset.sum_range_succ, Nat.zero_add]
  rw [BitVec.toNat_cpop, hsum]

theorem cpop_rotateLeft (u : BitVec 16) {i : ℕ} (hi : i < 16) : (u.rotateLeft i).cpop.toNat = u.cpop.toNat := by
  rw [toNat_cpop_eq_sum, toNat_cpop_eq_sum]
  refine Finset.sum_nbij' (fun k => (k + 16 - i) % 16) (fun k => (k + i) % 16) ?_ ?_ ?_ ?_ ?_
  · intro k _
    exact Finset.mem_range.mpr (Nat.mod_lt _ (by omega))
  · intro k _
    exact Finset.mem_range.mpr (Nat.mod_lt _ (by omega))
  · intro k hk
    have hlt := Finset.mem_range.mp hk
    omega
  · intro k hk
    have hlt := Finset.mem_range.mp hk
    omega
  · intro k hk
    rw [getLsbD_rotatedLeft u hi (Finset.mem_range.mp hk)]

/-- How the operations compose. -/
structure BitLaws (fuel : ℕ) (x a b : ℤ) : Prop where
  rotated : (do rotate_left (← rotate_left x a) b) = rotate_left x (wrap16 (a + b))
  undone : (do rotate_right (← rotate_left x a) a) = .ok x
  reversed : (do reverse_bits fuel (← reverse_bits fuel x)) = .ok x
  mirrored : (do reverse_bits fuel (← rotate_left x a)) = do rotate_right (← reverse_bits fuel x) a
  counted : (do popcount fuel (← rotate_left x a)) = popcount fuel x
  recounted : (do popcount fuel (← reverse_bits fuel x)) = popcount fuel x
  turned : (do leading_zeros fuel (← reverse_bits fuel x)) = trailing_zeros fuel x

theorem bits_laws (hx : -32768 ≤ x) (hx' : x ≤ 32767) (hfuel : 16 < fuel) (a b : ℤ) : BitLaws fuel x a b := by
  have hlow : ∀ u : BitVec 16, -32768 ≤ u.toInt := fun u => (toInt_bounds u).1
  have hhigh : ∀ u : BitVec 16, u.toInt ≤ 32767 := fun u => (toInt_bounds u).2
  have ha : (a % 16).toNat < 16 := by omega
  have hb : (b % 16).toNat < 16 := by omega
  have hsum : (wrap16 (a + b) % 16).toNat = ((a % 16).toNat + (b % 16).toNat) % 16 := by
    unfold wrap16
    split <;> omega
  constructor
  case rotated =>
    rw [rotate_left_eq hx hx', ok_bind, rotate_left_eq (hlow _) (hhigh _), rotate_left_eq hx hx', bits_toInt, hsum,
      rotateLeft_rotateLeft _ ha hb]
  case undone =>
    rw [rotate_left_eq hx hx', ok_bind, rotate_right_eq (hlow _) (hhigh _), bits_toInt, rotateRight_rotateLeft _ ha,
      toInt_bits hx hx']
  case reversed =>
    rw [reverse_bits_eq hx hx' hfuel, ok_bind, reverse_bits_eq (hlow _) (hhigh _) hfuel, bits_toInt,
      BitVec.reverse_reverse_eq, toInt_bits hx hx']
  case mirrored =>
    rw [rotate_left_eq hx hx', ok_bind, reverse_bits_eq (hlow _) (hhigh _) hfuel, reverse_bits_eq hx hx' hfuel, ok_bind,
      rotate_right_eq (hlow _) (hhigh _), bits_toInt, bits_toInt, reverse_rotateLeft _ ha]
  case counted =>
    rw [rotate_left_eq hx hx', ok_bind, popcount_eq (hlow _) (hhigh _) hfuel, popcount_eq hx hx' hfuel, bits_toInt,
      cpop_rotateLeft _ ha]
  case recounted =>
    rw [reverse_bits_eq hx hx' hfuel, ok_bind, popcount_eq (hlow _) (hhigh _) hfuel, popcount_eq hx hx' hfuel, bits_toInt,
      BitVec.cpop_reverse]
  case turned =>
    rw [reverse_bits_eq hx hx' hfuel, ok_bind, leading_zeros_eq (hlow _) (hhigh _) hfuel, trailing_zeros_eq hx hx' hfuel,
      bits_toInt, BitVec.ctz_eq_reverse_clz]

theorem bits_laws_wrapping : BitLaws 17 (-12345) 32767 9 := bits_laws (by decide) (by decide) (by decide) 32767 9

end Laws

end QuinLang.Std
