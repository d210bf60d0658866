import Mathlib

/-! Byte-addressed memory with little-endian 16-bit words. A memory is a total
map, so bounds are the caller's business. Every operation comes with a read-back
lemma and a frame lemma, stated on bytes first and lifted to words. -/

namespace ByteMem

abbrev Mem := ℕ → UInt8

def readWord (m : Mem) (a : ℕ) : ℕ := (m (a + 1)).toNat * 256 + (m a).toNat

def writeWord (m : Mem) (a v : ℕ) : Mem := fun x =>
  if x = a then UInt8.ofNat v else if x = a + 1 then UInt8.ofNat (v / 256) else m x

/-- `m[dst:dst+n] = m[src:src+n]`, the source being read before anything is written. -/
def move (m : Mem) (dst src n : ℕ) : Mem := fun x =>
  if dst ≤ x ∧ x < dst + n then m (src + (x - dst)) else m x

/-- Zero the bytes of `[lo, hi)`. -/
def wipe (m : Mem) (lo hi : ℕ) : Mem := fun x => if lo ≤ x ∧ x < hi then 0 else m x

def writeBytes (m : Mem) (a : ℕ) (bs : List UInt8) : Mem := fun x =>
  if a ≤ x ∧ x < a + bs.length then bs.getD (x - a) 0 else m x

def readBytes (m : Mem) (a n : ℕ) : List UInt8 := (List.range n).map fun i => m (a + i)

/-- The two memories hold the same bytes on `[lo, hi)`. -/
def Agree (m m' : Mem) (lo hi : ℕ) : Prop := ∀ x, lo ≤ x → x < hi → m x = m' x

theorem Agree.refl (m : Mem) (lo hi : ℕ) : Agree m m lo hi := fun _ _ _ => rfl

theorem Agree.symm {m m' : Mem} {lo hi : ℕ} (h : Agree m m' lo hi) : Agree m' m lo hi :=
  fun x h1 h2 => (h x h1 h2).symm

theorem Agree.trans {m m' m'' : Mem} {lo hi : ℕ} (h : Agree m m' lo hi) (h' : Agree m' m'' lo hi) :
    Agree m m'' lo hi := fun x h1 h2 => (h x h1 h2).trans (h' x h1 h2)

theorem Agree.mono {m m' : Mem} {lo hi lo' hi' : ℕ} (h : Agree m m' lo hi) (hl : lo ≤ lo')
    (hh : hi' ≤ hi) : Agree m m' lo' hi' := fun x h1 h2 => h x (by omega) (by omega)

-- Derives the equations once, for all the proofs below.
attribute [local simp] readWord writeWord

theorem Agree.readWord {m m' : Mem} {lo hi a : ℕ} (h : Agree m m' lo hi) (hl : lo ≤ a)
    (hh : a + 2 ≤ hi) : readWord m a = readWord m' a := by
  simp only [ByteMem.readWord, h a hl (by omega), h (a + 1) (by omega) (by omega)]

theorem readWord_lt (m : Mem) (a : ℕ) : readWord m a < 65536 := by
  have h0 := (m a).toNat_lt
  have h1 := (m (a + 1)).toNat_lt
  unfold readWord
  omega

theorem readWord_congr {m m' : Mem} {a a' : ℕ} (h0 : m a = m' a') (h1 : m (a + 1) = m' (a' + 1)) :
    readWord m a = readWord m' a' := by
  simp only [readWord, h0, h1]

theorem writeWord_frame (m : Mem) {a v x : ℕ} (h : x < a ∨ a + 2 ≤ x) : writeWord m a v x = m x := by
  have h0 : x ≠ a := by omega
  have h1 : x ≠ a + 1 := by omega
  simp only [writeWord, h0, h1, if_false]

theorem readWord_writeWord_frame (m : Mem) {a v b : ℕ} (h : b + 2 ≤ a ∨ a + 2 ≤ b) :
    readWord (writeWord m a v) b = readWord m b :=
  readWord_congr (writeWord_frame m (by omega)) (writeWord_frame m (by omega))

theorem readWord_writeWord (m : Mem) (a v : ℕ) : readWord (writeWord m a v) a = v % 65536 := by
  simp only [readWord, writeWord, if_true, Nat.succ_ne_self, if_false, UInt8.toNat_ofNat']
  omega

@[simp] theorem readWord_writeWord_of_lt (m : Mem) {a v : ℕ} (h : v < 65536) :
    readWord (writeWord m a v) a = v := by
  rw [readWord_writeWord, Nat.mod_eq_of_lt h]

theorem move_frame (m : Mem) {dst src n x : ℕ} (h : x < dst ∨ dst + n ≤ x) :
    move m dst src n x = m x := by
  unfold move
  rw [if_neg (by omega)]

theorem move_at (m : Mem) {dst src n i : ℕ} (h : i < n) :
    move m dst src n (dst + i) = m (src + i) := by
  unfold move
  rw [if_pos (by omega), Nat.add_sub_cancel_left]

theorem readWord_move_at (m : Mem) {dst src n i : ℕ} (h : i + 2 ≤ n) :
    readWord (move m dst src n) (dst + i) = readWord m (src + i) :=
  readWord_congr (move_at m (by omega : i < n)) (move_at m (by omega : i + 1 < n))

theorem wipe_frame (m : Mem) {lo hi x : ℕ} (h : x < lo ∨ hi ≤ x) : wipe m lo hi x = m x := by
  unfold wipe
  rw [if_neg (by omega)]

theorem wipe_at (m : Mem) {lo hi x : ℕ} (h : lo ≤ x) (h' : x < hi) : wipe m lo hi x = 0 := by
  unfold wipe
  rw [if_pos ⟨h, h'⟩]

theorem writeBytes_frame (m : Mem) {a x : ℕ} {bs : List UInt8} (h : x < a ∨ a + bs.length ≤ x) :
    writeBytes m a bs x = m x := by
  unfold writeBytes
  rw [if_neg (by omega)]

theorem readBytes_writeBytes (m : Mem) (a : ℕ) (bs : List UInt8) :
    readBytes (writeBytes m a bs) a bs.length = bs := by
  apply List.ext_getElem
  · simp [readBytes]
  · intro i h1 h2
    simp only [readBytes, writeBytes, List.getElem_map, List.getElem_range, Nat.add_sub_cancel_left]
    rw [if_pos (by omega), List.getD_eq_getElem _ _ h2]

theorem Agree.readBytes {m m' : Mem} {lo hi a n : ℕ} (h : Agree m m' lo hi) (hl : lo ≤ a)
    (hh : a + n ≤ hi) : readBytes m a n = readBytes m' a n := by
  apply List.map_congr_left
  intro i hi'
  have := List.mem_range.mp hi'
  exact h _ (by omega) (by omega)

/-- Write `v` at every word address of the list. -/
def fill (m : Mem) (v : ℕ) : List ℕ → Mem
  | [] => m
  | a :: as => fill (writeWord m a v) v as

theorem fill_frame (m : Mem) (v : ℕ) {as : List ℕ} {x : ℕ} (h : ∀ a ∈ as, x < a ∨ a + 2 ≤ x) :
    fill m v as x = m x := by
  induction as generalizing m with
  | nil => rfl
  | cons a as ih =>
    rw [fill, ih _ fun b hb => h b (List.mem_cons_of_mem _ hb),
      writeWord_frame m (h a List.mem_cons_self)]

/-- A byte covered by some written word holds that word's byte; for `v = 0` both are zero. -/
theorem fill_zero_at (m : Mem) {as : List ℕ} {x : ℕ} (h : ∃ a ∈ as, a ≤ x ∧ x < a + 2) :
    fill m 0 as x = 0 := by
  induction as generalizing m with
  | nil => simp at h
  | cons a as ih =>
    rw [fill]
    by_cases later : ∃ b ∈ as, b ≤ x ∧ x < b + 2
    · exact ih _ later
    · obtain ⟨b, hb, hx⟩ := h
      have hba : b = a := by
        rcases List.mem_cons.mp hb with h | h
        · exact h
        · exact absurd ⟨b, h, hx⟩ later
      subst hba
      rw [fill_frame _ _ fun c hc => by
        by_contra hne
        exact later ⟨c, hc, by omega, by omega⟩]
      unfold writeWord
      split_ifs
      · rfl
      · rfl
      · omega

end ByteMem
