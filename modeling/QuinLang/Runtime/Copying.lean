import QuinLang.Runtime.StraightLine

/-! Copies between overlapping ranges of one frame. -/

namespace QuinLang

open StateExcept

section Copies

variable {α : Type} {dst src : ℕ}

/-- Offset by offset, in the order given. -/
def copySlots (dst src : ℕ) : List ℕ → List α → List α
  | [], xs => xs
  | i :: order, xs => copySlots dst src order (if h : src + i < xs.length then xs.set (dst + i) xs[src + i] else xs)

theorem length_copySlots (order : List ℕ) (xs : List α) : (copySlots dst src order xs).length = xs.length := by
  induction order generalizing xs with
  | nil => rfl
  | cons i order ih =>
    rw [copySlots, ih]
    split
    · exact List.length_set
    · rfl

/-- Slots that no offset leads to are kept. -/
theorem copySlots_frame {order : List ℕ} {k : ℕ} (h : ∀ i ∈ order, dst + i ≠ k) (xs : List α) :
    (copySlots dst src order xs)[k]? = xs[k]? := by
  induction order generalizing xs with
  | nil => rfl
  | cons i order ih =>
    rw [copySlots, ih fun j hj => h j (List.mem_cons_of_mem i hj)]
    split
    · exact List.getElem?_set_ne (h i List.mem_cons_self)
    · rfl

/-- An order in which no slot is read after it was written copies a snapshot. -/
theorem copySlots_snapshot {order : List ℕ} {xs : List α} (horder : order.Pairwise fun i j => dst + i ≠ src + j)
    (hnodup : order.Nodup) (hdst : ∀ i ∈ order, dst + i < xs.length) (hsrc : ∀ i ∈ order, src + i < xs.length) :
    ∀ i ∈ order, (copySlots dst src order xs)[dst + i]? = xs[src + i]? := by
  induction order generalizing xs with
  | nil => simp
  | cons i order ih =>
    obtain ⟨hread, horder⟩ := List.pairwise_cons.mp horder
    obtain ⟨hnew, hnodup⟩ := List.nodup_cons.mp hnodup
    have hi := hsrc i List.mem_cons_self
    rw [copySlots, dif_pos hi]
    intro j hj
    obtain rfl | hj := List.mem_cons.mp hj
    · have hkept : ∀ k ∈ order, dst + k ≠ dst + j := by
        intro k hk heq
        obtain rfl : k = j := by omega
        exact hnew hk
      rw [copySlots_frame hkept, List.getElem?_set_self (hdst j List.mem_cons_self), List.getElem?_eq_getElem hi]
    · rw [ih horder hnodup (fun k hk => ?_) (fun k hk => ?_) j hj]
      · exact List.getElem?_set_ne (hread j hj)
      · rw [List.length_set]
        exact hdst k (List.mem_cons_of_mem i hk)
      · rw [List.length_set]
        exact hsrc k (List.mem_cons_of_mem i hk)

theorem mem_copyOrder {count i : ℕ} : i ∈ copyOrder dst src count ↔ i < count := by
  unfold copyOrder
  split <;> simp

theorem nodup_copyOrder (count : ℕ) : (copyOrder dst src count).Nodup := by
  unfold copyOrder
  split
  · exact List.nodup_reverse.mpr List.nodup_range
  · exact List.nodup_range

/-- Forward, what was written lies below what is still to be read, and backward above. -/
theorem copyOrder_pairwise (count : ℕ) : (copyOrder dst src count).Pairwise fun i j => dst + i ≠ src + j := by
  unfold copyOrder
  split
  · next hlt =>
    rw [List.pairwise_reverse]
    refine List.pairwise_lt_range.imp fun {i j} hij => ?_
    omega
  · next hle =>
    refine List.pairwise_lt_range.imp fun {i j} hij => ?_
    omega

end Copies

section Locals

variable {W : Type} {s : VM W} {dst src count : ℕ}

/-- The loop of the instruction. -/
theorem copyLoop_eq {order : List ℕ} (hdst : ∀ i ∈ order, dst + i < s.locals.length) (hsrc : ∀ i ∈ order, src + i < s.locals.length)
    (hwords : ∀ v ∈ s.locals, v < 65536) :
    (order.forM fun i => do setLocal ((dst : ℤ) + i) (← getLocal ((src : ℤ) + i)) : Exec W Unit) s =
      .ok ((), { s with locals := copySlots dst src order s.locals }) := by
  induction order generalizing s with
  | nil => rfl
  | cons i order ih =>
    have hi := hsrc i List.mem_cons_self
    have hget : getLocal ((src : ℤ) + i) s = .ok (s.locals[src + i], s) := by
      rw [← Int.natCast_add, getLocal_eq hi, List.getD_eq_getElem _ _ hi]
    have hset : setLocal ((dst : ℤ) + i) s.locals[src + i] s =
        .ok ((), { s with locals := s.locals.set (dst + i) s.locals[src + i] }) := by
      rw [← Int.natCast_add, setLocal_eq (hdst i List.mem_cons_self), word_of_lt (hwords _ (List.getElem_mem hi))]
    have hstep : (do setLocal ((dst : ℤ) + i) (← getLocal ((src : ℤ) + i)) : Exec W Unit) s =
        .ok ((), { s with locals := s.locals.set (dst + i) s.locals[src + i] }) := by
      rw [bind_eq hget, hset]
    rw [List.forM_eq_forM, List.forM_cons, bind_eq hstep, ← List.forM_eq_forM, ih, copySlots, dif_pos hi]
    · intro j hj
      rw [List.length_set]
      exact hdst j (List.mem_cons_of_mem i hj)
    · intro j hj
      rw [List.length_set]
      exact hsrc j (List.mem_cons_of_mem i hj)
    · intro v hv
      obtain hv | rfl := List.mem_or_eq_of_mem_set hv
      · exact hwords v hv
      · exact hwords _ (List.getElem_mem hi)

/-- A copy leaves the destination with what the source held before it, however the two
ranges overlap, and every other slot as it was. -/
theorem memcpyLocals_snapshot {a b c : Entry} {rest : List Entry} (hstack : s.stack = c :: b :: a :: rest)
    (hbase : s.frameBase ≤ rest.length) (hcount : toSigned c.value = count) (hsrc : toSigned b.value = src)
    (hdst : toSigned a.value = dst) (hsrcIn : src + count ≤ s.locals.length) (hdstIn : dst + count ≤ s.locals.length)
    (hwords : ∀ v ∈ s.locals, v < 65536) :
    ∃ locals, memcpyLocals s = .ok ((), { s with stack := rest, locals := locals }) ∧
      locals.length = s.locals.length ∧ (∀ i < count, locals[dst + i]? = s.locals[src + i]?) ∧
      ∀ k, k < dst ∨ dst + count ≤ k → locals[k]? = s.locals[k]? := by
  have hpops : memcpyLocals s = ((copyOrder dst src count).forM fun i => do
      setLocal ((dst : ℤ) + i) (← getLocal ((src : ℤ) + i)) : Exec W Unit) { s with stack := rest } := by
    have hpopc := popSigned_eq hstack (by simp only [List.length_cons]; omega)
    have hpopb := popSigned_eq (s := { s with stack := b :: a :: rest }) rfl (by simp only [List.length_cons]; omega)
    have hpopa := popSigned_eq (s := { s with stack := a :: rest }) rfl hbase
    rw [memcpyLocals, bind_eq hpopc, bind_eq hpopb, bind_eq hpopa, hcount, hsrc, hdst, if_neg (by omega)]
    rfl
  have hin : ∀ i ∈ copyOrder dst src count, i < count := fun i hi => mem_copyOrder.mp hi
  refine ⟨copySlots dst src (copyOrder dst src count) s.locals, ?_, length_copySlots _ _, fun i hi => ?_, fun k hk => ?_⟩
  · rw [hpops]
    exact copyLoop_eq (s := { s with stack := rest }) (fun i hi => by have := hin i hi; simp; omega)
      (fun i hi => by have := hin i hi; simp; omega) hwords
  · exact copySlots_snapshot (copyOrder_pairwise count) (nodup_copyOrder count) (fun i hi => by have := hin i hi; omega)
      (fun i hi => by have := hin i hi; omega) i (mem_copyOrder.mpr hi)
  · exact copySlots_frame (fun i hi => by have := hin i hi; omega) s.locals

theorem memcpyLocals_snapshot_overlap :
    ∃ locals, memcpyLocals ({ stack := [⟨3, false⟩, ⟨0, false⟩, ⟨1, false⟩], locals := [7, 8, 9, 10, 11], io := () } : VM Unit) =
        .ok ((), { stack := [], locals := locals, io := () }) ∧
      locals.length = 5 ∧ (∀ i < 3, locals[1 + i]? = [7, 8, 9, 10, 11][0 + i]?) ∧
      ∀ k, k < 1 ∨ 1 + 3 ≤ k → locals[k]? = [7, 8, 9, 10, 11][k]? :=
  memcpyLocals_snapshot (s := { stack := [⟨3, false⟩, ⟨0, false⟩, ⟨1, false⟩], locals := [7, 8, 9, 10, 11], io := () }) rfl
    (by decide) (by decide) (by decide) (by decide) (by decide) (by decide) (by decide)

end Locals

end QuinLang
