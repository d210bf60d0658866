import QuinLang.Runtime.Run
import QuinLang.Lib.StateExcept

/-! Instructions run forward: what plain arithmetic does where its operands are there,
and how the turns of the loop follow each other. -/

namespace QuinLang

open StateExcept

section Operations

variable {W : Type} {s : VM W} {a b e : Entry} {rest : List Entry}

theorem popTagged_eq (hs : s.stack = e :: rest) (hbase : s.frameBase ≤ rest.length) :
    popTagged s = .ok (e, { s with stack := rest }) := by
  unfold popTagged
  rw [hs]
  exact if_pos hbase

theorem pop_eq (hs : s.stack = e :: rest) (hbase : s.frameBase ≤ rest.length) :
    pop s = .ok (e.value, { s with stack := rest }) := bind_eq (popTagged_eq hs hbase)

theorem popSigned_eq (hs : s.stack = e :: rest) (hbase : s.frameBase ≤ rest.length) :
    popSigned s = .ok (toSigned e.value, { s with stack := rest }) := bind_eq (pop_eq hs hbase)

theorem taggedBinary_eq (f : ℤ → ℤ → ℤ) (hs : s.stack = b :: a :: rest) (hbase : s.frameBase ≤ rest.length) :
    taggedBinary f s = .ok ((), { s with stack := ⟨wordOfInt (f a.value b.value), a.isRef || b.isRef⟩ :: rest }) := by
  unfold taggedBinary
  rw [bind_eq (popTagged_eq hs (Nat.le_succ_of_le hbase)), bind_eq (popTagged_eq (s := { s with stack := a :: rest }) rfl hbase)]
  rfl

theorem plainBinary_eq (f : ℕ → ℕ → ℤ) (hs : s.stack = b :: a :: rest) (hbase : s.frameBase ≤ rest.length) :
    plainBinary f s = .ok ((), { s with stack := ⟨wordOfInt (f a.value b.value), false⟩ :: rest }) := by
  unfold plainBinary
  rw [bind_eq (pop_eq hs (Nat.le_succ_of_le hbase)), bind_eq (pop_eq (s := { s with stack := a :: rest }) rfl hbase)]
  rfl

theorem compare_eq (f : ℤ → ℤ → Bool) (hs : s.stack = b :: a :: rest) (hbase : s.frameBase ≤ rest.length) :
    compare f s = .ok ((), { s with stack := ⟨wordOfInt (if f (toSigned a.value) (toSigned b.value) then 1 else 0), false⟩ :: rest }) := by
  unfold compare
  rw [bind_eq (popSigned_eq hs (Nat.le_succ_of_le hbase)), bind_eq (popSigned_eq (s := { s with stack := a :: rest }) rfl hbase)]
  rfl

theorem divide_eq (message : String) (f : ℤ → ℤ → ℤ) (hs : s.stack = b :: a :: rest) (hbase : s.frameBase ≤ rest.length) :
    divide message f s = if toSigned b.value = 0 then .error (.vmError message)
      else .ok ((), { s with stack := ⟨wordOfInt (f (toSigned a.value) (toSigned b.value)), false⟩ :: rest }) := by
  unfold divide
  rw [bind_eq (popSigned_eq hs (Nat.le_succ_of_le hbase)), bind_eq (popSigned_eq (s := { s with stack := a :: rest }) rfl hbase)]
  split_ifs <;> rfl

/-- One operand replaced by what `f` makes of it. -/
theorem unary_eq (f : ℕ → ℤ) (hs : s.stack = e :: rest) (hbase : s.frameBase ≤ rest.length) :
    (do push (f (← pop)) : Exec W Unit) s = .ok ((), { s with stack := ⟨wordOfInt (f e.value), false⟩ :: rest }) := by
  rw [bind_eq (pop_eq hs hbase)]
  rfl

theorem localIndex_eq {slot : ℕ} (hslot : slot < s.locals.length) : localIndex (slot : ℤ) s = .ok (slot, s) := by
  unfold localIndex
  rw [bind_eq (show (get : Exec W (VM W)) s = .ok (s, s) from rfl), if_neg (by omega)]
  rfl

theorem getLocal_eq {slot : ℕ} (hslot : slot < s.locals.length) :
    getLocal (slot : ℤ) s = .ok (s.locals.getD slot 0, s) := by
  unfold getLocal
  rw [bind_eq (localIndex_eq hslot)]
  rfl

theorem setLocal_eq {slot v : ℕ} (hslot : slot < s.locals.length) :
    setLocal (slot : ℤ) v s = .ok ((), { s with locals := s.locals.set slot (word v) }) := by
  unfold setLocal
  rw [bind_eq (localIndex_eq hslot)]
  rfl

end Operations

section Steps

variable {W : Type} {P : CompiledProgram} {F : FloatOps} {io : ProgramIO W} {s t : VM W} {i : Instruction}

theorem step_eq (hi : P.code[s.pc]? = some i) (hne : i ≠ .ret) {u : Unit}
    (h : execute P F io i { s with pc := s.pc + 1 } = .ok (u, t)) : s.step P F io = .ok (.running t) := by
  unfold VM.step
  rw [hi]
  cases i <;> first | exact absurd rfl hne | simp only [h]

theorem step_fault (hi : P.code[s.pc]? = some i) (hne : i ≠ .ret) {e : Fault}
    (h : execute P F io i { s with pc := s.pc + 1 } = .error e) : s.step P F io = .error e := by
  unfold VM.step
  rw [hi]
  cases i <;> first | exact absurd rfl hne | simp only [h]

theorem steps_succ (h : s.step P F io = .ok (.running t)) (n : ℕ) : s.steps P F io (n + 1) = t.steps P F io n := by
  rw [VM.steps, h]

theorem steps_fault {e : Fault} (h : s.step P F io = .error e) (n : ℕ) : s.steps P F io (n + 1) = .error e := by
  rw [VM.steps, h]

theorem steps_add {m : ℕ} (h : s.steps P F io m = .ok (.running t)) (n : ℕ) :
    s.steps P F io (m + n) = t.steps P F io n := by
  induction m generalizing s with
  | zero =>
    cases h
    rw [Nat.zero_add]
  | succ m ih =>
    rw [VM.steps] at h
    rw [Nat.add_right_comm, VM.steps]
    cases hs : s.step P F io with
    | error e => simp [hs] at h
    | ok p =>
      cases p with
      | exited code u => simp [hs] at h
      | running u =>
        simp only [hs] at h
        exact ih h

end Steps

end QuinLang
