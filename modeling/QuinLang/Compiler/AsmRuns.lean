import QuinLang.Compiler.StackRuns
import QuinLang.Compiler.Lowered
import QuinLang.Runtime.StraightLine

/-! A `vm_asm` block from its first instruction to its last: whatever it meets, the
stack of the code around it and the variables it does not store to are left alone. -/

namespace QuinLang

open StateExcept

section Block

variable {W : Type} (stores : ℕ → Prop)

/-- `t` is `s` but for the pc, the entries above `base` and the locals of `stores`. -/
structure Within (base : List Entry) (s t : VM W) : Prop where
  rest : t = { s with pc := t.pc, stack := t.stack, locals := t.locals }
  stack : base <:+ t.stack
  size : t.locals.length = s.locals.length
  locals : ∀ k, t.locals[k]? ≠ s.locals[k]? → stores k

/-- What an instruction of a block is, in a frame of `n` locals. -/
inductive AsmOp (n : ℕ) : Instruction → Prop
  | push (v : ℕ) : AsmOp n (.pushInt v)
  | load {slot : ℕ} : slot < n → AsmOp n (.loadLocal slot)
  | store {slot : ℕ} : slot < n → stores slot → AsmOp n (.storeLocal slot)
  | simple {name : String} {i : Instruction} {pops pushes : ℕ} : (name, i, pops, pushes) ∈ simpleOps → AsmOp n i

variable {stores} {P : CompiledProgram} {F : FloatOps} {io : ProgramIO W} {base : List Entry} {s t u : VM W}
  {i : Instruction} {mine : List Entry}

theorem Within.refl (h : base <:+ s.stack) : Within stores base s s := ⟨rfl, h, rfl, fun _ hk => absurd rfl hk⟩

theorem Within.trans (h : Within stores base s t) (h' : Within stores base t u) : Within stores base s u := by
  refine ⟨?_, h'.stack, h'.size.trans h.size, fun k hk => ?_⟩
  · rw [h'.rest, h.rest]
  · by_cases hkt : u.locals[k]? = t.locals[k]?
    · exact h.locals k (hkt ▸ hk)
    · exact h'.locals k hkt

/-- One entry left in the place of others. -/
theorem Within.stacked {e : Entry} : Within stores base t { t with stack := e :: mine ++ base } :=
  ⟨rfl, ⟨e :: mine, rfl⟩, rfl, fun _ hk => absurd rfl hk⟩

/-- The outcome of an instruction: the counts of its table, or the one fault. -/
def AsmDone (P : CompiledProgram) (F : FloatOps) (io : ProgramIO W) (stores : ℕ → Prop) (base mine : List Entry)
    (t : VM W) (i : Instruction) : Prop :=
  (∃ mine' t', execute P F io i t = .ok ((), t') ∧ t'.pc = t.pc ∧ t'.stack = mine' ++ base ∧
    mine'.length = mine.length - i.pops + i.pushes ∧ Within stores base t t') ∨
  (i = .div ∧ (t.stack.head?.map fun e => toSigned e.value) = some 0 ∧ execute P F io i t = .error (.vmError "Division by zero"))

theorem asmDone_ok {e : Entry} {r : List Entry} (hexec : execute P F io i t = .ok ((), { t with stack := e :: r ++ base }))
    (hlen : (e :: r).length = mine.length - i.pops + i.pushes) : AsmDone P F io stores base mine t i :=
  .inl ⟨e :: r, _, hexec, rfl, rfl, hlen, .stacked⟩

/-- Every instruction of a block, its operands among the entries of the block. -/
theorem AsmOp.done (h : AsmOp stores t.locals.length i) (hstack : t.stack = mine ++ base) (hbase : t.frameBase ≤ base.length)
    (hpops : i.pops ≤ mine.length) : AsmDone P F io stores base mine t i := by
  have hbelow (rest : List Entry) : t.frameBase ≤ (rest ++ base).length := by
    rw [List.length_append]
    omega
  cases h with
  | push v => exact asmDone_ok (r := mine) (by rw [List.cons_append, ← hstack]; rfl) rfl
  | @load slot hslot =>
    refine asmDone_ok (e := ⟨wordOfInt (t.locals.getD slot 0 : ℕ), (refSlotsOf P t.currentFn).contains slot⟩)
      (r := mine) ?_ rfl
    rw [List.cons_append, ← hstack]
    exact bind_eq (getLocal_eq hslot)
  | @store slot hslot hstores =>
    cases mine with
    | nil => cases hpops
    | cons e rest =>
      refine .inl ⟨rest, { t with stack := rest ++ base, locals := t.locals.set slot (word e.value) }, ?_, rfl, rfl, rfl,
        rfl, ⟨rest, rfl⟩, List.length_set, fun k hk => ?_⟩
      · exact (bind_eq (pop_eq hstack (hbelow rest))).trans (setLocal_eq (s := { t with stack := rest ++ base }) hslot)
      · by_cases hks : slot = k
        · exact hks ▸ hstores
        · exact absurd (List.getElem?_set_ne hks) hk
  | simple hmem =>
    have hone (hp : i.pops = 1) : ∃ e rest, mine = e :: rest := by
      cases mine with
      | nil => simp [hp] at hpops
      | cons e rest => exact ⟨e, rest, rfl⟩
    have htwo (hp : i.pops = 2) : ∃ b a rest, mine = b :: a :: rest := by
      rcases mine with - | ⟨b, - | ⟨a, rest⟩⟩
      · simp [hp] at hpops
      · simp [hp] at hpops
      · exact ⟨b, a, rest, rfl⟩
    simp only [simpleOps, List.mem_cons, Prod.mk.injEq, List.not_mem_nil, or_false] at hmem
    rcases hmem with ⟨-, rfl, -⟩ | ⟨-, rfl, -⟩ | ⟨-, rfl, -⟩ | ⟨-, rfl, -⟩ | ⟨-, rfl, -⟩ | ⟨-, rfl, -⟩ | ⟨-, rfl, -⟩ |
      ⟨-, rfl, -⟩ | ⟨-, rfl, -⟩ | ⟨-, rfl, -⟩ | ⟨-, rfl, -⟩ | ⟨-, rfl, -⟩
    case inr.inr.inr.inl =>
      obtain ⟨b, a, rest, rfl⟩ := htwo rfl
      have hdiv := divide_eq "Division by zero" truncDiv hstack (hbelow rest)
      by_cases hb : toSigned b.value = 0
      · rw [if_pos hb] at hdiv
        exact .inr ⟨rfl, by rw [hstack, List.cons_append, List.head?_cons, Option.map_some, hb], hdiv⟩
      · rw [if_neg hb] at hdiv
        exact asmDone_ok hdiv rfl
    case inr.inr.inr.inr.inl | inr.inr.inr.inr.inr.inl =>
      obtain ⟨e, rest, rfl⟩ := hone rfl
      first
        | exact asmDone_ok (unary_eq (fun v => -(v : ℤ)) hstack (hbelow rest)) rfl
        | exact asmDone_ok (unary_eq (fun v => if v = 0 then 1 else 0) hstack (hbelow rest)) rfl
    all_goals
      obtain ⟨b, a, rest, rfl⟩ := htwo rfl
      first
        | exact asmDone_ok (taggedBinary_eq _ hstack (hbelow rest)) rfl
        | exact asmDone_ok (plainBinary_eq _ hstack (hbelow rest)) rfl
        | exact asmDone_ok (compare_eq _ hstack (hbelow rest)) rfl

/-- The names the lines of a block store to. -/
def asmStores (code : String) : List String :=
  (splitRuns isLineBreak code.toList).filterMap fun raw =>
    match (splitRuns isSpace (asmLine raw)).map String.ofList with
    | ["store_local", name] => some name
    | _ => none

/-- The slots a block stores to. -/
def StoredSlot (layout : FunctionLayout) (visible : List (String × Symbol)) (names : List String) (k : ℕ) : Prop :=
  ∃ name ∈ names, ∃ sym slot, visible.lookup name = some sym ∧ layout.slot? sym = some slot ∧ slot.index = k

/-- What running the `n` instructions from `s` on comes to: along the way nothing of `base`
is popped and only the slots of `stores` change; it ends past them with `base` the stack, or
at a division by zero. -/
structure Contained (P : CompiledProgram) (F : FloatOps) (io : ProgramIO W) (stores : ℕ → Prop) (base : List Entry)
    (s : VM W) (n : ℕ) : Prop where
  inside : ∀ k t, k ≤ n → s.steps P F io k = .ok (.running t) → t.pc = s.pc + k ∧ Within stores base s t
  pops : ∀ k t i, k < n → s.steps P F io k = .ok (.running t) → P.code[t.pc]? = some i →
    base.length + i.pops ≤ t.stack.length
  ends : (∃ t, s.steps P F io n = .ok (.running t) ∧ t.stack = base) ∨
    ∃ k t, k < n ∧ s.steps P F io k = .ok (.running t) ∧ P.code[t.pc]? = some .div ∧
      (t.stack.head?.map fun e => toSigned e.value) = some 0 ∧
      s.steps P F io (k + 1) = .error (.vmError "Division by zero")

theorem Contained.zero (h : s.stack = base) : Contained P F io stores base s 0 := by
  refine ⟨fun k t hk hrun => ?_, fun k t i hk => absurd hk (Nat.not_lt_zero k), .inl ⟨s, rfl, h⟩⟩
  obtain rfl := Nat.le_zero.mp hk
  cases hrun
  exact ⟨rfl, .refl (h ▸ List.suffix_refl base)⟩

/-- The first instruction faults. -/
theorem Contained.fault {n : ℕ} (hstack : s.stack = mine ++ base) (hi : P.code[s.pc]? = some .div) (hpops : 2 ≤ mine.length)
    (hzero : (s.stack.head?.map fun e => toSigned e.value) = some 0)
    (h : s.step P F io = .error (.vmError "Division by zero")) : Contained P F io stores base s (n + 1) := by
  refine ⟨fun k t hk hrun => ?_, fun k t i hk hrun hat => ?_, .inr ⟨0, s, Nat.succ_pos n, rfl, hi, hzero, steps_fault h 0⟩⟩
  · cases k with
    | zero =>
      cases hrun
      exact ⟨rfl, .refl (hstack ▸ List.suffix_append mine base)⟩
    | succ k => rw [steps_fault h k] at hrun; cases hrun
  · cases k with
    | zero =>
      cases hrun
      obtain rfl := Option.some.inj (hi.symm.trans hat)
      rw [hstack, List.length_append, Nat.add_comm]
      exact Nat.add_le_add_right hpops _
    | succ k => rw [steps_fault h k] at hrun; cases hrun

/-- The first instruction, then the others. -/
theorem Contained.succ {n : ℕ} (hstack : s.stack = mine ++ base) (hi : P.code[s.pc]? = some i) (hpops : i.pops ≤ mine.length)
    (hstep : s.step P F io = .ok (.running t)) (hpc : t.pc = s.pc + 1) (hwithin : Within stores base s t)
    (h : Contained P F io stores base t n) : Contained P F io stores base s (n + 1) := by
  refine ⟨fun k u hk hrun => ?_, fun k u j hk hrun hat => ?_, ?_⟩
  · cases k with
    | zero =>
      cases hrun
      exact ⟨rfl, .refl (hstack ▸ List.suffix_append mine base)⟩
    | succ k =>
      rw [steps_succ hstep k] at hrun
      obtain ⟨hu, hin⟩ := h.inside k u (Nat.le_of_succ_le_succ hk) hrun
      exact ⟨by omega, hwithin.trans hin⟩
  · cases k with
    | zero =>
      cases hrun
      obtain rfl := Option.some.inj (hi.symm.trans hat)
      rw [hstack, List.length_append, Nat.add_comm]
      exact Nat.add_le_add_right hpops _
    | succ k =>
      rw [steps_succ hstep k] at hrun
      exact h.pops k u j (Nat.lt_of_succ_lt_succ hk) hrun hat
  · rcases h.ends with ⟨u, hrun, hu⟩ | ⟨k, u, hk, hrun, hat, hzero, hfault⟩
    · exact .inl ⟨u, (steps_succ hstep n).trans hrun, hu⟩
    · exact .inr ⟨k + 1, u, Nat.succ_lt_succ hk, (steps_succ hstep k).trans hrun, hat, hzero,
        (steps_succ hstep (k + 1)).trans hfault⟩

end Block

section Lines

variable {layout : FunctionLayout} {pos : Pos} {visible : List (String × Symbol)}

/-- The slot of an instruction is one of the frame, and a store is to a name of its line. -/
theorem asmInstruction_op {names : List String} {raw : List Char} {words : List String} {i : Instruction} {pops pushes : ℕ}
    (hslots : ∀ sym slot, layout.slot? sym = some slot → slot.index < layout.numLocals)
    (hnames : ∀ name, words = ["store_local", name] → name ∈ names)
    (h : asmInstruction layout pos visible raw words = .ok (i, pops, pushes)) :
    AsmOp (StoredSlot layout visible names) layout.numLocals i := by
  have hslot {op name : String} {k : ℕ} (hk : asmSlot layout pos visible op name = .ok k) :
      k < layout.numLocals ∧ (name ∈ names → StoredSlot layout visible names k) := by
    unfold asmSlot at hk
    split at hk
    · cases hk
    · rename_i sym hsym
      split at hk
      · cases hk
      · rename_i slot hs
        split at hk
        · cases hk
        split at hk
        · cases hk
        cases hk
        exact ⟨hslots sym slot hs, fun hn => ⟨name, hn, sym, slot, hsym, hs, rfl⟩⟩
  unfold asmInstruction at h
  split at h
  · split at h
    · cases h
      exact .push _
    · cases h
  · obtain ⟨slot, hk, h⟩ := exceptBind_ok h
    cases h
    exact .load (hslot hk).1
  · rename_i name
    obtain ⟨slot, hk, h⟩ := exceptBind_ok h
    cases h
    exact .store (hslot hk).1 ((hslot hk).2 (hnames name rfl))
  · split at h
    · rename_i entry hentry
      cases h
      obtain ⟨l₁, l₂, hl, -⟩ := List.lookup_eq_some_iff.mp hentry
      exact .simple (hl ▸ List.mem_append_right l₁ List.mem_cons_self)
    · cases h
  · cases h

/-- The lines from one on, with the entries the block has by then. -/
theorem asmLines_contained {W : Type} {P : CompiledProgram} {F : FloatOps} {io : ProgramIO W} {names : List String}
    {live : List Symbol} {lines : List (List Char)} {code : List Site} {s : VM W} {base : List Entry}
    (mine : List Entry) (hslots : ∀ sym slot, layout.slot? sym = some slot → slot.index < layout.numLocals)
    (hnames : ∀ raw ∈ lines, ∀ name, (splitRuns isSpace (asmLine raw)).map String.ofList = ["store_local", name] → name ∈ names)
    (h : asmLines layout pos visible live mine.length lines = .ok code)
    (hat : ∀ k site, code[k]? = some site → P.code[s.pc + k]? = some site.instruction)
    (hstack : s.stack = mine ++ base) (hbase : s.frameBase ≤ base.length) (hlocals : s.locals.length = layout.numLocals) :
    Contained P F io (StoredSlot layout visible names) base s code.length := by
  induction lines generalizing s mine code with
  | nil =>
    unfold asmLines at h
    split at h
    · cases h
    · rename_i hdepth
      cases h
      obtain rfl : mine = [] := by simpa using hdepth
      exact .zero hstack
  | cons raw rest ih =>
    unfold asmLines at h
    dsimp only at h
    split at h
    · exact ih mine (fun r hr => hnames r (List.mem_cons_of_mem _ hr)) h hat hstack hbase hlocals
    obtain ⟨⟨i, pops, pushes⟩, hi, h⟩ := exceptBind_ok h
    have hop := asmInstruction_op hslots (hnames raw List.mem_cons_self) hi
    obtain ⟨hplain, rfl, rfl⟩ := asmInstruction_counts hi
    dsimp only at h
    split at h
    · cases h
    rename_i hdepth
    have hpops : i.pops ≤ mine.length := Nat.not_lt.mp hdepth
    obtain ⟨code', hrest, h⟩ := exceptBind_ok h
    cases h
    have hcode : P.code[s.pc]? = some i := hat 0 _ rfl
    have hret : i ≠ .ret := by
      rintro rfl
      cases hplain
    rw [← hlocals] at hop
    have hdone : AsmDone P F io (StoredSlot layout visible names) base mine { s with pc := s.pc + 1 } i :=
      AsmOp.done (t := { s with pc := s.pc + 1 }) hop hstack hbase hpops
    rcases hdone with
      ⟨mine', t, hexec, hpc, hstack', hlen, hwithin⟩ | ⟨rfl, hzero, hexec⟩
    · have hin : Within (StoredSlot layout visible names) base s t :=
        ⟨by rw [hwithin.rest], hwithin.stack, hwithin.size, hwithin.locals⟩
      refine Contained.succ hstack hcode hpops (step_eq hcode hret hexec) hpc hin ?_
      have hrest' : asmLines layout pos visible live mine'.length rest = .ok code' := hlen ▸ hrest
      refine ih mine' (fun r hr => hnames r (List.mem_cons_of_mem _ hr)) hrest' (fun k site hk => ?_)
        hstack' ?_ (hin.size.trans hlocals)
      · rw [hpc, Nat.add_assoc, Nat.add_comm 1 k]
        exact hat (k + 1) site hk
      · rw [hin.rest]
        exact hbase
    · exact Contained.fault hstack hcode hpops hzero (step_fault hcode hret hexec)

end Lines

section Frames

variable {W : Type} {P : CompiledProgram} {F : FloatOps} {io : ProgramIO W} {s s' : VM W}

theorem assignSlots_end {frame : List Symbol} {next i : ℕ} {sym : Symbol} {slot : LocalSlot} (hsym : frame[i]? = some sym)
    (hslot : (assignSlots next frame)[i]? = some slot) :
    slot.index + sym.type.slotWidth ≤ next + (frame.map fun sym => sym.type.slotWidth).sum := by
  induction frame generalizing next i with
  | nil => cases hsym
  | cons first frame ih =>
    rw [List.map_cons, List.sum_cons]
    cases i with
    | zero =>
      cases hsym
      cases hslot
      dsimp only
      omega
    | succ i =>
      have := ih hsym hslot
      omega

theorem slotWidth_pos (t : Ty) : 0 < t.slotWidth := by
  unfold Ty.slotWidth Ty.wordCount
  split_ifs <;> omega

/-- A slot of a frame is one of its locals. -/
theorem slot_lt {fn : TFunction} {sym : Symbol} {slot : LocalSlot} (h : (buildLayout fn).slot? sym = some slot) :
    slot.index < (buildLayout fn).numLocals := by
  unfold FunctionLayout.slot? at h
  split at h
  · rename_i hsym
    have hend := assignSlots_end hsym h
    rw [Nat.zero_add] at hend
    exact lt_of_lt_of_le (Nat.lt_add_of_pos_right (slotWidth_pos sym.type)) hend
  · cases h

/-- Each frame's base is above that of its caller. -/
def Nested : ℕ → List (ℕ × ℕ × ℕ × ℕ) → Prop
  | _, [] => True
  | base, (_, stackBase, _, _) :: callers => stackBase ≤ base ∧ Nested stackBase callers

/-- No frame's base is above the stack. -/
structure Based (s : VM W) : Prop where
  base : s.frameBase ≤ s.stack.length
  callers : Nested s.frameBase (s.callStack.map Frame.outline)

theorem Based.keep (h : Based s) (hout : s'.outline = { s.outline with pc := s'.pc }) (hlen : s.frameBase ≤ s'.stack.length) :
    Based s' := by
  have hbase : s'.frameBase = s.frameBase := congrArg Outline.frameBase hout
  have hcallers : s'.callStack.map Frame.outline = s.callStack.map Frame.outline := congrArg Outline.callers hout
  exact ⟨hbase ▸ hlen, by rw [hbase, hcallers]; exact h.callers⟩

/-- An effect leaves the entries under the base. -/
theorem Based.effect {α : Type} {m : Exec W α} {n k : ℕ} {a : α} (h : Based s) (hm : Effect m n k) (hs : m s = .ok (a, s')) :
    Based s' := by
  obtain ⟨hle, hlen, hout⟩ := hm s a s' hs
  refine h.keep (by rw [hout, show s'.pc = s.pc from congrArg Outline.pc hout]; rfl) ?_
  have := h.base
  omega

theorem Based.enter {f : ℕ} {name : String} {u : Unit} (h : Based s) (hexec : enterFunction P f name s = .ok (u, s')) : Based s' := by
  obtain ⟨fn, -, hle, hlen, -, -, hbase, -, hcallers⟩ := enterFunction_ok hexec
  have := h.base
  refine ⟨hbase.le, ?_⟩
  rw [hcallers, hbase]
  exact ⟨by omega, h.callers⟩

/-- One turn of the loop leaves no base above the stack. -/
theorem Based.step (h : Based s) (hstep : s.step P F io = .ok (.running s')) : Based s' := by
  have hnext : Based { s with pc := s.pc + 1 } := ⟨h.base, h.callers⟩
  cases hi : P.code[s.pc]? with
  | none =>
    unfold VM.step at hstep
    rw [hi] at hstep
    cases hstep
  | some i =>
    cases hc : i.isControl with
    | false =>
      have hret : i ≠ .ret := by
        rintro rfl
        cases hc
      obtain ⟨u, hexec⟩ := step_execute hi hret hstep
      exact hnext.effect (execute_effect P F io i hc) hexec
    | true =>
      cases i with
      | jmp target =>
        obtain ⟨u, hexec⟩ := step_execute hi (by simp) hstep
        cases hexec
        exact ⟨h.base, h.callers⟩
      | jz target | jnz target =>
        obtain ⟨u, hexec⟩ := step_execute hi (by simp) hstep
        obtain ⟨n, t, hpop, hexec⟩ := bind_ok.mp hexec
        have ht : Based t := hnext.effect pop_effect hpop
        split at hexec
        · cases hexec
          exact ⟨ht.base, ht.callers⟩
        · cases hexec
          exact ht
      | call f =>
        obtain ⟨u, hexec⟩ := step_execute hi (by simp) hstep
        exact hnext.enter hexec
      | callIndirect =>
        obtain ⟨u, hexec⟩ := step_execute hi (by simp) hstep
        obtain ⟨n, t, hpop, hexec⟩ := bind_ok.mp hexec
        exact (hnext.effect pop_effect hpop).enter hexec
      | ret =>
        obtain ⟨hlen, hstack, frame, frames, hcalls, hcalls', -, hbase', -, -⟩ := return_ok (step_return hi hstep)
        have hcallers := hnext.callers
        rw [hcalls] at hcallers
        rw [← hstack] at hlen
        have hle : frame.stackBase ≤ s.frameBase := hcallers.1
        refine ⟨?_, ?_⟩
        · rw [hbase', hlen]
          exact hle.trans (Nat.le_succ _)
        · rw [hbase', hcalls']
          exact hcallers.2
      | _ => cases hc

theorem Based.steps {n : ℕ} (h : Based s) (hrun : s.steps P F io n = .ok (.running s')) : Based s' := by
  induction n generalizing s with
  | zero =>
    cases hrun
    exact h
  | succ n ih =>
    unfold VM.steps at hrun
    split at hrun
    · cases hrun
    · cases hrun
    · rename_i t hstep
      exact ih (h.step hstep) hrun

theorem Based.run {args : List String} {w : W} {n : ℕ} (hrun : runMain P F io args w n = .ok (.running s)) : Based s := by
  unfold runMain at hrun
  split at hrun
  · cases hrun
  · rename_i s₀ hs₀
    obtain ⟨fn, -, -, -, hbase, -, hcalls⟩ := start_ok hs₀
    have hstart : Based s₀ := ⟨hbase ▸ Nat.zero_le _, by rw [hcalls]; trivial⟩
    exact hstart.steps hrun

end Frames

section Programs

/-- The instructions of `code` stand at `p`. -/
def CodeAt (P : CompiledProgram) (code : List Site) (p : ℕ) : Prop :=
  ∀ k site, code[k]? = some site → P.code[p + k]? = some site.instruction

theorem asmLines_instr {layout : FunctionLayout} {pos : Pos} {visible : List (String × Symbol)} {live : List Symbol} {depth : ℕ}
    {lines : List (List Char)} {code : List Site} (h : asmLines layout pos visible live depth lines = .ok code) :
    ∀ site ∈ code, ∃ i, site.emitted = .instr i := by
  induction lines generalizing depth code with
  | nil =>
    unfold asmLines at h
    split at h
    · cases h
    · cases h
      simp
  | cons raw rest ih =>
    unfold asmLines at h
    dsimp only at h
    split at h
    · exact ih h
    obtain ⟨⟨i, pops, pushes⟩, -, h⟩ := exceptBind_ok h
    dsimp only at h
    split at h
    · cases h
    obtain ⟨code', hrest, h⟩ := exceptBind_ok h
    cases h
    exact List.forall_mem_cons.mpr ⟨⟨i, rfl⟩, ih hrest⟩

/-- A statement of a function of a compiled program, and where its code is. -/
theorem compile_lowered {fuel : ℕ} {program : Program} {g : Generated} (h : compile fuel program = .ok g) {i : ℕ}
    {fn : TFunction} (hi : g.functions[i]? = some fn) {st : TStmt} (hst : st ∈ stmtsParts fn.body) :
    ∃ loop live loc p s₁ code s₂, emitStmt ⟨g.types, g.functions.map TFunction.name, buildLayout fn, fn.sig.ret⟩ loop live loc p
        st s₁ = .ok (code, s₂) ∧
      ∀ k site i, code[k]? = some site → site.emitted = .instr i → g.program.code[p + k]? = some i := by
  obtain ⟨entry, all, s₁, s₂, hc, hat, -⟩ := compile_function h hi
  obtain ⟨body, s₃, hbody, hc⟩ := bind_ok.mp hc
  obtain ⟨rfl, -⟩ := Prod.mk.inj (pure_ok.mp hc)
  obtain ⟨loop, live, loc, d, t₁, code, t₂, hcode, hin⟩ := (emitStmts_lowered fn.body hbody st hst)
  obtain ⟨-, -, -, -, -, -, -, -, hprogram, -⟩ := compile_ok h
  refine ⟨loop, live, loc, entry + d, t₁, code, t₂, hcode, fun k site instr hk hi => ?_⟩
  obtain ⟨site', hsite', hi'⟩ := hin.trans (.append_left _) k site instr hk hi
  have hs := hat _ _ hsite'
  rw [Nat.zero_add, ← Nat.add_assoc] at hs
  rw [hprogram, List.getElem?_map, hs]
  simp [Site.instruction, hi']

/-- The frame of a function is the one in force. -/
structure InFrame {W : Type} (fn : TFunction) (s : VM W) : Prop where
  locals : s.locals.length = (buildLayout fn).numLocals
  base : s.frameBase ≤ s.stack.length

theorem InFrame.of_run {fuel : ℕ} {program : Program} {g : Generated} (h : compile fuel program = .ok g) {W : Type}
    {F : FloatOps} {io : ProgramIO W} {args : List String} {w : W} {n : ℕ} {s : VM W} {fn : TFunction}
    (hrun : runMain g.program F io args w n = .ok (.running s)) (hfn : g.functions[s.currentFn]? = some fn) : InFrame fn s := by
  obtain ⟨S, hS⟩ := compile_covers h
  have htrack : OnTrack g S False s := OnTrack.run hS (fun hm => hm.elim) hrun
  obtain ⟨entry, -, -, -, -, -, hinfo⟩ := compile_function h hfn
  refine ⟨?_, (Based.run hrun).base⟩
  rw [htrack.locals, CompiledProgram.numLocals, hinfo]
  rfl

/-- Every `vm_asm` block of a program, wherever its code stands and whatever its frame holds. -/
theorem vmAsm_contained {fuel : ℕ} {program : Program} {g : Generated} (h : compile fuel program = .ok g) {i : ℕ}
    {fn : TFunction} (hi : g.functions[i]? = some fn) {pos : Pos} {text : String} {visible : List (String × Symbol)}
    (hst : .vmAsm pos text visible ∈ stmtsParts fn.body) :
    ∃ live code, emitVmAsm (buildLayout fn) pos visible live text = .ok code ∧ (∃ p, CodeAt g.program code p) ∧
      ∀ (W : Type) (F : FloatOps) (io : ProgramIO W),
        (∀ args w n s, runMain g.program F io args w n = .ok (.running s) → s.currentFn = i → InFrame fn s) ∧
        ∀ s : VM W, CodeAt g.program code s.pc → InFrame fn s →
          Contained g.program F io (StoredSlot (buildLayout fn) visible (asmStores text)) s.stack s code.length := by
  obtain ⟨loop, live, loc, p, s₁, code, s₂, hcode, hat⟩ := compile_lowered h hi hst
  simp only [emitStmt] at hcode
  obtain ⟨loc, s₃, s₄, hcode⟩ := located_ok hcode
  split at hcode
  · rename_i hasm
    cases hcode
    refine ⟨live, code, hasm, ⟨p, fun k site hk => ?_⟩, fun W F io => ⟨fun args w n s hrun hfn => ?_, fun s hs hframe => ?_⟩⟩
    · obtain ⟨instr, hinstr⟩ := asmLines_instr hasm site (List.mem_of_getElem? hk)
      rw [hat k site instr hk hinstr, Site.instruction, hinstr]
    · exact .of_run h hrun (hfn ▸ hi)
    · refine asmLines_contained [] (fun sym slot hslot => slot_lt hslot) (fun raw hraw name hline => ?_) hasm hs rfl
        hframe.base hframe.locals
      exact List.mem_filterMap.mpr ⟨raw, hraw, by simp only [hline]⟩
  · cases hcode

/-- The block of a `main` that declares a variable, has one and prints. -/
def asmBlockOf (g : Generated) : Option (TFunction × Pos × String × List (String × Symbol)) :=
  match g.functions with
  | [fn] =>
    match stmtsParts fn.body with
    | [_, .vmAsm pos text visible, _] => some (fn, pos, text, visible)
    | _ => none
  | _ => none

theorem asmBlockOf_ok {g : Generated} {fn : TFunction} {pos : Pos} {text : String} {visible : List (String × Symbol)}
    (h : asmBlockOf g = some (fn, pos, text, visible)) :
    g.functions[0]? = some fn ∧ .vmAsm pos text visible ∈ stmtsParts fn.body := by
  unfold asmBlockOf at h
  split at h
  · rename_i fn' hfns
    split at h
    · rename_i hparts
      cases h
      exact ⟨by rw [hfns]; rfl, by rw [hparts]; simp⟩
    · cases h
  · cases h

theorem asmSource_contained : ∃ g fn pos text visible, compile 1 asmSource = .ok g ∧ g.functions[0]? = some fn ∧
    .vmAsm pos text visible ∈ stmtsParts fn.body ∧
    ∃ live code, emitVmAsm (buildLayout fn) pos visible live text = .ok code ∧ (∃ p, CodeAt g.program code p) ∧
      ∀ (W : Type) (F : FloatOps) (io : ProgramIO W),
        (∀ args w n s, runMain g.program F io args w n = .ok (.running s) → s.currentFn = 0 → InFrame fn s) ∧
        ∀ s : VM W, CodeAt g.program code s.pc → InFrame fn s →
          Contained g.program F io (StoredSlot (buildLayout fn) visible (asmStores text)) s.stack s code.length := by
  have h : ((compile 1 asmSource).toOption.bind asmBlockOf).isSome = true := by decide +kernel
  cases hg : compile 1 asmSource with
  | error e =>
    rw [hg] at h
    cases h
  | ok g =>
    rw [hg] at h
    obtain ⟨⟨fn, pos, text, visible⟩, hblock⟩ := Option.isSome_iff_exists.mp h
    obtain ⟨hfn, hst⟩ := asmBlockOf_ok hblock
    exact ⟨g, fn, pos, text, visible, rfl, hfn, hst, vmAsm_contained hg hfn hst⟩

end Programs

end QuinLang
