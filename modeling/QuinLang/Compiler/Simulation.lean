import QuinLang.Compiler.Evaluation
import QuinLang.Compiler.Calling
import QuinLang.Compiler.StackRuns
import QuinLang.Runtime.Words

/-! The machine beside the evaluation of words: where a frame holds the variables and an
instruction stands in the code, running it does what the evaluation says. -/

namespace QuinLang

open StateExcept Following

/-- A word as the operand stack has it. -/
def entry (v : Word) : Entry := ⟨v.toNat, false⟩

def UnaryOp.instruction : UnaryOp → Instruction
  | .neg => .neg
  | .not => .not
  | .bitnot => .bitnot

theorem wordOfInt_bool (b : Bool) : wordOfInt (if b then 1 else 0) = (boolWord b).toNat := by
  cases b <;> rfl

theorem wordOfInt_isZero (a : Word) : wordOfInt (if a.toNat = 0 then 1 else 0) = (boolWord (a == 0)).toNat := by
  rw [← wordOfInt_bool]
  congr 1
  simp [BitVec.toNat_eq]

/-- A shift count in range is the word itself. -/
theorem toInt_shift {b : Word} (h : ¬(b.toInt < 0 ∨ b.toInt > 15)) : b.toInt.toNat = b.toNat := by
  have hb := b.isLt
  rw [BitVec.toInt_eq_toNat_cond] at h ⊢
  split_ifs at h ⊢ <;> omega

theorem toInt_eq_zero (b : Word) : b.toInt = 0 ↔ b = 0 := by
  rw [show (0 : ℤ) = (0 : Word).toInt from rfl, BitVec.toInt_inj]

/-- The slots of a frame hold what is in its variables. -/
structure Holds (fn : TFunction) (vars : ℕ → List Word) (locals : List ℕ) : Prop where
  length : locals.length = (buildLayout fn).numLocals
  width : ∀ (i : ℕ) (sym : Symbol), fn.frame[i]? = some sym → (vars i).length = sym.type.slotWidth
  value : ∀ (i : ℕ) (slot : LocalSlot), (buildLayout fn).slots[i]? = some slot → ∀ (k : ℕ) (v : Word), (vars i)[k]? = some v →
    locals[slot.index + k]? = some v.toNat

section Frames

variable {fn : TFunction} {vars : ℕ → List Word} {locals : List ℕ} {sym : Symbol} {slot : LocalSlot} {k : ℕ}

theorem slot?_ok (h : (buildLayout fn).slot? sym = some slot) :
    fn.frame[sym.index]? = some sym ∧ (buildLayout fn).slots[sym.index]? = some slot ∧ slot.length = sym.type.arrayLength := by
  unfold FunctionLayout.slot? at h
  split at h
  · next hsym =>
    refine ⟨hsym, h, ?_⟩
    have hslot : (assignSlots 0 fn.frame)[sym.index]? = some slot := h
    rw [assignSlots_index (show fn.frame[sym.index]? = some sym from hsym)] at hslot
    cases hslot
    rfl
  · cases h

theorem length_assignSlots (next : ℕ) (frame : List Symbol) : (assignSlots next frame).length = frame.length := by
  induction frame generalizing next with
  | nil => rfl
  | cons sym frame ih => rw [assignSlots, List.length_cons, List.length_cons, ih]

theorem exists_symbol {i : ℕ} (h : (buildLayout fn).slots[i]? = some slot) : ∃ sym, fn.frame[i]? = some sym := by
  have hlt : i < (assignSlots 0 fn.frame).length := (List.getElem?_eq_some_iff.mp h).1
  rw [length_assignSlots] at hlt
  exact ⟨_, List.getElem?_eq_getElem hlt⟩

namespace Holds

theorem getElem? (h : Holds fn vars locals) (hslot : (buildLayout fn).slot? sym = some slot) (hk : k < sym.type.slotWidth) :
    locals[slot.index + k]? = some ((vars sym.index).getD k 0).toNat := by
  obtain ⟨hsym, hat, -⟩ := slot?_ok hslot
  have hlt : k < (vars sym.index).length := by rwa [h.width _ _ hsym]
  refine h.value _ _ hat k _ ?_
  rw [List.getD_eq_getElem _ _ hlt, List.getElem?_eq_getElem hlt]

theorem write (h : Holds fn vars locals) (hslot : (buildLayout fn).slot? sym = some slot) (hk : k < sym.type.slotWidth) (v : Word) :
    Holds fn (Function.update vars sym.index ((vars sym.index).set k v)) (locals.set (slot.index + k) v.toNat) := by
  obtain ⟨hsym, hat, -⟩ := slot?_ok hslot
  refine ⟨by rw [List.length_set, h.length], fun i s hs => ?_, fun i slot' hslot' k' v' hv => ?_⟩
  · by_cases hi : i = sym.index
    · subst hi
      rw [Function.update_self, List.length_set, h.width _ _ hs]
    · rw [Function.update_of_ne hi, h.width _ _ hs]
  · by_cases hi : i = sym.index
    · subst hi
      rw [hat] at hslot'
      cases hslot'
      rw [Function.update_self, List.getElem?_set] at hv
      split at hv
      · next hkk =>
        subst hkk
        split at hv
        · cases hv
          rw [List.getElem?_set_self (List.getElem?_eq_some_iff.mp (h.getElem? hslot hk)).1]
        · cases hv
      · next hkk =>
        rw [List.getElem?_set_ne (by omega)]
        exact h.value _ _ hat k' v' hv
    · rw [Function.update_of_ne hi] at hv
      obtain ⟨sym', hsym'⟩ := exists_symbol hslot'
      have hk' : k' < sym'.type.slotWidth := by
        rw [← h.width _ _ hsym']
        exact (List.getElem?_eq_some_iff.mp hv).1
      have hapart : slot.index + k ≠ slot'.index + k' := by
        obtain hlt | hgt := lt_or_gt_of_ne hi
        · have := assignSlots_lt hlt hsym' hsym hslot' hat
          omega
        · have := assignSlots_lt hgt hsym hsym' hat hslot'
          omega
      rw [List.getElem?_set_ne hapart]
      exact h.value _ _ hslot' k' v' hv

end Holds

end Frames

theorem lt_slotWidth {t : Ty} {k : ℕ} (h : k < t.arrayLength) : k < t.slotWidth := by
  rw [Ty.slotWidth, if_pos (by omega)]
  exact h

/-- The slot of a word is none of the collector's. -/
theorem refSlotsOf_word {P : CompiledProgram} {fn : TFunction} {f entryPc : ℕ} {sym : Symbol} {slot : LocalSlot}
    (hfn : P.functions[f]? = some ((buildLayout fn).info entryPc)) (hslot : (buildLayout fn).slot? sym = some slot)
    (hword : sym.type.isWord = true) : (refSlotsOf P f).contains slot.index = false := by
  obtain ⟨hsym, hat, -⟩ := slot?_ok hslot
  have href : sym.type.isReference = false := by
    cases ht : sym.type with
    | scalar s => cases s <;> simp_all [Ty.isWord, Ty.isReference]
    | _ => simp_all [Ty.isWord, Ty.isReference]
  have hmem := (mem_refSlots_iff hsym hat (slotWidth_pos sym.type) fun _ => rfl).not.mpr (by rw [href]; exact Bool.false_ne_true)
  rw [Nat.add_zero] at hmem
  unfold refSlotsOf
  rw [hfn]
  simpa [FunctionLayout.info] using hmem

section Machine

variable {W : Type}

/-- The state of the machine apart from what running the code of a function changes. -/
def VM.at (base : VM W) (pc : ℕ) (stack : List Entry) (locals : List ℕ) (w : W) : VM W :=
  { base with pc := pc, stack := stack, locals := locals, io := w }

variable (P : CompiledProgram) (F : FloatOps) (io : ProgramIO W)

def Next (s t : VM W) : Prop := s.step P F io = .ok (.running t)

def Fails (s : VM W) (e : Fault) : Prop := s.step P F io = .error e

/-- Control is at a place, the stack as given and the frame holding the variables. -/
def Stands {α : Type} (fn : TFunction) (base : VM W) (land : α → ℕ → Prop) (left : α → List Entry) (r : α × Env W)
    (t : VM W) : Prop :=
  ∃ p locals, land r.1 p ∧ t = base.at p (left r.1) locals r.2.io ∧ Holds fn r.2.vars locals

/-- From `pc`, with `σ` on the stack, the machine does the computation, ending where `land` says
with the stack of `left`. -/
def Does {α : Type} (fn : TFunction) (base : VM W) (n pc : ℕ) (σ : List Entry) (m : Eval W α) (land : α → ℕ → Prop)
    (left : α → List Entry) : Prop :=
  ∀ env locals, Holds fn env.vars locals →
    Tracks (Next P F io) (Fails P F io) n (base.at pc σ locals env.io) (Stands fn base land left) (m env)

variable {P F io} {fn : TFunction} {base : VM W} {n pc q : ℕ} {σ τ : List Entry} {α β : Type} {m : Eval W α}
  {land : α → ℕ → Prop} {left : α → List Entry} {i : Instruction} {locals : List ℕ} {w : W}

theorem next_at (hi : P.code[pc]? = some i) (hne : i ≠ .ret) {t : VM W}
    (h : execute P F io i (base.at (pc + 1) σ locals w) = .ok ((), t)) : Next P F io (base.at pc σ locals w) t :=
  step_eq hi hne h

theorem fails_at (hi : P.code[pc]? = some i) (hne : i ≠ .ret) {e : Fault}
    (h : execute P F io i (base.at (pc + 1) σ locals w) = .error e) : Fails P F io (base.at pc σ locals w) e :=
  step_fault hi hne h

theorem pop_at (v : Word) (hσ : base.frameBase ≤ σ.length) :
    pop (base.at pc (entry v :: σ) locals w) = .ok (v.toNat, base.at pc σ locals w) :=
  pop_eq (s := base.at pc (entry v :: σ) locals w) rfl hσ

theorem popSigned_at (v : Word) (hσ : base.frameBase ≤ σ.length) :
    popSigned (base.at pc (entry v :: σ) locals w) = .ok (v.toInt, base.at pc σ locals w) := by
  rw [← toSigned_toNat]
  exact popSigned_eq (s := base.at pc (entry v :: σ) locals w) rfl hσ

namespace Does

theorem bind {f : α → Eval W β} {land' : β → ℕ → Prop} {left' : β → List Entry} (h : Does P F io fn base n pc σ m land left)
    (hf : ∀ a p, land a p → Does P F io fn base n p (left a) (f a) land' left') :
    Does P F io fn base n pc σ (m >>= f) land' left' := by
  intro env locals hholds
  refine Tracks.bind (h env locals hholds) fun r t ht => ?_
  obtain ⟨p, locals', hp, rfl, hholds'⟩ := ht
  exact hf r.1 p hp r.2 locals' hholds'

/-- A computation that ends at one place. -/
theorem andThen {f : α → Eval W β} {land' : β → ℕ → Prop} {left' : β → List Entry}
    (h : Does P F io fn base n pc σ m (fun _ p => p = q) left)
    (hf : ∀ a, Does P F io fn base n q (left a) (f a) land' left') : Does P F io fn base n pc σ (m >>= f) land' left' :=
  h.bind fun a _ hp => hp ▸ hf a

theorem pure {a : α} (hland : land a pc) (hleft : left a = σ) : Does P F io fn base n pc σ (Pure.pure a) land left :=
  fun env locals hholds => .returns ⟨pc, locals, hland, by rw [hleft], hholds⟩

theorem outside : Does P F io fn base n pc σ (QuinLang.outside : Eval W α) land left := fun _ _ _ => trivial

theorem mono {k : ℕ} (h : Does P F io fn base n pc σ m land left) (hk : k ≤ n) : Does P F io fn base k pc σ m land left :=
  fun env locals hholds => (h env locals hholds).mono hk

theorem weaken {land' : α → ℕ → Prop} (h : Does P F io fn base n pc σ m land left) (hland : ∀ a p, land a p → land' a p) :
    Does P F io fn base n pc σ m land' left := by
  refine fun env locals hholds => (h env locals hholds).weaken ?_
  rintro r t ⟨p, locals', hp, rfl, hholds'⟩
  exact ⟨p, locals', hland _ _ hp, rfl, hholds'⟩

/-- A computation with a known result, before something else. -/
theorem thenWord {a : α} {m' : Eval W β} {land' : β → ℕ → Prop} {left' : β → List Entry}
    (h : Does P F io fn base n pc σ (Pure.pure a) (fun _ p => p = q) left)
    (hm : Does P F io fn base n q (left a) m' land' left') : Does P F io fn base n pc σ m' land' left' := by
  intro env locals hholds
  obtain ⟨k, t, hreach, p, locals', rfl, rfl, hholds'⟩ := h env locals hholds
  exact ((hm env locals' hholds').after hreach).mono (Nat.le_add_right n k)

/-- A step that leaves the variables alone. -/
theorem step (hi : P.code[pc]? = some i) (hne : i ≠ .ret)
    (hexec : ∀ locals w, execute P F io i (base.at (pc + 1) σ locals w) = .ok ((), base.at q τ locals w))
    (hm : Does P F io fn base n q τ m land left) : Does P F io fn base (n + 1) pc σ m land left :=
  fun env locals hholds => (hm env locals hholds).step (next_at hi hne (hexec locals env.io))

theorem jmp (hi : P.code[pc]? = some (.jmp q)) (hm : Does P F io fn base n q σ m land left) :
    Does P F io fn base (n + 1) pc σ m land left := step hi (by simp) (fun _ _ => rfl) hm

theorem popWord {v : Word} (hσ : base.frameBase ≤ σ.length) (hi : P.code[pc]? = some .pop)
    (hm : Does P F io fn base n (pc + 1) σ m land left) : Does P F io fn base n pc (entry v :: σ) m land left :=
  (step hi (by simp) (fun _ _ => bind_eq (pop_at v hσ)) hm).mono (Nat.le_succ n)

theorem dup {v : Word} (hσ : base.frameBase ≤ σ.length) (hi : P.code[pc]? = some .dup)
    (hm : Does P F io fn base n (pc + 1) (entry v :: entry v :: σ) m land left) :
    Does P F io fn base n pc (entry v :: σ) m land left := by
  refine (step hi (by simp) (fun locals w => ?_) hm).mono (Nat.le_succ n)
  have hpeek : peek "DUP" (base.at (pc + 1) (entry v :: σ) locals w) =
      .ok (entry v, base.at (pc + 1) (entry v :: σ) locals w) := if_pos hσ
  exact bind_eq hpeek

theorem swap {a b : Word} (hσ : base.frameBase ≤ σ.length) (hi : P.code[pc]? = some .swap)
    (hm : Does P F io fn base n (pc + 1) (entry a :: entry b :: σ) m land left) :
    Does P F io fn base n pc (entry b :: entry a :: σ) m land left := by
  refine (step hi (by simp) (fun locals w => ?_) hm).mono (Nat.le_succ n)
  refine (bind_eq (popTagged_eq (s := base.at (pc + 1) (entry b :: entry a :: σ) locals w) rfl (Nat.le_succ_of_le hσ))).trans ?_
  exact bind_eq (popTagged_eq (s := base.at (pc + 1) (entry a :: σ) locals w) rfl hσ)

/-- A jump taken on zero, or on anything but zero. -/
theorem branch_succ {v : Word} {onZero onOther : ℕ} (hσ : base.frameBase ≤ σ.length)
    (hi : P.code[pc]? = some (.jz onZero) ∧ onOther = pc + 1 ∨ P.code[pc]? = some (.jnz onOther) ∧ onZero = pc + 1)
    (hm : Does P F io fn base n (if v = 0 then onZero else onOther) σ m land left) :
    Does P F io fn base (n + 1) pc (entry v :: σ) m land left := by
  have hzero : v.toNat = 0 ↔ v = 0 := by simp [BitVec.toNat_eq]
  rcases hi with ⟨hi, rfl⟩ | ⟨hi, rfl⟩
  · refine step hi (by simp) (fun locals w => (bind_eq (pop_at v hσ)).trans ?_) hm
    simp only [hzero]
    split_ifs <;> rfl
  · refine step hi (by simp) (fun locals w => (bind_eq (pop_at v hσ)).trans ?_) hm
    simp only [ne_eq, hzero]
    split_ifs <;> rfl

theorem branch {v : Word} {onZero onOther : ℕ} (hσ : base.frameBase ≤ σ.length)
    (hi : P.code[pc]? = some (.jz onZero) ∧ onOther = pc + 1 ∨ P.code[pc]? = some (.jnz onOther) ∧ onZero = pc + 1)
    (hm : Does P F io fn base n (if v = 0 then onZero else onOther) σ m land left) :
    Does P F io fn base n pc (entry v :: σ) m land left := (branch_succ hσ hi hm).mono (Nat.le_succ n)

/-- An instruction that does the computation. -/
theorem instr (hi : P.code[pc]? = some i) (hne : i ≠ .ret) {a : α} {left : α → List Entry} {env env' : Env W} {locals locals' : List ℕ}
    (hexec : execute P F io i (base.at (pc + 1) σ locals env.io) = .ok ((), base.at (pc + 1) (left a) locals' env'.io))
    (hholds : Holds fn env'.vars locals') : Tracks (Next P F io) (Fails P F io) n (base.at pc σ locals env.io)
      (Stands fn base (fun _ p => p = pc + 1) left) (.ok (a, env')) :=
  ((Tracks.returns ⟨pc + 1, locals', rfl, rfl, hholds⟩).step (next_at hi hne hexec)).mono (Nat.le_succ n)

/-- An instruction that puts a known word in the place of what it takes. -/
theorem leaves (hi : P.code[pc]? = some i) (hne : i ≠ .ret) {v : Word}
    (hexec : ∀ locals w, execute P F io i (base.at (pc + 1) σ locals w) = .ok ((), base.at (pc + 1) (entry v :: τ) locals w)) :
    Does P F io fn base n pc σ (Pure.pure v) (fun _ p => p = pc + 1) fun v => entry v :: τ :=
  fun env locals hholds => instr hi hne (hexec locals env.io) hholds

/-- An instruction that fails. -/
theorem fails (hi : P.code[pc]? = some i) (hne : i ≠ .ret) {message : String}
    (hexec : ∀ locals w, execute P F io i (base.at (pc + 1) σ locals w) = .error (.vmError message)) :
    Does P F io fn base n pc σ (abort message) land left :=
  fun env locals _ => .fault (fails_at hi hne (hexec locals env.io))

/-- An instruction that fails where it should and puts a word otherwise. -/
theorem checked {c : Prop} [Decidable c] {message : String} {v : Word} (hi : P.code[pc]? = some i) (hne : i ≠ .ret)
    (hexec : ∀ locals w, execute P F io i (base.at (pc + 1) σ locals w) =
      if c then .error (.vmError message) else .ok ((), base.at (pc + 1) (entry v :: τ) locals w)) :
    Does P F io fn base n pc σ (if c then abort message else Pure.pure v) (fun _ p => p = pc + 1) fun v => entry v :: τ := by
  by_cases hc : c
  · rw [if_pos hc]
    exact fails hi hne fun locals w => (hexec locals w).trans (if_pos hc)
  · rw [if_neg hc]
    exact leaves hi hne fun locals w => (hexec locals w).trans (if_neg hc)

theorem pushInt {k : ℕ} {v : Word} (hi : P.code[pc]? = some (.pushInt k)) (hv : wordOfInt k = v.toNat) :
    Does P F io fn base n pc σ (Pure.pure v) (fun _ p => p = pc + 1) fun v => entry v :: σ :=
  leaves hi (by simp) fun locals w => by
    rw [entry, ← hv]
    rfl

/-- The same, before something else. -/
theorem const {k : ℕ} {v : Word} (hi : P.code[pc]? = some (.pushInt k)) (hv : wordOfInt k = v.toNat)
    (hm : Does P F io fn base n (pc + 1) (entry v :: σ) m land left) : Does P F io fn base n pc σ m land left := by
  refine (step hi (by simp) (fun locals w => ?_) hm).mono (Nat.le_succ n)
  rw [entry, ← hv]
  rfl

section Operations

variable {a b : Word} (hσ : base.frameBase ≤ σ.length)

include hσ in
theorem unary (o : UnaryOp) (hi : P.code[pc]? = some o.instruction) :
    Does P F io fn base n pc (entry a :: σ) (Pure.pure (unaryWord o a)) (fun _ p => p = pc + 1) fun v => entry v :: σ := by
  have hunary (f : ℕ → ℤ) (locals : List ℕ) (w : W) :=
    unary_eq (s := base.at (pc + 1) (entry a :: σ) locals w) f rfl hσ
  cases o with
  | neg =>
    refine leaves hi (by simp [UnaryOp.instruction]) fun locals w => ?_
    refine (hunary (fun v => -(v : ℤ)) locals w).trans ?_
    rw [show wordOfInt (-((entry a).value : ℤ)) = (-a).toNat from wordOfInt_neg a]
    rfl
  | not =>
    refine leaves hi (by simp [UnaryOp.instruction]) fun locals w => ?_
    refine (hunary (fun v => if v = 0 then 1 else 0) locals w).trans ?_
    rw [show wordOfInt (if (entry a).value = 0 then 1 else 0) = (boolWord (a == 0)).toNat from wordOfInt_isZero a]
    rfl
  | bitnot =>
    refine leaves hi (by simp [UnaryOp.instruction]) fun locals w => ?_
    refine (hunary (fun v => -(v : ℤ) - 1) locals w).trans ?_
    rw [show wordOfInt (-((entry a).value : ℤ) - 1) = (~~~a).toNat from wordOfInt_not a]
    rfl

include hσ in
theorem shiftLeft_at (p : ℕ) (locals : List ℕ) (w : W) : shiftLeft (base.at p (entry b :: entry a :: σ) locals w) =
    if b.toInt < 0 ∨ b.toInt > 15 then .error (.vmError s!"Shift count out of range for SHL: {b.toInt}")
    else .ok ((), base.at p (entry (a <<< b.toNat) :: σ) locals w) := by
  unfold shiftLeft
  rw [bind_eq (popSigned_at b (Nat.le_succ_of_le hσ)), bind_eq (pop_at a hσ)]
  split_ifs with hc
  · rfl
  · have hcount := toInt_shift hc
    change Except.ok ((), base.at p (⟨wordOfInt ((a.toNat : ℤ) * 2 ^ b.toInt.toNat), false⟩ :: σ) locals w) = _
    rw [hcount, wordOfInt_shiftLeft]
    rfl

include hσ in
theorem shiftRight_at (p : ℕ) (locals : List ℕ) (w : W) : shiftRight (base.at p (entry b :: entry a :: σ) locals w) =
    if b.toInt < 0 ∨ b.toInt > 15 then .error (.vmError s!"Shift count out of range for SHR: {b.toInt}")
    else .ok ((), base.at p (entry (a.sshiftRight b.toNat) :: σ) locals w) := by
  unfold shiftRight
  rw [bind_eq (popSigned_at b (Nat.le_succ_of_le hσ)), bind_eq (popSigned_at a hσ)]
  split_ifs with hc
  · rfl
  · have hcount := toInt_shift hc
    change Except.ok ((), base.at p (⟨wordOfInt (a.toInt / 2 ^ b.toInt.toNat), false⟩ :: σ) locals w) = _
    rw [hcount, wordOfInt_shiftRight]
    rfl

end Operations

/-- The two operands of an operation on words. -/
theorem binary {a b : Word} {o : BinaryOp} (hσ : base.frameBase ≤ σ.length) (ho : o ≠ .land) (ho' : o ≠ .lor)
    (hi : P.code[pc]? = some (binaryOp o)) :
    Does P F io fn base n pc (entry b :: entry a :: σ) (binaryWord o a b) (fun _ p => p = pc + 1) fun v => entry v :: σ := by
  have ha : toSigned (entry a).value = a.toInt := toSigned_toNat a
  have hb : toSigned (entry b).value = b.toInt := toSigned_toNat b
  have htagged (f : ℤ → ℤ → ℤ) (locals : List ℕ) (w : W) :=
    taggedBinary_eq (s := base.at (pc + 1) (entry b :: entry a :: σ) locals w) f rfl hσ
  have hplain (f : ℕ → ℕ → ℤ) (locals : List ℕ) (w : W) :=
    plainBinary_eq (s := base.at (pc + 1) (entry b :: entry a :: σ) locals w) f rfl hσ
  have hdivide (message : String) (f : ℤ → ℤ → ℤ) (locals : List ℕ) (w : W) :=
    divide_eq (s := base.at (pc + 1) (entry b :: entry a :: σ) locals w) message f rfl hσ
  have hcompare (f : ℤ → ℤ → Bool) (c : Bool) (hc : f a.toInt b.toInt = c) (locals : List ℕ) (w : W) :
      compare f (base.at (pc + 1) (entry b :: entry a :: σ) locals w) =
        .ok ((), base.at (pc + 1) (entry (boolWord c) :: σ) locals w) := by
    refine (compare_eq (s := base.at (pc + 1) (entry b :: entry a :: σ) locals w) f rfl hσ).trans ?_
    rw [ha, hb, hc, wordOfInt_bool]
    rfl
  cases o with
  | add =>
    refine leaves hi (by simp [binaryOp]) fun locals w => (htagged (· + ·) locals w).trans ?_
    rw [show wordOfInt ((entry a).value + (entry b).value) = (a + b).toNat from wordOfInt_add a b]
    rfl
  | sub =>
    refine leaves hi (by simp [binaryOp]) fun locals w => (htagged (· - ·) locals w).trans ?_
    rw [show wordOfInt ((entry a).value - (entry b).value) = (a - b).toNat from wordOfInt_sub a b]
    rfl
  | mul =>
    refine leaves hi (by simp [binaryOp]) fun locals w => (hplain (fun a b => a * b) locals w).trans ?_
    rw [show wordOfInt ((entry a).value * (entry b).value) = (a * b).toNat from wordOfInt_mul a b]
    rfl
  | xor =>
    refine leaves hi (by simp [binaryOp]) fun locals w => (hplain (fun a b => (a ^^^ b : ℕ)) locals w).trans ?_
    rw [show wordOfInt ((entry a).value ^^^ (entry b).value : ℕ) = (a ^^^ b).toNat from
      wordOfInt_natCast a b (· ^^^ ·) (· ^^^ ·) (BitVec.toNat_xor a b)]
    rfl
  | and =>
    refine leaves hi (by simp [binaryOp]) fun locals w => (hplain (fun a b => (a &&& b : ℕ)) locals w).trans ?_
    rw [show wordOfInt ((entry a).value &&& (entry b).value : ℕ) = (a &&& b).toNat from
      wordOfInt_natCast a b (· &&& ·) (· &&& ·) (BitVec.toNat_and a b)]
    rfl
  | or =>
    refine leaves hi (by simp [binaryOp]) fun locals w => (hplain (fun a b => (a ||| b : ℕ)) locals w).trans ?_
    rw [show wordOfInt ((entry a).value ||| (entry b).value : ℕ) = (a ||| b).toNat from
      wordOfInt_natCast a b (· ||| ·) (· ||| ·) (BitVec.toNat_or a b)]
    rfl
  | div =>
    refine checked hi (by simp [binaryOp]) fun locals w => (hdivide "Division by zero" truncDiv locals w).trans ?_
    rw [ha, hb, wordOfInt_div]
    simp only [toInt_eq_zero]
    rfl
  | mod =>
    refine checked hi (by simp [binaryOp]) fun locals w =>
      (hdivide "Modulo by zero" (fun a b => a - truncDiv a b * b) locals w).trans ?_
    rw [ha, hb, wordOfInt_mod]
    simp only [toInt_eq_zero]
    rfl
  | shl => exact checked hi (by simp [binaryOp]) (shiftLeft_at hσ (pc + 1))
  | shr => exact checked hi (by simp [binaryOp]) (shiftRight_at hσ (pc + 1))
  | eq =>
    refine leaves hi (by simp [binaryOp]) (hcompare (fun a b => a == b) _ ?_)
    simp [BitVec.toInt_inj]
  | ne =>
    refine leaves hi (by simp [binaryOp]) (hcompare (fun a b => a != b) _ ?_)
    simp [bne, BitVec.toInt_inj]
  | lt => exact leaves hi (by simp [binaryOp]) (hcompare (fun a b => a < b) _ rfl)
  | le => exact leaves hi (by simp [binaryOp]) (hcompare (fun a b => a ≤ b) _ rfl)
  | gt => exact leaves hi (by simp [binaryOp]) (hcompare (fun a b => a > b) _ rfl)
  | ge => exact leaves hi (by simp [binaryOp]) (hcompare (fun a b => a ≥ b) _ rfl)
  | land => exact absurd rfl ho
  | lor => exact absurd rfl ho'

/-! The variables of the frame. -/

section Variables

variable {sym : Symbol} {slot : LocalSlot} {k : ℕ} {v : Word}

theorem getLocal_at (hholds : Holds fn vars locals) (hslot : (buildLayout fn).slot? sym = some slot) (hk : k < sym.type.slotWidth) :
    getLocal ((slot.index + k : ℕ) : ℤ) (base.at pc σ locals w) =
      .ok (((vars sym.index).getD k 0).toNat, base.at pc σ locals w) :=
  getLocal_of_getElem? (t := base.at pc σ locals w) (hholds.getElem? hslot hk)

theorem setLocal_at (hholds : Holds fn vars locals) (hslot : (buildLayout fn).slot? sym = some slot) (hk : k < sym.type.slotWidth) :
    setLocal ((slot.index + k : ℕ) : ℤ) v.toNat (base.at pc σ locals w) =
      .ok ((), base.at pc σ (locals.set (slot.index + k) v.toNat) w) := by
  refine (setLocal_eq (s := base.at pc σ locals w) (List.getElem?_eq_some_iff.mp (hholds.getElem? hslot hk)).1).trans ?_
  rw [word_of_lt v.isLt]
  rfl

theorem load {entryPc : ℕ} (hi : P.code[pc]? = some (.loadLocal slot.index)) (hslot : (buildLayout fn).slot? sym = some slot)
    (hfn : P.functions[base.currentFn]? = some ((buildLayout fn).info entryPc)) (hword : sym.type.isWord = true) :
    Does P F io fn base n pc σ (readVar sym 0) (fun _ p => p = pc + 1) fun v => entry v :: σ := by
  intro env locals hholds
  refine instr hi (by simp) (a := (env.vars sym.index).getD 0 0) ?_ hholds
  have hget : getLocal ((slot.index + 0 : ℕ) : ℤ) (base.at (pc + 1) σ locals env.io) = _ :=
    getLocal_at hholds hslot (slotWidth_pos sym.type)
  rw [Nat.add_zero] at hget
  refine (bind_eq hget).trans ?_
  change Except.ok ((), (base.at (pc + 1) (⟨wordOfInt _, (refSlotsOf P base.currentFn).contains slot.index⟩ :: σ) locals env.io)) = _
  rw [wordOfInt_toNat, refSlotsOf_word hfn hslot hword]
  rfl

theorem store (hσ : base.frameBase ≤ σ.length) (hi : P.code[pc]? = some (.storeLocal (slot.index + k)))
    (hslot : (buildLayout fn).slot? sym = some slot) (hk : k < sym.type.slotWidth) :
    Does P F io fn base n pc (entry v :: σ) (writeVar sym k v) (fun _ p => p = pc + 1) fun _ => σ := by
  intro env locals hholds
  refine instr hi (by simp) (a := ()) ?_ (hholds.write hslot hk v)
  exact (bind_eq (pop_at v hσ)).trans (setLocal_at hholds hslot hk)

/-- An index is checked and left where it is. -/
theorem boundsCheck {index : Word} (hσ : base.frameBase ≤ σ.length) (hi : P.code[pc]? = some (.boundsCheck slot.length))
    (hslot : (buildLayout fn).slot? sym = some slot) :
    Does P F io fn base n pc (entry index :: σ) (element sym index)
      (fun k p => p = pc + 1 ∧ index.toInt = k ∧ k < sym.type.arrayLength) fun _ => entry index :: σ := by
  intro env locals hholds
  obtain ⟨-, -, hlength⟩ := slot?_ok hslot
  have hpeek : peek "BOUNDS_CHECK" (base.at (pc + 1) (entry index :: σ) locals env.io) =
      .ok (entry index, base.at (pc + 1) (entry index :: σ) locals env.io) := if_pos hσ
  have hexec : execute P F io (.boundsCheck slot.length) (base.at (pc + 1) (entry index :: σ) locals env.io) =
      if index.toInt < 0 ∨ index.toInt ≥ sym.type.arrayLength then
        .error (.vmError s!"Array index out of bounds: index={index.toInt}, length={sym.type.arrayLength}")
      else .ok ((), base.at (pc + 1) (entry index :: σ) locals env.io) := by
    refine (bind_eq hpeek).trans ?_
    rw [show toSigned (entry index).value = index.toInt from toSigned_toNat index, hlength]
    split_ifs <;> rfl
  unfold element
  split_ifs at hexec ⊢ with hc
  · exact .fault (fails_at hi (by simp) hexec)
  · have hnat : index.toInt = index.toNat := by
      rw [BitVec.toInt_eq_toNat_cond] at hc ⊢
      split_ifs at hc ⊢ <;> omega
    refine Tracks.mono (Tracks.step (next_at hi (by simp) hexec) (.returns ?_)) (Nat.le_succ n)
    exact ⟨pc + 1, locals, ⟨rfl, hnat, by dsimp only; omega⟩, rfl, hholds⟩

theorem loadIdx {index : Word} (hσ : base.frameBase ≤ σ.length) (hi : P.code[pc]? = some (.loadLocalIdx slot.index))
    (hslot : (buildLayout fn).slot? sym = some slot) (hindex : index.toInt = k) (hk : k < sym.type.arrayLength) :
    Does P F io fn base n pc (entry index :: σ) (readVar sym k) (fun _ p => p = pc + 1) fun v => entry v :: σ := by
  intro env locals hholds
  refine instr hi (by simp) (a := (env.vars sym.index).getD k 0) ?_ hholds
  refine (bind_eq (popSigned_at index hσ)).trans ?_
  rw [hindex, show (slot.index : ℤ) + k = ((slot.index + k : ℕ) : ℤ) from rfl]
  refine (bind_eq (getLocal_at hholds hslot (lt_slotWidth hk))).trans ?_
  change Except.ok ((), (base.at (pc + 1) (⟨wordOfInt _, false⟩ :: σ) locals env.io)) = _
  rw [wordOfInt_toNat]
  rfl

theorem storeIdx {index : Word} (hσ : base.frameBase ≤ σ.length) (hi : P.code[pc]? = some (.storeLocalIdx slot.index))
    (hslot : (buildLayout fn).slot? sym = some slot) (hindex : index.toInt = k) (hk : k < sym.type.arrayLength) :
    Does P F io fn base n pc (entry index :: entry v :: σ) (writeVar sym k v) (fun _ p => p = pc + 1) fun _ => σ := by
  intro env locals hholds
  refine instr hi (by simp) (a := ()) ?_ (hholds.write hslot (lt_slotWidth hk) v)
  refine (bind_eq (popSigned_at index (Nat.le_succ_of_le hσ))).trans ((bind_eq (pop_at v hσ)).trans ?_)
  rw [hindex, show (slot.index : ℤ) + k = ((slot.index + k : ℕ) : ℤ) from rfl]
  exact setLocal_at hholds hslot (lt_slotWidth hk)

end Variables

end Does

end Machine

end QuinLang
