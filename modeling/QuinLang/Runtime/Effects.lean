import QuinLang.Debugger.Transparency
import QuinLang.Compiler.StackFlow

/-! What each instruction does to the operand stack and the frames: it takes its
operands from above the base of its frame and leaves its results there. -/

namespace QuinLang

open StateExcept Debugger

/-- What only calls, returns and jumps change, whatever a collection does to references. -/
structure Outline where
  pc : ℕ
  currentFn : ℕ
  frameBase : ℕ
  numLocals : ℕ
  callers : List (ℕ × ℕ × ℕ × ℕ)

section Collector

variable {W : Type} {P : CompiledProgram}

def Frame.outline (f : Frame) : ℕ × ℕ × ℕ × ℕ := (f.returnPc, f.stackBase, f.fnIndex, f.locals.length)

def VM.outline (s : VM W) : Outline :=
  ⟨s.pc, s.currentFn, s.frameBase, s.locals.length, s.callStack.map Frame.outline⟩

/-- The frames and the height of the stack are as they were. -/
def SameOutline (s s' : VM W) : Prop := s'.outline = s.outline ∧ s'.stack.length = s.stack.length

theorem SameOutline.refl (s : VM W) : SameOutline s s := ⟨rfl, rfl⟩

theorem SameOutline.trans {s s' s'' : VM W} (h : SameOutline s s') (h' : SameOutline s' s'') : SameOutline s s'' :=
  ⟨h'.1.trans h.1, h'.2.trans h.2⟩

theorem length_updateSlots {move : ℕ → Except Fault ℕ} {slots locals locals' : List ℕ}
    (h : updateSlots move locals slots = .ok locals') : locals'.length = locals.length := by
  induction slots generalizing locals with
  | nil =>
    cases h
    rfl
  | cons slot slots ih =>
    unfold updateSlots updateSlot at h
    split at h
    · cases h
    · rename_i mid hmid
      rw [ih h]
      split at hmid
      · cases hmid
        rfl
      · split at hmid
        · cases hmid
        · cases hmid
          exact List.length_set

theorem length_updateFrame {move : ℕ → Except Fault ℕ} {i : ℕ} {locals locals' : List ℕ}
    (h : updateFrame P move i locals = .ok locals') : locals'.length = locals.length := by
  unfold updateFrame at h
  split at h
  · cases h
    rfl
  · exact length_updateSlots h

theorem outline_updateFrames {move : ℕ → Except Fault ℕ} {fs fs' : List Frame}
    (h : updateFrames P move fs = .ok fs') : fs'.map Frame.outline = fs.map Frame.outline := by
  induction fs generalizing fs' with
  | nil =>
    cases h
    rfl
  | cons f fs ih =>
    unfold updateFrames at h
    split at h
    · cases h
    · rename_i locals hlocals
      split at h
      · cases h
      · rename_i rest hrest
        cases h
        rw [List.map_cons, List.map_cons, ih hrest]
        exact congrArg (· :: _) (by simp [Frame.outline, length_updateFrame hlocals])

theorem length_updateStack {move : ℕ → Except Fault ℕ} {es es' : List Entry}
    (h : updateStack move es = .ok es') : es'.length = es.length := by
  induction es generalizing es' with
  | nil =>
    cases h
    rfl
  | cons e es ih =>
    unfold updateStack at h
    split at h
    · cases h
    · split at h
      · cases h
      · rename_i rest hrest
        cases h
        simp [ih hrest]

/-- A collection only rewrites references. -/
theorem collect_outline {s s' : VM W} (h : s.collect P = .ok s') : SameOutline s s' := by
  unfold VM.collect at h
  obtain ⟨starts, -, h⟩ := exceptBind_ok h
  obtain ⟨marked, -, h⟩ := exceptBind_ok h
  obtain ⟨forward, -, h⟩ := exceptBind_ok h
  obtain ⟨moved, hmoved, h⟩ := exceptBind_ok h
  have hslide : SameOutline moved s' := by
    unfold VM.slide at h
    obtain ⟨hdrs, -, h⟩ := exceptBind_ok h
    obtain ⟨⟨m, top, stats⟩, -, h⟩ := exceptBind_ok h
    cases h
    exact ⟨rfl, rfl⟩
  refine SameOutline.trans ?_ hslide
  unfold VM.updateReferences at hmoved
  obtain ⟨locals, hlocals, h⟩ := exceptBind_ok hmoved
  obtain ⟨frames, hframes, h⟩ := exceptBind_ok h
  obtain ⟨stack, hstack, h⟩ := exceptBind_ok h
  obtain ⟨literals, -, h⟩ := exceptBind_ok h
  obtain ⟨variants, -, h⟩ := exceptBind_ok h
  obtain ⟨heap, -, h⟩ := exceptBind_ok h
  cases h
  refine ⟨?_, length_updateStack hstack⟩
  simp only [VM.outline, outline_updateFrames hframes, length_updateFrame hlocals]

theorem bump_outline {payload kind detail ref : ℕ} {s s' : VM W} (h : s.bump payload kind detail = some (ref, s')) :
    SameOutline s s' := by
  unfold VM.bump at h
  dsimp only at h
  split at h
  · cases h
  · cases h
    exact ⟨rfl, rfl⟩

theorem reserve_outline {payload kind detail ref : ℕ} {s s' : VM W} (h : s.reserve P payload kind detail = .ok (ref, s')) :
    SameOutline s s' := by
  unfold VM.reserve at h
  dsimp only at h
  split at h
  · rename_i r hb
    cases h
    exact bump_outline hb
  · split at h
    · cases h
    · rename_i s₁ hc
      split at h
      · rename_i r hb
        cases h
        exact (collect_outline hc).trans (bump_outline hb)
      · cases h

theorem allocStruct_outline {typeId ref : ℕ} {s s' : VM W} (h : s.allocStruct P typeId = .ok (ref, s')) :
    SameOutline s s' := by
  unfold VM.allocStruct at h
  split at h
  · cases h
  · cases h
  · dsimp only at h
    split at h
    · cases h
    · rename_i addr s₁ hr
      cases h
      exact (reserve_outline hr).trans ⟨rfl, rfl⟩

theorem allocArray_outline {count : ℤ} {holdsRefs : Bool} {ref : ℕ} {s s' : VM W}
    (h : s.allocArray P count holdsRefs = .ok (ref, s')) : SameOutline s s' := by
  unfold VM.allocArray at h
  split at h
  · cases h
  · split at h
    · cases h
    · dsimp only at h
      split at h
      · cases h
      · rename_i addr s₁ hr
        cases h
        exact (reserve_outline hr).trans ⟨rfl, rfl⟩

theorem allocRaw_outline {size : ℤ} {ref : ℕ} {s s' : VM W} (h : s.allocRaw P size = .ok (ref, s')) : SameOutline s s' := by
  unfold VM.allocRaw at h
  split at h
  · cases h
  · dsimp only at h
    split at h
    · cases h
    · rename_i addr s₁ hr
      cases h
      exact (reserve_outline hr).trans ⟨rfl, rfl⟩

theorem allocString_outline {data : List UInt8} {ref : ℕ} {s s' : VM W} (h : s.allocString P data = .ok (ref, s')) :
    SameOutline s s' := by
  unfold VM.allocString at h
  dsimp only at h
  split at h
  · cases h
  · split at h
    · cases h
    · rename_i addr s₁ hr
      cases h
      exact (reserve_outline hr).trans ⟨rfl, rfl⟩

end Collector

/-- A computation that takes `n` entries from above the base of the frame, leaves `k`
in their place and changes no frame. -/
def Effect {W α : Type} (m : Exec W α) (n k : ℕ) : Prop :=
  ∀ s a s', m s = .ok (a, s') → n ≤ s.stack.length - s.frameBase ∧
    s'.stack.length = s.stack.length - n + k ∧ s'.outline = s.outline

namespace Effect

variable {W α β : Type} {n k i j N K : ℕ}

theorem of_same {m : Exec W α} (h : ∀ s a s', m s = .ok (a, s') → SameOutline s s') : Effect m 0 0 :=
  fun s a s' hm => ⟨Nat.zero_le _, (h s a s' hm).2, (h s a s' hm).1⟩

theorem of_reads {m : Exec W α} (h : Reads m) : Effect m 0 0 := of_same fun s a s' hm => by
  rw [h s a s' hm]
  exact .refl s

theorem pure (a : α) : Effect (Pure.pure a : Exec W α) 0 0 := of_reads (reads_pure a)

theorem get : Effect (MonadState.get : Exec W (VM W)) 0 0 := of_reads reads_get

theorem fault {message : String} : Effect (QuinLang.fault message : Exec W α) n k := fun s a s' h => by cases h

theorem raise {exception : String} : Effect (QuinLang.raise exception : Exec W α) n k := fun s a s' h => by cases h

/-- One computation after another that only takes entries. -/
theorem bind {m : Exec W α} {f : α → Exec W β} (h : Effect m i 0) (h' : ∀ a, Effect (f a) j k)
    (hN : N = i + j) : Effect (m >>= f) N k := by
  intro s b s' hm
  obtain ⟨a, s₁, h₁, h₂⟩ := bind_ok.mp hm
  obtain ⟨ha, hb, hc⟩ := h s a s₁ h₁
  obtain ⟨ha', hb', hc'⟩ := h' a s₁ b s' h₂
  have hbase : s₁.frameBase = s.frameBase := congrArg Outline.frameBase hc
  refine ⟨?_, ?_, hc'.trans hc⟩ <;> omega

/-- One computation after another, the second only leaving entries. -/
theorem push {m : Exec W α} {f : α → Exec W β} (h : Effect m n i) (h' : ∀ a, Effect (f a) 0 j)
    (hK : K = i + j) : Effect (m >>= f) n K := by
  intro s b s' hm
  obtain ⟨a, s₁, h₁, h₂⟩ := bind_ok.mp hm
  obtain ⟨ha, hb, hc⟩ := h s a s₁ h₁
  obtain ⟨ha', hb', hc'⟩ := h' a s₁ b s' h₂
  exact ⟨ha, by omega, hc'.trans hc⟩

theorem ite {c : Prop} [Decidable c] {x y : Exec W α} (hx : Effect x n k) (hy : Effect y n k) :
    Effect (if c then x else y) n k := by
  split
  · exact hx
  · exact hy

theorem map {m : Exec W α} (h : Effect m n k) (f : α → β) : Effect (f <$> m) n k :=
  Effect.push h (fun a => pure (f a)) rfl

theorem modifies {f : VM W → VM W} (h : ∀ s, SameOutline s (f s)) : Effect (modify f : Exec W PUnit) 0 0 :=
  of_same fun s a s' hm => by
    cases hm
    exact h s

end Effect

/-! The operations instructions are made of. -/

section Operations

variable {W α : Type}

open Effect

theorem push_effect (v : ℤ) (r : Bool) : Effect (push v r : Exec W Unit) 0 1 := fun s a s' h => by
  cases h
  exact ⟨Nat.zero_le _, rfl, rfl⟩

theorem pushRaw_effect (e : Entry) : Effect (pushRaw e : Exec W Unit) 0 1 := fun s a s' h => by
  cases h
  exact ⟨Nat.zero_le _, rfl, rfl⟩

theorem popTagged_effect : Effect (popTagged : Exec W Entry) 1 0 := fun s a s' h => by
  unfold popTagged at h
  split at h
  · rename_i e rest hs
    split at h
    · rename_i hbase
      cases h
      simp only [hs, List.length_cons]
      exact ⟨by omega, rfl, rfl⟩
    · cases h
  · cases h

theorem pop_effect : Effect (pop : Exec W ℕ) 1 0 := popTagged_effect.map _

theorem popSigned_effect : Effect (popSigned : Exec W ℤ) 1 0 := pop_effect.map _

/-- The entry looked at is above the base. -/
theorem peek_ok {opName : String} {s s' : VM W} {e : Entry} (h : peek opName s = .ok (e, s')) :
    s' = s ∧ 1 ≤ s.stack.length - s.frameBase ∧ s.stack.head? = some e := by
  unfold peek at h
  split at h
  · rename_i e' rest hs
    split at h
    · rename_i hbase
      cases h
      rw [hs]
      exact ⟨rfl, by rw [List.length_cons]; omega, rfl⟩
    · cases h
  · cases h

theorem localIndex_reads (index : ℤ) : Reads (localIndex index : Exec W ℕ) := by
  refine reads_get.bind fun s => ?_
  exact .ite (reads_fault _) (reads_pure _)

theorem getLocal_reads (index : ℤ) : Reads (getLocal index : Exec W ℕ) :=
  (localIndex_reads index).bind fun _ => reads_get.bind fun _ => reads_pure _

theorem setLocal_effect (index : ℤ) (v : ℕ) : Effect (setLocal index v : Exec W Unit) 0 0 := by
  refine Effect.push (of_reads (localIndex_reads index)) (fun i => modifies fun s => ⟨?_, rfl⟩) rfl
  simp [VM.outline]

section Floats

variable (F : FloatOps)

theorem floatToBits_reads (v : F.Fl) : Reads (floatToBits F v : Exec W ℕ) := by
  refine .ite (reads_fault _) ?_
  split
  · exact reads_pure _
  · exact reads_fault _

theorem pushFloat_effect (v : F.Fl) : Effect (pushFloat F v : Exec W Unit) 0 1 :=
  Effect.push (of_reads (floatToBits_reads F v)) (fun _ => pushRaw_effect _) rfl

theorem popFloat_effect : Effect (popFloat F : Exec W F.Fl) 1 0 := pop_effect.map _

theorem localFloat_reads (index : ℤ) : Reads (localFloat F index : Exec W F.Fl) :=
  (getLocal_reads index).bind fun _ => (getLocal_reads (index + 1)).bind fun _ => reads_pure _

theorem setLocalFloat_effect (index : ℤ) (v : F.Fl) : Effect (setLocalFloat F index v : Exec W Unit) 0 0 :=
  Effect.push (of_reads (floatToBits_reads F v)) (fun _ => Effect.push (setLocal_effect _ _) (fun _ => setLocal_effect _ _) rfl) rfl

theorem floatBinary_effect (f : F.Fl → F.Fl → F.Fl) : Effect (floatBinary F f : Exec W Unit) 2 1 :=
  Effect.bind (popFloat_effect F) (fun _ => Effect.bind (popFloat_effect F) (fun _ => pushFloat_effect F _) rfl) rfl

end Floats

theorem taggedBinary_effect (f : ℤ → ℤ → ℤ) : Effect (taggedBinary f : Exec W Unit) 2 1 :=
  Effect.bind popTagged_effect (fun _ => Effect.bind popTagged_effect (fun _ => push_effect _ _) rfl) rfl

theorem plainBinary_effect (f : ℕ → ℕ → ℤ) : Effect (plainBinary f : Exec W Unit) 2 1 :=
  Effect.bind pop_effect (fun _ => Effect.bind pop_effect (fun _ => push_effect _ _) rfl) rfl

/-- A check that may fail before the rest. -/
theorem guard_effect {c : Prop} [Decidable c] {message : String} {m : Exec W α} {n k : ℕ} (h : Effect m n k) :
    Effect (if c then (fault message : Exec W Unit) >>= fun _ => m else m) n k :=
  Effect.ite (Effect.bind (i := 0) Effect.fault (fun _ => h) (Nat.zero_add n).symm) h

theorem divide_effect (message : String) (f : ℤ → ℤ → ℤ) : Effect (divide message f : Exec W Unit) 2 1 :=
  Effect.bind popSigned_effect (fun _ => Effect.bind popSigned_effect (fun _ => guard_effect (push_effect _ _)) rfl) rfl

theorem compare_effect (res : ℤ → ℤ → Bool) : Effect (compare res : Exec W Unit) 2 1 :=
  Effect.bind popSigned_effect (fun _ => Effect.bind popSigned_effect (fun _ => push_effect _ _) rfl) rfl

theorem shiftLeft_effect : Effect (shiftLeft : Exec W Unit) 2 1 :=
  Effect.bind popSigned_effect (fun _ => Effect.bind pop_effect (fun _ => guard_effect (push_effect _ _)) rfl) rfl

theorem shiftRight_effect : Effect (shiftRight : Exec W Unit) 2 1 :=
  Effect.bind popSigned_effect (fun _ => Effect.bind popSigned_effect (fun _ => guard_effect (push_effect _ _)) rfl) rfl

theorem writeHeap_effect (addr v : ℕ) : Effect (writeHeap addr v : Exec W Unit) 0 0 := by
  refine Effect.of_same fun s a s' h => ?_
  unfold writeHeap at h
  obtain ⟨s₁, s₂, hget, h⟩ := bind_ok.mp h
  obtain ⟨rfl, rfl⟩ := Prod.mk.inj (get_ok.mp hget)
  split at h
  · cases h
    exact ⟨rfl, rfl⟩
  · cases h

theorem checkHeapWord_reads (addr : ℕ) (what : String) : Reads (checkHeapWord addr what : Exec W Unit) :=
  reads_get.bind fun _ => .ite (reads_fault _) (reads_pure _)

theorem elementAddr_reads (ref : ℕ) (index : ℤ) (opName : String) : Reads (elementAddr ref index opName : Exec W (ℕ × Bool)) :=
  (reads_arrayAt ref opName).bind fun _ => .ite (reads_fault _) (reads_pure _)

theorem elementBytes_reads (ref : ℕ) (opName : String) (remaining index : ℕ) :
    Reads (elementBytes ref opName remaining index : Exec W (List UInt8)) := by
  induction remaining generalizing index with
  | zero => exact reads_pure _
  | succ n ih =>
    have hrest (w : ℕ) : Reads (do return UInt8.ofNat w :: (← elementBytes ref opName n (index + 1)) : Exec W (List UInt8)) :=
      (ih (index + 1)).bind fun _ => reads_pure _
    exact (reads_readHeap _).bind fun w => .ite ((reads_fault _).bind fun _ => hrest w) (hrest w)

theorem arrayBytes_reads (ref : ℕ) (opName : String) : Reads (arrayBytes ref opName : Exec W (List UInt8)) :=
  (reads_arrayAt ref opName).bind fun r =>
    .ite ((reads_fault _).bind fun _ => elementBytes_reads ref opName r.1 0) (elementBytes_reads ref opName r.1 0)

theorem bytesFromIo_reads (what : String) (c : FileContent) : Reads (bytesFromIo what c : Exec W (List UInt8)) := by
  cases c with
  | bytes data => exact reads_pure _
  | text data =>
    unfold bytesFromIo
    dsimp only
    split
    · exact reads_fault _
    · exact reads_pure _
  | other typeName => exact reads_fault _

theorem fileOp_effect (action : W → Except String α × W) : Effect (fileOp action : Exec W (Option α)) 0 0 := by
  refine Effect.of_same fun s a s' h => ?_
  unfold fileOp at h
  split at h
  · cases h
    exact ⟨rfl, rfl⟩
  · cases h
    exact ⟨rfl, rfl⟩

theorem forM_effect {β : Type} {f : β → Exec W PUnit} (hf : ∀ b, Effect (f b) 0 0) (bs : List β) : Effect (bs.forM f) 0 0 := by
  induction bs with
  | nil => exact Effect.pure _
  | cons b bs ih => exact Effect.push (hf b) (fun _ => ih) rfl

theorem memcpyLocals_effect : Effect (memcpyLocals : Exec W Unit) 3 0 := by
  refine Effect.bind (j := 2) popSigned_effect (fun count => ?_) rfl
  refine Effect.bind (j := 1) popSigned_effect (fun src => ?_) rfl
  refine Effect.bind (j := 0) popSigned_effect (fun dst => ?_) rfl
  refine guard_effect (forM_effect (fun i => ?_) _)
  exact Effect.push (of_reads (getLocal_reads _)) (fun _ => setLocal_effect _ _) rfl

theorem memsetLocals_effect : Effect (memsetLocals : Exec W Unit) 3 0 := by
  refine Effect.bind (j := 2) popSigned_effect (fun count => ?_) rfl
  refine Effect.bind (j := 1) pop_effect (fun v => ?_) rfl
  refine Effect.bind (j := 0) popSigned_effect (fun dst => ?_) rfl
  exact guard_effect (forM_effect (fun i => setLocal_effect _ _) _)

section Program

variable (P : CompiledProgram)

theorem fieldIsRef_reads (ref offset : ℕ) : Reads (fieldIsRef P ref offset : Exec W Bool) := by
  unfold fieldIsRef
  refine reads_get.bind fun s => ?_
  split
  · exact reads_pure _
  · refine .ite (reads_pure _) ?_
    split
    · exact reads_pure _
    · exact reads_raise _
    · exact reads_pure _

theorem fieldAddr_reads (ref offset : ℕ) (doing what : String) : Reads (fieldAddr ref offset doing what : Exec W ℕ) := by
  have hrest : Reads (do
      checkHeapWord (ref + offset * 2) what
      return ref + offset * 2 : Exec W ℕ) := (checkHeapWord_reads _ _).bind fun _ => reads_pure _
  exact .ite ((reads_fault _).bind fun _ => hrest) hrest

theorem allocString_effect (data : List UInt8) : Effect (allocString P data : Exec W ℕ) 0 0 :=
  Effect.of_same fun _ _ _ h => allocString_outline h

theorem stringFromText_effect (text what : String) : Effect (stringFromText P text what : Exec W ℕ) 0 0 := by
  unfold stringFromText
  split
  · exact Effect.fault
  · exact allocString_effect P _

theorem write_effect (io : ProgramIO W) (text : String) : Effect (write io text : Exec W Unit) 0 0 := by
  refine Effect.of_same fun s a s' h => ?_
  unfold write at h
  split at h
  · cases h
    exact ⟨rfl, rfl⟩
  · cases h

theorem readLine_effect (io : ProgramIO W) : Effect (readLine io : Exec W String) 0 0 := by
  refine Effect.of_same fun s a s' h => ?_
  unfold readLine at h
  split at h
  · cases h
    exact ⟨rfl, rfl⟩
  · cases h

theorem fileWrite_effect (io : ProgramIO W) (append : Bool) : Effect (fileWrite io append : Exec W Unit) 2 1 := by
  refine Effect.bind (j := 1) pop_effect (fun data => ?_) rfl
  refine Effect.bind (j := 1) (of_reads (reads_stringBytes data)) (fun _ => ?_) rfl
  refine Effect.bind (j := 0) pop_effect (fun path => ?_) rfl
  refine Effect.bind (j := 0) (of_reads (reads_stringText path)) (fun _ => ?_) rfl
  exact Effect.bind (fileOp_effect _) (fun _ => push_effect _ _) rfl

end Program

end Operations

/-- Instructions that choose where to go on. -/
def Instruction.isControl : Instruction → Bool
  | jmp _ | jz _ | jnz _ | call _ | callIndirect | ret => true
  | _ => false

section Execute

variable {W : Type} (P : CompiledProgram) (F : FloatOps) (io : ProgramIO W)

theorem peek_effect (opName : String) : Effect (peek opName : Exec W Entry) 1 1 := by
  intro s e s' h
  obtain ⟨rfl, hbase, -⟩ := peek_ok h
  exact ⟨hbase, by omega, rfl⟩

/-- What an instruction that goes on to the next one does to the stack. -/
theorem execute_effect (i : Instruction) (hi : i.isControl = false) : Effect (execute P F io i) i.pops i.pushes := by
  have ofString {a : ℕ} : Effect (stringBytes a : Exec W (List UInt8)) 0 0 := .of_reads (reads_stringBytes a)
  have ofText {a : ℕ} : Effect (stringText a : Exec W String) 0 0 := .of_reads (reads_stringText a)
  have ofHeap {a : ℕ} : Effect (readHeap a : Exec W ℕ) 0 0 := .of_reads (reads_readHeap a)
  have ofCheck {a : ℕ} {what : String} : Effect (checkHeapWord a what : Exec W Unit) 0 0 := .of_reads (checkHeapWord_reads a what)
  have ofArray {ref : ℕ} {index : ℤ} {name : String} : Effect (elementAddr ref index name : Exec W (ℕ × Bool)) 0 0 :=
    .of_reads (elementAddr_reads ref index name)
  have ofField {ref offset : ℕ} {doing what : String} : Effect (fieldAddr ref offset doing what : Exec W ℕ) 0 0 :=
    .of_reads (fieldAddr_reads ref offset doing what)
  have ofFormat {v : F.Fl} : Effect (formatFloat F v : Exec W String) 0 0 := .of_reads (reads_formatFloat F v)
  cases i with
  | jmp | jz | jnz | call | callIndirect | ret => cases hi
  | pushInt n => exact push_effect _ _
  | loadLocal slot =>
    exact Effect.bind (.of_reads (getLocal_reads _)) (fun _ => Effect.bind .get (fun _ => push_effect _ _) rfl) rfl
  | storeLocal slot => exact Effect.bind pop_effect (fun _ => setLocal_effect _ _) rfl
  | add | sub => exact taggedBinary_effect _
  | mul | xor | and | or => exact plainBinary_effect _
  | div | mod => exact divide_effect _ _
  | shl => exact shiftLeft_effect
  | shr => exact shiftRight_effect
  | neg | not | bitnot => exact Effect.bind pop_effect (fun _ => push_effect _ _) rfl
  | pushFloat bits => exact pushRaw_effect _
  | loadLocalF slot => exact Effect.bind (.of_reads (localFloat_reads F _)) (fun _ => pushFloat_effect F _) rfl
  | storeLocalF slot => exact Effect.bind (popFloat_effect F) (fun _ => setLocalFloat_effect F _ _) rfl
  | fadd | fsub | fmul => exact floatBinary_effect F _
  | fdiv =>
    refine Effect.bind (j := 1) (popFloat_effect F) (fun b => ?_) rfl
    exact Effect.bind (popFloat_effect F) (fun a => guard_effect (pushFloat_effect F _)) rfl
  | fneg => exact Effect.bind (popFloat_effect F) (fun _ => pushFloat_effect F _) rfl
  | fcmp => exact Effect.bind (popFloat_effect F) (fun _ => Effect.bind (popFloat_effect F) (fun _ => push_effect _ _) rfl) rfl
  | fFromInt => exact Effect.bind popSigned_effect (fun _ => pushFloat_effect F _) rfl
  | fToInt =>
    refine Effect.bind (j := 0) (popFloat_effect F) (fun v => ?_) rfl
    split
    · exact .raise
    · exact guard_effect (push_effect _ _)
  | cmpEq | cmpNe | cmpLt | cmpLe | cmpGt | cmpGe => exact compare_effect _
  | loadStr sid =>
    refine Effect.bind (j := 0) .get (fun s => ?_) rfl
    split
    · exact push_effect _ _
    · exact .fault
  | loadVariant typeId =>
    refine Effect.bind (j := 0) .get (fun s => ?_) rfl
    split
    · exact push_effect _ _
    · exact .fault
  | strCmp =>
    refine Effect.bind (j := 1) pop_effect (fun b => ?_) rfl
    refine Effect.bind (j := 1) ofString (fun _ => ?_) rfl
    exact Effect.bind pop_effect (fun a => Effect.bind ofString (fun _ => push_effect _ _) rfl) rfl
  | strLen => exact Effect.bind pop_effect (fun _ => Effect.bind ofString (fun _ => push_effect _ _) rfl) rfl
  | strCharAt =>
    refine Effect.bind (j := 1) popSigned_effect (fun index => ?_) rfl
    refine Effect.bind (j := 0) pop_effect (fun a => ?_) rfl
    exact Effect.bind ofString (fun _ => guard_effect (push_effect _ _)) rfl
  | strConcat =>
    refine Effect.bind (j := 1) pop_effect (fun b => ?_) rfl
    refine Effect.bind (j := 1) ofString (fun _ => ?_) rfl
    refine Effect.bind (j := 0) pop_effect (fun a => ?_) rfl
    exact Effect.bind ofString (fun _ => Effect.bind (allocString_effect P _) (fun _ => push_effect _ _) rfl) rfl
  | strSlice =>
    refine Effect.bind (j := 2) popSigned_effect (fun stop => ?_) rfl
    refine Effect.bind (j := 1) popSigned_effect (fun start => ?_) rfl
    refine Effect.bind (j := 0) pop_effect (fun a => ?_) rfl
    refine Effect.bind (j := 0) ofString (fun _ => guard_effect ?_) rfl
    exact Effect.bind (allocString_effect P _) (fun _ => push_effect _ _) rfl
  | strFromFloat =>
    refine Effect.bind (j := 0) (popFloat_effect F) (fun v => ?_) rfl
    refine Effect.bind (j := 0) ofFormat (fun text => ?_) rfl
    split
    · exact Effect.bind (allocString_effect P _) (fun _ => push_effect _ _) rfl
    · exact .raise
  | strFromInt =>
    refine Effect.bind (j := 0) popSigned_effect (fun v => ?_) rfl
    exact Effect.bind (allocString_effect P _) (fun _ => push_effect _ _) rfl
  | strFromChar =>
    refine Effect.bind (j := 0) popSigned_effect (fun code => guard_effect ?_) rfl
    exact Effect.bind (allocString_effect P _) (fun _ => push_effect _ _) rfl
  | boundsCheck length =>
    exact Effect.push (j := 0) (peek_effect _) (fun e => .ite .fault (.pure _)) rfl
  | loadLocalIdx slot =>
    refine Effect.bind (j := 0) popSigned_effect (fun index => ?_) rfl
    exact Effect.bind (.of_reads (getLocal_reads _)) (fun _ => push_effect _ _) rfl
  | storeLocalIdx slot =>
    exact Effect.bind popSigned_effect (fun index => Effect.bind pop_effect (fun v => setLocal_effect _ _) rfl) rfl
  | loadIndirect =>
    refine Effect.bind (j := 0) popSigned_effect (fun index => ?_) rfl
    exact Effect.bind (.of_reads (getLocal_reads _)) (fun _ => push_effect _ _) rfl
  | storeIndirect =>
    exact Effect.bind pop_effect (fun v => Effect.bind popSigned_effect (fun index => setLocal_effect _ _) rfl) rfl
  | memcpyLocals => exact memcpyLocals_effect
  | memsetLocals => exact memsetLocals_effect
  | pop => exact Effect.bind pop_effect (fun _ => .pure _) rfl
  | dup => exact Effect.push (peek_effect _) (fun _ => pushRaw_effect _) rfl
  | swap =>
    refine Effect.bind (j := 1) popTagged_effect (fun b => ?_) rfl
    refine Effect.bind (j := 0) popTagged_effect (fun a => ?_) rfl
    exact Effect.push (pushRaw_effect _) (fun _ => pushRaw_effect _) rfl
  | printFloat | printlnFloat =>
    exact Effect.bind (popFloat_effect F) (fun _ => Effect.bind ofFormat (fun _ => write_effect io _) rfl) rfl
  | printInt | printlnInt => exact Effect.bind popSigned_effect (fun _ => write_effect io _) rfl
  | printStr | printlnStr => exact Effect.bind pop_effect (fun _ => Effect.bind ofText (fun _ => write_effect io _) rfl) rfl
  | alloc =>
    refine Effect.bind (j := 0) popSigned_effect (fun size => ?_) rfl
    exact Effect.bind (.of_same fun _ _ _ h => allocRaw_outline h) (fun _ => push_effect _ _) rfl
  | newArray holdsRefs =>
    refine Effect.bind (j := 0) popSigned_effect (fun size => ?_) rfl
    exact Effect.bind (.of_same fun _ _ _ h => allocArray_outline h) (fun _ => push_effect _ _) rfl
  | allocTyped typeId => exact Effect.bind (.of_same fun _ _ _ h => allocStruct_outline h) (fun _ => push_effect _ _) rfl
  | tagOf =>
    refine Effect.bind (j := 0) pop_effect (fun ref => guard_effect (Effect.bind (j := 0) .get (fun s => ?_) rfl)) rfl
    split
    · exact guard_effect (push_effect _ _)
    · exact .fault
  | readLine =>
    refine Effect.bind (j := 0) (readLine_effect io) (fun text => ?_) rfl
    exact Effect.bind (stringFromText_effect P _ _) (fun _ => push_effect _ _) rfl
  | argc => exact Effect.bind .get (fun _ => push_effect _ _) rfl
  | argv =>
    refine Effect.bind (j := 0) popSigned_effect (fun index => ?_) rfl
    refine Effect.bind (j := 0) .get (fun s => guard_effect ?_) rfl
    exact Effect.bind (stringFromText_effect P _ _) (fun _ => push_effect _ _) rfl
  | fileRead =>
    refine Effect.bind (j := 0) pop_effect (fun a => Effect.bind (j := 0) ofText (fun path => ?_) rfl) rfl
    refine Effect.bind (j := 0) (fileOp_effect _) (fun content => ?_) rfl
    cases content with
    | some content =>
      refine Effect.bind (j := 0) (.of_reads (bytesFromIo_reads _ _)) (fun data => ?_) rfl
      exact Effect.bind (allocString_effect P _) (fun _ => push_effect _ _) rfl
    | none => exact Effect.bind (allocString_effect P _) (fun _ => push_effect _ _) rfl
  | fileWrite | fileAppend => exact fileWrite_effect io _
  | fileExists | fileDelete =>
    refine Effect.bind (j := 0) pop_effect (fun a => Effect.bind (j := 0) ofText (fun path => ?_) rfl) rfl
    exact Effect.bind (fileOp_effect _) (fun _ => push_effect _ _) rfl
  | fileError =>
    refine Effect.bind (j := 0) .get (fun s => ?_) rfl
    exact Effect.bind (stringFromText_effect P _ _) (fun _ => push_effect _ _) rfl
  | fileReadBytes =>
    have hfinish (ref : ℕ) (data : List UInt8) : Effect (do
        modify fun s => { s with heap := writeElements ref data s.heap }
        push ref true : Exec W Unit) 0 1 :=
      Effect.bind (.modifies fun s => ⟨rfl, rfl⟩) (fun _ => push_effect _ _) rfl
    refine Effect.bind (j := 0) pop_effect (fun a => Effect.bind (j := 0) ofText (fun path => ?_) rfl) rfl
    refine Effect.bind (j := 0) (fileOp_effect _) (fun content => ?_) rfl
    have halloc (data : List UInt8) : Effect ((fun s => s.allocArray P data.length false : Exec W ℕ) >>= fun ref => do
        modify fun s => { s with heap := writeElements ref data s.heap }
        push ref true) 0 1 :=
      Effect.bind (.of_same fun _ _ _ h => allocArray_outline h) (fun ref => hfinish ref data) rfl
    cases content with
    | some content => exact Effect.bind (.of_reads (bytesFromIo_reads _ _)) (fun data => halloc data) rfl
    | none => exact Effect.bind (.pure _) (fun data => halloc data) rfl
  | fileWriteBytes =>
    refine Effect.bind (j := 1) pop_effect (fun ref => ?_) rfl
    refine Effect.bind (j := 1) (.of_reads (arrayBytes_reads ref _)) (fun data => ?_) rfl
    refine Effect.bind (j := 0) pop_effect (fun a => Effect.bind (j := 0) ofText (fun path => ?_) rfl) rfl
    exact Effect.bind (fileOp_effect _) (fun _ => push_effect _ _) rfl
  | gc =>
    refine .of_same fun s a s' h => ?_
    cases hc : s.collect P with
    | error e =>
      simp only [execute, hc] at h
      cases h
    | ok t =>
      simp only [execute, hc] at h
      cases h
      exact collect_outline hc
  | panic => exact Effect.bind (j := 0) pop_effect (fun _ => Effect.bind (j := 0) ofText (fun _ => .fault) rfl) rfl
  | arrayLen =>
    refine Effect.bind (j := 0) pop_effect (fun ref => ?_) rfl
    exact Effect.bind (.of_reads (reads_arrayAt ref _)) (fun _ => push_effect _ _) rfl
  | arrayGet =>
    refine Effect.bind (j := 1) popSigned_effect (fun index => ?_) rfl
    refine Effect.bind (j := 0) pop_effect (fun ref => Effect.bind (j := 0) ofArray (fun r => ?_) rfl) rfl
    exact Effect.bind ofHeap (fun _ => push_effect _ _) rfl
  | arraySet =>
    refine Effect.bind (j := 2) pop_effect (fun v => ?_) rfl
    refine Effect.bind (j := 1) popSigned_effect (fun index => ?_) rfl
    exact Effect.bind pop_effect (fun ref => Effect.bind (j := 0) ofArray (fun r => writeHeap_effect _ _) rfl) rfl
  | heapLoad =>
    refine Effect.bind (j := 0) pop_effect (fun addr => guard_effect ?_) rfl
    exact Effect.bind ofCheck (fun _ => Effect.bind ofHeap (fun _ => push_effect _ _) rfl) rfl
  | heapStore =>
    refine Effect.bind (j := 1) pop_effect (fun v => ?_) rfl
    refine Effect.bind (j := 0) pop_effect (fun addr => guard_effect ?_) rfl
    exact Effect.bind ofCheck (fun _ => writeHeap_effect _ _) rfl
  | heapLoadField offset =>
    refine Effect.bind (j := 0) pop_effect (fun ref => Effect.bind (j := 0) ofField (fun addr => ?_) rfl) rfl
    refine Effect.bind (j := 0) ofHeap (fun v => ?_) rfl
    exact Effect.bind (.of_reads (fieldIsRef_reads P ref offset)) (fun _ => push_effect _ _) rfl
  | heapStoreField offset =>
    refine Effect.bind (j := 1) pop_effect (fun v => ?_) rfl
    exact Effect.bind pop_effect (fun ref => Effect.bind ofField (fun addr => writeHeap_effect _ _) rfl) rfl
  | heapLoadFieldF offset =>
    refine Effect.bind (j := 0) pop_effect (fun ref => Effect.bind (j := 0) ofField (fun addr => ?_) rfl) rfl
    refine Effect.bind (j := 0) ofCheck (fun _ => ?_) rfl
    exact Effect.bind ofHeap (fun lo => Effect.bind ofHeap (fun hi => pushFloat_effect F _) rfl) rfl
  | heapStoreFieldF offset =>
    refine Effect.bind (j := 1) (popFloat_effect F) (fun v => ?_) rfl
    refine Effect.bind (j := 1) (.of_reads (floatToBits_reads F v)) (fun bits => ?_) rfl
    refine Effect.bind (j := 0) pop_effect (fun ref => Effect.bind (j := 0) ofField (fun addr => ?_) rfl) rfl
    refine Effect.bind (j := 0) ofCheck (fun _ => ?_) rfl
    exact Effect.bind (writeHeap_effect _ _) (fun _ => writeHeap_effect _ _) rfl

end Execute

end QuinLang
