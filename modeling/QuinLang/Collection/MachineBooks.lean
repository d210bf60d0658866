import QuinLang.Collection.Books
import QuinLang.Lib.Within
import QuinLang.Runtime.Effects

/-! The books over whole runs of the machine. Only an allocation, a collection and the four
stores touch the heap; every other instruction leaves it and its statistics alone. -/

namespace QuinLang

open StateExcept Debugger Relation

variable {W α β : Type} {P : CompiledProgram} {R : VM W → VM W → Prop}

/-- The heap and its statistics are as they were. -/
structure SameHeap (s s' : VM W) : Prop where
  heap : s'.heap = s.heap
  heapPtr : s'.heapPtr = s.heapPtr
  heapSize : s'.heapSize = s.heapSize
  stats : s'.stats = s.stats

/-- A relation between states that looks at nothing but the heap. -/
structure HeapOnly (R : VM W → VM W → Prop) : Prop where
  trans : ∀ {s s' s''}, R s s' → R s' s'' → R s s''
  quiet : ∀ {s s'}, SameHeap s s' → R s s'

namespace HeapOnly

theorem refl (h : HeapOnly R) (s : VM W) : R s s := h.quiet ⟨rfl, rfl, rfl, rfl⟩

theorem reads (h : HeapOnly R) {m : Exec W α} (hm : Reads m) : Within R m := fun s a s' hs => by
  rw [hm s a s' hs]
  exact h.refl s

theorem bind (h : HeapOnly R) {m : Exec W α} {f : α → Exec W β} (hm : Within R m) (hf : ∀ a, Within R (f a)) :
    Within R (m >>= f) := Within.bind h.trans hm hf

theorem pure (h : HeapOnly R) (a : α) : Within R (Pure.pure a : Exec W α) := .of_pure h.refl a

theorem get (h : HeapOnly R) : Within R (MonadState.get : Exec W (VM W)) := .of_get h.refl

theorem fault {message : String} : Within R (QuinLang.fault message : Exec W α) := .of_throw _

theorem raise {exception : String} : Within R (QuinLang.raise exception : Exec W α) := .of_throw _

theorem modifies (h : HeapOnly R) {f : VM W → VM W} (hf : ∀ s, SameHeap s (f s)) : Within R (modify f : Exec W PUnit) :=
  .of_modify fun s => h.quiet (hf s)

/-- A check that may fail before the rest. -/
theorem guarded (h : HeapOnly R) {c : Prop} [Decidable c] {message : String} {m : Exec W α} (hm : Within R m) :
    Within R (if c then (QuinLang.fault message : Exec W Unit) >>= fun _ => m else m) :=
  .ite (h.bind fault fun _ => hm) hm

/-! The operations instructions are made of. -/

section Operations

variable (h : HeapOnly R)

include h

theorem push (v : ℤ) (r : Bool) : Within R (QuinLang.push v r : Exec W Unit) := h.modifies fun _ => ⟨rfl, rfl, rfl, rfl⟩

theorem pushRaw (e : Entry) : Within R (QuinLang.pushRaw e : Exec W Unit) := h.modifies fun _ => ⟨rfl, rfl, rfl, rfl⟩

theorem popTagged : Within R (QuinLang.popTagged : Exec W Entry) := by
  intro s a s' hs
  unfold QuinLang.popTagged at hs
  split at hs
  · split at hs
    · cases hs
      exact h.quiet ⟨rfl, rfl, rfl, rfl⟩
    · cases hs
  · cases hs

theorem pop : Within R (QuinLang.pop : Exec W ℕ) := h.bind h.popTagged fun _ => h.pure _

theorem popSigned : Within R (QuinLang.popSigned : Exec W ℤ) := h.bind h.pop fun _ => h.pure _

theorem peek (opName : String) : Within R (QuinLang.peek opName : Exec W Entry) :=
  h.reads fun _ _ _ hs => (peek_ok hs).1

theorem setLocal (index : ℤ) (v : ℕ) : Within R (QuinLang.setLocal index v : Exec W Unit) :=
  h.bind (h.reads (localIndex_reads index)) fun _ => h.modifies fun _ => ⟨rfl, rfl, rfl, rfl⟩

theorem pushFloat (F : FloatOps) (v : F.Fl) : Within R (QuinLang.pushFloat F v : Exec W Unit) :=
  h.bind (h.reads (floatToBits_reads F v)) fun _ => h.pushRaw _

theorem popFloat (F : FloatOps) : Within R (QuinLang.popFloat F : Exec W F.Fl) := h.bind h.pop fun _ => h.pure _

theorem setLocalFloat (F : FloatOps) (index : ℤ) (v : F.Fl) : Within R (QuinLang.setLocalFloat F index v : Exec W Unit) :=
  h.bind (h.reads (floatToBits_reads F v)) fun _ => h.bind (h.setLocal _ _) fun _ => h.setLocal _ _

theorem floatBinary (F : FloatOps) (f : F.Fl → F.Fl → F.Fl) : Within R (QuinLang.floatBinary F f : Exec W Unit) :=
  h.bind (h.popFloat F) fun _ => h.bind (h.popFloat F) fun _ => h.pushFloat F _

theorem taggedBinary (f : ℤ → ℤ → ℤ) : Within R (QuinLang.taggedBinary f : Exec W Unit) :=
  h.bind h.popTagged fun _ => h.bind h.popTagged fun _ => h.push _ _

theorem plainBinary (f : ℕ → ℕ → ℤ) : Within R (QuinLang.plainBinary f : Exec W Unit) :=
  h.bind h.pop fun _ => h.bind h.pop fun _ => h.push _ _

theorem divide (message : String) (f : ℤ → ℤ → ℤ) : Within R (QuinLang.divide message f : Exec W Unit) :=
  h.bind h.popSigned fun _ => h.bind h.popSigned fun _ => h.guarded (h.push _ _)

theorem compare (res : ℤ → ℤ → Bool) : Within R (QuinLang.compare res : Exec W Unit) :=
  h.bind h.popSigned fun _ => h.bind h.popSigned fun _ => h.push _ _

theorem shiftLeft : Within R (QuinLang.shiftLeft : Exec W Unit) :=
  h.bind h.popSigned fun _ => h.bind h.pop fun _ => h.guarded (h.push _ _)

theorem shiftRight : Within R (QuinLang.shiftRight : Exec W Unit) :=
  h.bind h.popSigned fun _ => h.bind h.popSigned fun _ => h.guarded (h.push _ _)

theorem fileOp (action : W → Except String α × W) : Within R (QuinLang.fileOp action : Exec W (Option α)) := by
  intro s a s' hs
  unfold QuinLang.fileOp at hs
  split at hs <;> cases hs <;> exact h.quiet ⟨rfl, rfl, rfl, rfl⟩

theorem write (io : ProgramIO W) (text : String) : Within R (QuinLang.write io text : Exec W Unit) := by
  intro s a s' hs
  unfold QuinLang.write at hs
  split at hs <;> cases hs
  exact h.quiet ⟨rfl, rfl, rfl, rfl⟩

theorem readLine (io : ProgramIO W) : Within R (QuinLang.readLine io : Exec W String) := by
  intro s a s' hs
  unfold QuinLang.readLine at hs
  split at hs <;> cases hs
  exact h.quiet ⟨rfl, rfl, rfl, rfl⟩

theorem fileWrite (io : ProgramIO W) (append : Bool) : Within R (QuinLang.fileWrite io append : Exec W Unit) := by
  refine h.bind h.pop fun data => h.bind (h.reads (reads_stringBytes data)) fun _ => ?_
  refine h.bind h.pop fun path => h.bind (h.reads (reads_stringText path)) fun _ => ?_
  exact h.bind (h.fileOp _) fun _ => h.push _ _

theorem memcpyLocals : Within R (QuinLang.memcpyLocals : Exec W Unit) := by
  refine h.bind h.popSigned fun count => h.bind h.popSigned fun src => h.bind h.popSigned fun dst => h.guarded ?_
  exact .forM h.refl h.trans (fun i => h.bind (h.reads (getLocal_reads _)) fun _ => h.setLocal _ _) _

theorem memsetLocals : Within R (QuinLang.memsetLocals : Exec W Unit) := by
  refine h.bind h.popSigned fun count => h.bind h.pop fun v => h.bind h.popSigned fun dst => h.guarded ?_
  exact .forM h.refl h.trans (fun i => h.setLocal _ _) _

theorem popArgs (n : ℕ) : Within R (QuinLang.popArgs n : Exec W (List ℕ)) := by
  induction n with
  | zero => exact h.pure _
  | succ n ih => exact h.bind h.pop fun _ => h.bind ih fun _ => h.pure _

theorem jumpTo (target : ℕ) : Within R (QuinLang.jumpTo target : Exec W Unit) := h.modifies fun _ => ⟨rfl, rfl, rfl, rfl⟩

theorem enterFunction (fnId : ℕ) (opName : String) : Within R (QuinLang.enterFunction P fnId opName : Exec W Unit) := by
  unfold QuinLang.enterFunction
  split
  · exact fault
  · exact h.bind (h.popArgs _) fun _ => h.modifies fun _ => ⟨rfl, rfl, rfl, rfl⟩

theorem return_ : Within R (QuinLang.return_ : Exec W (Option ℤ)) := by
  intro s a s' hs
  unfold QuinLang.return_ at hs
  split at hs
  · cases hs
  · split at hs <;> cases hs <;> exact h.quiet ⟨rfl, rfl, rfl, rfl⟩

end Operations

end HeapOnly

/-- A relation every heap operation of the machine keeps to. -/
structure Accounts (P : CompiledProgram) (R : VM W → VM W → Prop) : Prop extends HeapOnly R where
  collect : ∀ {s s'}, s.collect P = .ok s' → R s s'
  alloc : ∀ {s s'} {r : Request} {ref : ℕ}, s.allocate P r = .ok (ref, s') → R s s'
  /-- An array of the bytes of a file, filled as soon as it is made. -/
  filled : ∀ {s s'} {data : List UInt8} {ref : ℕ}, s.allocArray P data.length false = .ok (ref, s') →
    R s { s' with heap := writeElements ref data s'.heap }

/-- Instructions that write a word of the heap. -/
def Instruction.stores : Instruction → Bool
  | heapStore | heapStoreField _ | heapStoreFieldF _ | arraySet => true
  | _ => false

namespace Accounts

theorem allocString (h : Accounts P R) (data : List UInt8) : Within R (QuinLang.allocString P data : Exec W ℕ) :=
  fun _ _ _ hs => h.alloc (r := .string data) hs

theorem pushString (h : Accounts P R) (data : List UInt8) :
    Within R (QuinLang.allocString P data >>= fun a => QuinLang.push a true : Exec W Unit) :=
  h.bind (h.allocString _) fun _ => h.push _ _

theorem stringFromText (h : Accounts P R) (text what : String) : Within R (QuinLang.stringFromText P text what : Exec W ℕ) := by
  unfold QuinLang.stringFromText
  split
  · exact HeapOnly.fault
  · exact h.allocString _

/-- What a file's bytes become. -/
theorem pushBytes (h : Accounts P R) (data : List UInt8) :
    Within R ((fun s => s.allocArray P data.length false : Exec W ℕ) >>= fun ref => do
      modify fun s => { s with heap := writeElements ref data s.heap }
      QuinLang.push ref true) := by
  intro s a s' hs
  obtain ⟨ref, s₁, h₁, hs⟩ := bind_ok.mp hs
  obtain ⟨u, s₂, h₂, hs⟩ := bind_ok.mp hs
  cases h₂
  exact h.trans (h.filled h₁) (h.push _ _ _ _ _ hs)

section Execute

variable (F : FloatOps) (io : ProgramIO W)

/-- An instruction that is not a store touches the heap by allocating or collecting only. -/
theorem execute (h : Accounts P R) (i : Instruction) (hi : i.stores = false) : Within R (execute P F io i) := by
  have ofString {a : ℕ} : Within R (stringBytes a : Exec W (List UInt8)) := h.reads (reads_stringBytes a)
  have ofText {a : ℕ} : Within R (stringText a : Exec W String) := h.reads (reads_stringText a)
  have ofHeap {a : ℕ} : Within R (readHeap a : Exec W ℕ) := h.reads (reads_readHeap a)
  have ofCheck {a : ℕ} {what : String} : Within R (checkHeapWord a what : Exec W Unit) := h.reads (checkHeapWord_reads a what)
  have ofField {ref offset : ℕ} {doing what : String} : Within R (fieldAddr ref offset doing what : Exec W ℕ) :=
    h.reads (fieldAddr_reads ref offset doing what)
  have ofFormat {v : F.Fl} : Within R (formatFloat F v : Exec W String) := h.reads (reads_formatFloat F v)
  cases i with
  | heapStore | heapStoreField | heapStoreFieldF | arraySet => cases hi
  | pushInt n => exact h.push _ _
  | loadLocal slot => exact h.bind (h.reads (getLocal_reads _)) fun _ => h.bind h.get fun _ => h.push _ _
  | storeLocal slot => exact h.bind h.pop fun _ => h.setLocal _ _
  | add | sub => exact h.taggedBinary _
  | mul | xor | and | or => exact h.plainBinary _
  | div | mod => exact h.divide _ _
  | shl => exact h.shiftLeft
  | shr => exact h.shiftRight
  | neg | not | bitnot => exact h.bind h.pop fun _ => h.push _ _
  | pushFloat bits => exact h.pushRaw _
  | loadLocalF slot => exact h.bind (h.reads (localFloat_reads F _)) fun _ => h.pushFloat F _
  | storeLocalF slot => exact h.bind (h.popFloat F) fun _ => h.setLocalFloat F _ _
  | fadd | fsub | fmul => exact h.floatBinary F _
  | fdiv => exact h.bind (h.popFloat F) fun _ => h.bind (h.popFloat F) fun _ => h.guarded (h.pushFloat F _)
  | fneg => exact h.bind (h.popFloat F) fun _ => h.pushFloat F _
  | fcmp => exact h.bind (h.popFloat F) fun _ => h.bind (h.popFloat F) fun _ => h.push _ _
  | fFromInt => exact h.bind h.popSigned fun _ => h.pushFloat F _
  | fToInt =>
    refine h.bind (h.popFloat F) fun v => ?_
    split
    · exact HeapOnly.raise
    · exact h.guarded (h.push _ _)
  | cmpEq | cmpNe | cmpLt | cmpLe | cmpGt | cmpGe => exact h.compare _
  | loadStr sid | loadVariant typeId =>
    refine h.bind h.get fun s => ?_
    split
    · exact h.push _ _
    · exact HeapOnly.fault
  | strCmp => exact h.bind h.pop fun _ => h.bind ofString fun _ => h.bind h.pop fun _ => h.bind ofString fun _ => h.push _ _
  | strLen => exact h.bind h.pop fun _ => h.bind ofString fun _ => h.push _ _
  | strCharAt =>
    exact h.bind h.popSigned fun _ => h.bind h.pop fun _ => h.bind ofString fun _ => h.guarded (h.push _ _)
  | strConcat =>
    exact h.bind h.pop fun _ => h.bind ofString fun _ => h.bind h.pop fun _ => h.bind ofString fun _ => h.pushString _
  | strSlice =>
    refine h.bind h.popSigned fun _ => h.bind h.popSigned fun _ => h.bind h.pop fun _ => h.bind ofString fun _ => ?_
    exact h.guarded (h.pushString _)
  | strFromFloat =>
    refine h.bind (h.popFloat F) fun v => h.bind ofFormat fun text => ?_
    split
    · exact h.pushString _
    · exact HeapOnly.raise
  | strFromInt => exact h.bind h.popSigned fun _ => h.pushString _
  | strFromChar => exact h.bind h.popSigned fun _ => h.guarded (h.pushString _)
  | jmp target => exact h.jumpTo _
  | jz target | jnz target => exact h.bind h.pop fun _ => .ite (h.jumpTo _) (h.pure _)
  | call fn => exact h.enterFunction _ _
  | callIndirect => exact h.bind h.pop fun _ => h.enterFunction _ _
  | ret => exact h.pure _
  | boundsCheck length => exact h.bind (h.peek _) fun _ => .ite HeapOnly.fault (h.pure _)
  | loadLocalIdx slot | loadIndirect =>
    exact h.bind h.popSigned fun _ => h.bind (h.reads (getLocal_reads _)) fun _ => h.push _ _
  | storeLocalIdx slot => exact h.bind h.popSigned fun _ => h.bind h.pop fun _ => h.setLocal _ _
  | storeIndirect => exact h.bind h.pop fun _ => h.bind h.popSigned fun _ => h.setLocal _ _
  | memcpyLocals => exact h.memcpyLocals
  | memsetLocals => exact h.memsetLocals
  | pop => exact h.bind h.pop fun _ => h.pure _
  | dup => exact h.bind (h.peek _) fun _ => h.pushRaw _
  | swap => exact h.bind h.popTagged fun _ => h.bind h.popTagged fun _ => h.bind (h.pushRaw _) fun _ => h.pushRaw _
  | printFloat | printlnFloat => exact h.bind (h.popFloat F) fun _ => h.bind ofFormat fun _ => h.write io _
  | printInt | printlnInt => exact h.bind h.popSigned fun _ => h.write io _
  | printStr | printlnStr => exact h.bind h.pop fun _ => h.bind ofText fun _ => h.write io _
  | alloc => exact h.bind h.popSigned fun size => h.bind (fun _ _ _ hs => h.alloc (r := .raw size) hs) fun _ => h.push _ _
  | newArray holdsRefs =>
    exact h.bind h.popSigned fun n => h.bind (fun _ _ _ hs => h.alloc (r := .array n holdsRefs) hs) fun _ => h.push _ _
  | allocTyped typeId => exact h.bind (fun _ _ _ hs => h.alloc (r := .struct typeId) hs) fun _ => h.push _ _
  | tagOf =>
    refine h.bind h.pop fun ref => h.guarded (h.bind h.get fun s => ?_)
    split
    · exact h.guarded (h.push _ _)
    · exact HeapOnly.fault
  | readLine => exact h.bind (h.readLine io) fun _ => h.bind (h.stringFromText _ _) fun _ => h.push _ _
  | argc => exact h.bind h.get fun _ => h.push _ _
  | argv =>
    refine h.bind h.popSigned fun index => h.bind h.get fun s => h.guarded ?_
    exact h.bind (h.stringFromText _ _) fun _ => h.push _ _
  | fileRead =>
    refine h.bind h.pop fun _ => h.bind ofText fun path => h.bind (h.fileOp _) fun content => ?_
    cases content with
    | some content => exact h.bind (h.reads (bytesFromIo_reads _ _)) fun data => h.pushString _
    | none => exact h.pushString _
  | fileWrite | fileAppend => exact h.fileWrite io _
  | fileExists | fileDelete => exact h.bind h.pop fun _ => h.bind ofText fun _ => h.bind (h.fileOp _) fun _ => h.push _ _
  | fileError => exact h.bind h.get fun _ => h.bind (h.stringFromText _ _) fun _ => h.push _ _
  | fileReadBytes =>
    refine h.bind h.pop fun _ => h.bind ofText fun path => h.bind (h.fileOp _) fun content => ?_
    cases content with
    | some content => exact h.bind (h.reads (bytesFromIo_reads _ _)) fun data => h.pushBytes data
    | none => exact h.bind (h.pure _) fun data => h.pushBytes data
  | fileWriteBytes =>
    refine h.bind h.pop fun ref => h.bind (h.reads (arrayBytes_reads ref _)) fun data => ?_
    exact h.bind h.pop fun _ => h.bind ofText fun _ => h.bind (h.fileOp _) fun _ => h.push _ _
  | gc =>
    intro s a s' hs
    cases hc : s.collect P with
    | error e =>
      simp only [QuinLang.execute, hc] at hs
      cases hs
    | ok t =>
      simp only [QuinLang.execute, hc] at hs
      cases hs
      exact h.collect hc
  | panic => exact h.bind h.pop fun _ => h.bind ofText fun _ => HeapOnly.fault
  | arrayLen => exact h.bind h.pop fun ref => h.bind (h.reads (reads_arrayAt ref _)) fun _ => h.push _ _
  | arrayGet =>
    refine h.bind h.popSigned fun index => h.bind h.pop fun ref => ?_
    exact h.bind (h.reads (elementAddr_reads ref index _)) fun r => h.bind ofHeap fun _ => h.push _ _
  | heapLoad => exact h.bind h.pop fun _ => h.guarded (h.bind ofCheck fun _ => h.bind ofHeap fun _ => h.push _ _)
  | heapLoadField offset =>
    refine h.bind h.pop fun ref => h.bind ofField fun addr => h.bind ofHeap fun v => ?_
    exact h.bind (h.reads (fieldIsRef_reads P ref offset)) fun _ => h.push _ _
  | heapLoadFieldF offset =>
    refine h.bind h.pop fun ref => h.bind ofField fun addr => h.bind ofCheck fun _ => ?_
    exact h.bind ofHeap fun lo => h.bind ofHeap fun hi => h.pushFloat F _

/-- A turn of the loop that runs no store keeps to the relation. -/
theorem step (h : Accounts P R) {s s' : VM W} (hstep : s.step P F io = .ok (.running s'))
    (hi : ∀ i, P.code[s.pc]? = some i → i.stores = false) : R s s' := by
  have hpc : R s { s with pc := s.pc + 1 } := h.quiet ⟨rfl, rfl, rfl, rfl⟩
  unfold VM.step at hstep
  split at hstep
  · cases hstep
  · split at hstep <;> cases hstep
    rename_i hr
    exact h.trans hpc (h.return_ _ _ _ hr)
  · rename_i i hne hcode
    split at hstep <;> cases hstep
    rename_i u hx
    exact h.trans hpc (h.execute F io _ (hi _ hcode) _ _ _ hx)

theorem fillLiterals (h : Accounts P R) (texts : List (ℕ × String)) {s s' : VM W}
    (hf : s.fillLiterals P texts = .ok s') : R s s' := by
  induction texts generalizing s with
  | nil =>
    cases hf
    exact h.refl _
  | cons entry rest ih =>
    obtain ⟨sid, text⟩ := entry
    rw [VM.fillLiterals] at hf
    split at hf
    · cases hf
    · split at hf
      · cases hf
      · rename_i addr s₁ hal
        have hset : R s₁ { s₁ with literals := s₁.literals.set sid addr } := h.quiet ⟨rfl, rfl, rfl, rfl⟩
        exact h.trans (h.alloc (r := .string _) hal) (h.trans hset (ih hf))

theorem fillVariants (h : Accounts P R) (layouts : List (Option StructLayout)) {typeId : ℕ} {s s' : VM W}
    (hf : s.fillVariants P typeId layouts = .ok s') : R s s' := by
  induction layouts generalizing s typeId with
  | nil =>
    cases hf
    exact h.refl _
  | cons layout rest ih =>
    rw [VM.fillVariants] at hf
    split at hf
    · split at hf
      · cases hf
      · rename_i addr s₁ hal
        have hset : R s₁ { s₁ with variants := s₁.variants.set typeId addr } := h.quiet ⟨rfl, rfl, rfl, rfl⟩
        exact h.trans (h.alloc (r := .struct typeId) hal) (h.trans hset (ih hf))
    · exact ih hf

theorem materialiseLiterals (h : Accounts P R) {s s' : VM W} (hm : s.materialiseLiterals P = .ok s') : R s s' := by
  unfold VM.materialiseLiterals at hm
  dsimp only at hm
  set s₀ : VM W := { s with literals := _ } with hs₀
  have hset : R s s₀ := h.quiet ⟨rfl, rfl, rfl, rfl⟩
  exact h.trans hset (h.fillLiterals _ hm)

theorem materialiseVariants (h : Accounts P R) {s s' : VM W} (hm : s.materialiseVariants P = .ok s') : R s s' := by
  unfold VM.materialiseVariants at hm
  set s₀ : VM W := { s with variants := _ } with hs₀
  have hset : R s s₀ := h.quiet ⟨rfl, rfl, rfl, rfl⟩
  exact h.trans hset (h.fillVariants _ hm)

/-- From the constructor to the first instruction. -/
theorem start (h : Accounts P R) {args : List String} {w : W} {s : VM W} (hs : VM.start P args w = .ok s) :
    R (VM.fresh args w) s := by
  unfold VM.start at hs
  split at hs
  · cases hs
  · split at hs
    · cases hs
    · rename_i s₁ hl
      split at hs
      · cases hs
      · rename_i s₂ hv
        cases hs
        exact h.trans (h.materialiseLiterals hl) (h.trans (h.materialiseVariants hv) (h.quiet ⟨rfl, rfl, rfl, rfl⟩))

end Execute

end Accounts

/-- Everything about the heap but its bytes is as it was. -/
structure SameShape (s s' : VM W) : Prop where
  heapPtr : s'.heapPtr = s.heapPtr
  heapSize : s'.heapSize = s.heapSize
  stats : s'.stats = s.stats

theorem sameShape_heapOnly : HeapOnly (SameShape (W := W)) where
  trans := fun h h' => ⟨h'.heapPtr.trans h.heapPtr, h'.heapSize.trans h.heapSize, h'.stats.trans h.stats⟩
  quiet := fun h => ⟨h.heapPtr, h.heapSize, h.stats⟩

theorem writeHeap_within (addr v : ℕ) : Within SameShape (writeHeap addr v : Exec W Unit) := by
  intro s a s' hs
  unfold writeHeap at hs
  obtain ⟨s₁, s₂, hget, hs⟩ := bind_ok.mp hs
  obtain ⟨rfl, rfl⟩ := Prod.mk.inj (get_ok.mp hget)
  split at hs <;> cases hs
  exact ⟨rfl, rfl, rfl⟩

/-- A store writes bytes of the heap and changes nothing else about it. -/
theorem store_within (F : FloatOps) (io : ProgramIO W) (i : Instruction) (hi : i.stores = true) :
    Within SameShape (execute P F io i) := by
  have h := sameShape_heapOnly (W := W)
  have ofField {ref offset : ℕ} {doing what : String} : Within SameShape (fieldAddr ref offset doing what : Exec W ℕ) :=
    h.reads (fieldAddr_reads ref offset doing what)
  have ofCheck {a : ℕ} {what : String} : Within SameShape (checkHeapWord a what : Exec W Unit) :=
    h.reads (checkHeapWord_reads a what)
  cases i with
  | heapStore =>
    exact h.bind h.pop fun _ => h.bind h.pop fun _ => h.guarded (h.bind ofCheck fun _ => writeHeap_within _ _)
  | heapStoreField offset => exact h.bind h.pop fun _ => h.bind h.pop fun _ => h.bind ofField fun _ => writeHeap_within _ _
  | heapStoreFieldF offset =>
    refine h.bind (h.popFloat F) fun v => h.bind (h.reads (floatToBits_reads F v)) fun bits => h.bind h.pop fun ref => ?_
    refine h.bind ofField fun addr => h.bind ofCheck fun _ => ?_
    exact h.bind (writeHeap_within _ _) fun _ => writeHeap_within _ _
  | arraySet =>
    refine h.bind h.pop fun v => h.bind h.popSigned fun index => h.bind h.pop fun ref => ?_
    exact h.bind (h.reads (elementAddr_reads ref index _)) fun r => writeHeap_within _ _
  | _ => cases hi

/-- A turn of the loop that runs a store keeps the shape of the heap. -/
theorem store_shape {F : FloatOps} {io : ProgramIO W} {s s' : VM W} {i : Instruction}
    (hstep : s.step P F io = .ok (.running s')) (hcode : P.code[s.pc]? = some i) (hi : i.stores = true) : SameShape s s' := by
  unfold VM.step at hstep
  rw [hcode] at hstep
  split at hstep
  · cases hstep
  · rename_i heq
    cases heq
    cases hi
  · rename_i j hne heq
    cases heq
    split at hstep <;> cases hstep
    rename_i u hx
    have hpc : SameShape s { s with pc := s.pc + 1 } := ⟨rfl, rfl, rfl⟩
    exact sameShape_heapOnly.trans hpc (store_within F io i hi _ _ _ hx)

/-- Filling the payload of a new array leaves every header alone. -/
theorem writeElements_frame {ref x : ℕ} {data : List UInt8} {m : ByteMem.Mem} (hx : x < ref) : writeElements ref data m x = m x := by
  induction data generalizing ref m with
  | nil => rfl
  | cons b rest ih => rw [writeElements, ih (by omega), ByteMem.writeWord_frame _ (Or.inl hx)]

theorem keepsBooks_accounts (hP : TablesOk P) : Accounts P (KeepsBooks (W := W) P) where
  trans := KeepsBooks.trans
  quiet := by
    intro s s' hq bs hb
    rw [hq.stats]
    refine ⟨⟨bs, hb.write ?_ hq.heapPtr hq.heapSize hq.stats⟩, .refl _⟩
    rw [hq.heap]
    exact fun _ _ => .refl _ _ _
  collect := collect_keepsBooks hP.stackMaps
  alloc := allocate_keepsBooks hP
  filled := by
    intro s s' data ref hok bs hb
    -- the array is the last block, so what is written lies above every header
    obtain ⟨s₁, bs₁, hset, hal⟩ := allocate_ok (r := .array data.length false) hP hb.tiled hb.capacity hok
    obtain ⟨h₁, hg⟩ := hb.settled hP hset
    obtain ⟨h₂, hg'⟩ := h₁.allocated hal
    refine ⟨⟨_, h₂.write ?_ rfl rfl rfl⟩, hg.trans hg'⟩
    intro b hb' x hl hr
    refine (writeElements_frame ?_).symm
    rw [hal.ref_eq]
    rcases List.mem_append.mp hb' with hb' | hb'
    · have := h₁.tiled.blocks.bounds hb'
      omega
    · rw [List.mem_singleton.mp hb'] at hr
      exact hr

/-- One turn of the loop that goes on; a store, if it runs one, leaves every block header as
it was. -/
structure Orderly (P : CompiledProgram) (F : FloatOps) (io : ProgramIO W) (s s' : VM W) : Prop where
  step : s.step P F io = .ok (.running s')
  headers : ∀ i bs, P.code[s.pc]? = some i → i.stores = true → s.blocks P = .ok bs → HeadersAgree bs s.heap s'.heap

theorem Orderly.keepsBooks (hP : TablesOk P) {F : FloatOps} {io : ProgramIO W} {s s' : VM W} (h : Orderly P F io s s') :
    KeepsBooks P s s' := by
  by_cases hi : ∀ i, P.code[s.pc]? = some i → i.stores = false
  · exact (keepsBooks_accounts hP).step F io h.step hi
  · -- a store
    push Not at hi
    obtain ⟨i, hcode, hi⟩ := hi
    rw [Bool.ne_false_iff] at hi
    intro bs hb
    have ha := h.headers i bs hcode hi hb.tiled.blocks.blocksFrom
    obtain ⟨hptr, hcap, hstats⟩ := store_shape h.step hcode hi
    exact ⟨⟨bs, hb.write ha hptr hcap hstats⟩, by rw [hstats]; exact .refl _⟩

theorem keepsBooks_run (hP : TablesOk P) {F : FloatOps} {io : ProgramIO W} {s s' : VM W}
    (run : ReflTransGen (Orderly P F io) s s') : KeepsBooks P s s' := by
  induction run with
  | refl => exact (keepsBooks_accounts hP).refl s
  | tail _ hstep ih => exact ih.trans (hstep.keepsBooks hP)

/-- The books balance after every orderly run of a program from its start, and between any two
states of the run no counter goes back. -/
theorem books_balance (hP : TablesOk P) {F : FloatOps} {io : ProgramIO W} {args : List String} {w : W} {s₀ s s' : VM W}
    (hstart : VM.start P args w = .ok s₀) (run : ReflTransGen (Orderly P F io) s₀ s) (run' : ReflTransGen (Orderly P F io) s s') :
    (∃ bs, HeapSound P s bs ∧ s.stats.objectsAllocated = s.stats.objectsFreed + bs.length ∧
      HEAP_START + (HEADER_BYTES + MIN_PAYLOAD) * s.stats.objectsAllocated ≤ s.stats.bytesFreed + s.heapPtr) ∧
    s.stats.Grown s'.stats := by
  obtain ⟨⟨bs₀, h₀⟩, -⟩ := (keepsBooks_accounts hP).start hstart [] (fresh_booked args w)
  obtain ⟨⟨bs, h⟩, -⟩ := keepsBooks_run hP run bs₀ h₀
  obtain ⟨-, hg⟩ := keepsBooks_run hP run' bs h
  exact ⟨⟨bs, h.tiled.sound hP h.capacity, h.objects, h.bytes⟩, hg⟩

/-- Makes a node, stores a word in it and makes another. -/
def storingProgram : CompiledProgram :=
  ⟨[.allocTyped 0, .pushInt 7, .heapStoreField 0, .allocTyped 0, .ret], [⟨"main", 0, 0, 0, [], [], [], ""⟩], [],
    [some ⟨"Node", 2, [1], [], false⟩], {}⟩

theorem storingProgram_tablesOk : TablesOk storingProgram := by
  refine ⟨fun o ho => ⟨_, List.mem_singleton.mp ho, by decide, by decide⟩, by decide, ?_⟩
  intro fn hfn
  rw [List.mem_singleton.mp hfn]
  exact List.nodup_nil

/-- After the store, and one instruction later. -/
theorem storing_balanced : ∃ s₀ s s', VM.start storingProgram [] [] = .ok s₀ ∧
    ReflTransGen (Orderly storingProgram zeroFloats transcript) s₀ s ∧ Orderly storingProgram zeroFloats transcript s s' ∧
    s.stats.objectsAllocated = 1 ∧ s'.stats.objectsAllocated = 2 ∧
    (∃ bs, HeapSound storingProgram s bs ∧ s.stats.objectsAllocated = s.stats.objectsFreed + bs.length ∧
      HEAP_START + (HEADER_BYTES + MIN_PAYLOAD) * s.stats.objectsAllocated ≤ s.stats.bytesFreed + s.heapPtr) ∧
    s.stats.Grown s'.stats := by
  obtain ⟨s₀, s₁, s₂, s₃, s₄, hstart, h₁, h₂, h₃, h₄, hpc₀, hpc₁, hpc₂, hpc₃, hstats, ⟨v, hv⟩, hcount, hcount'⟩ : ∃ s₀ s₁ s₂ s₃ s₄,
      VM.start storingProgram [] [] = .ok s₀ ∧ s₀.step storingProgram zeroFloats transcript = .ok (.running s₁) ∧
      s₁.step storingProgram zeroFloats transcript = .ok (.running s₂) ∧
      s₂.step storingProgram zeroFloats transcript = .ok (.running s₃) ∧
      s₃.step storingProgram zeroFloats transcript = .ok (.running s₄) ∧ s₀.pc = 0 ∧ s₁.pc = 1 ∧ s₂.pc = 2 ∧ s₃.pc = 3 ∧
      s₂.stats = { objectsAllocated := 1 } ∧ (∃ v, s₃.heap = ByteMem.writeWord s₂.heap (HEAP_START + HEADER_BYTES) v) ∧
      s₃.stats.objectsAllocated = 1 ∧ s₄.stats.objectsAllocated = 2 :=
    ⟨_, _, _, _, _, rfl, rfl, rfl, rfl, rfl, rfl, rfl, rfl, rfl, rfl, ⟨_, rfl⟩, rfl, rfl⟩
  have quiet {s s' : VM (List String)} (hs : s.step storingProgram zeroFloats transcript = .ok (.running s'))
      (hi : ∀ i, storingProgram.code[s.pc]? = some i → i.stores = false) : Orderly storingProgram zeroFloats transcript s s' := by
    refine ⟨hs, fun i bs hcode hstores => ?_⟩
    rw [hi i hcode] at hstores
    cases hstores
  have run₂ : ReflTransGen (Orderly storingProgram zeroFloats transcript) s₀ s₂ := by
    refine (ReflTransGen.single (quiet h₁ ?_)).tail (quiet h₂ ?_)
    · rw [hpc₀]
      rintro i hi
      cases hi
      rfl
    · rw [hpc₁]
      rintro i hi
      cases hi
      rfl
  have hstore : Orderly storingProgram zeroFloats transcript s₂ s₃ := by
    refine ⟨h₃, fun i bs _ _ hwalk => ?_⟩
    obtain ⟨⟨bs', hsound, hobjects, -⟩, -⟩ := books_balance storingProgram_tablesOk hstart run₂ .refl
    obtain rfl : bs' = bs := Except.ok.inj (hsound.walk.symm.trans hwalk)
    rw [hstats] at hobjects
    -- the only block is the first, and the word written is the first of its payload
    obtain ⟨b, rfl⟩ := List.length_eq_one_iff.mp (by simpa using hobjects.symm)
    have htiles := hsound.tiled.blocks.tiles
    cases htiles
    intro b hb x hl hr
    rw [List.mem_singleton.mp hb] at hr
    rw [hv, ByteMem.writeWord_frame _ (Or.inl hr)]
  have hnext : Orderly storingProgram zeroFloats transcript s₃ s₄ := by
    refine quiet h₄ ?_
    rw [hpc₃]
    rintro i hi
    cases hi
    rfl
  have run := run₂.tail hstore
  exact ⟨s₀, s₃, s₄, hstart, run, hnext, hcount, hcount', books_balance storingProgram_tablesOk hstart run (.single hnext)⟩

end QuinLang
