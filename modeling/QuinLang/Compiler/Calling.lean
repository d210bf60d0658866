import QuinLang.Compiler.AsmRuns
import QuinLang.Runtime.FloatText

/-! Calls: the slots into which the interpreter spreads the arguments are the slots of the
parameters in the callee's layout. -/

namespace QuinLang

open StateExcept

section Scattering

variable {widths vs locals : List ℕ} {slot : ℕ}

/-- The slots of one argument. -/
def fillSlots (width v slot : ℕ) (locals : List ℕ) : List ℕ :=
  if width = 2 then
    if slot + 1 < locals.length then (locals.set slot (word v)).set (slot + 1) (word (v >>> 16)) else locals
  else locals.set slot (word v)

theorem length_fillSlots (width v slot : ℕ) (locals : List ℕ) : (fillSlots width v slot locals).length = locals.length := by
  unfold fillSlots
  split_ifs <;> simp

theorem scatter_succ (w : ℕ) (widths vs : List ℕ) (i slot : ℕ) (locals : List ℕ) :
    scatter (w :: widths) vs (i + 1) slot locals = scatter widths vs i slot locals := by
  induction vs generalizing i slot locals with
  | nil => rfl
  | cons v vs ih =>
    rw [scatter, scatter, ih]
    rfl

theorem scatter_cons (w v : ℕ) (widths vs : List ℕ) (slot : ℕ) (locals : List ℕ) :
    scatter (w :: widths) (v :: vs) 0 slot locals = scatter widths vs 0 (slot + w) (fillSlots w v slot locals) := by
  rw [scatter, scatter_succ]
  rfl

theorem fillSlots_frame {w k : ℕ} (v : ℕ) (hw : w = 1 ∨ w = 2) (hk : k < slot ∨ slot + w ≤ k) :
    (fillSlots w v slot locals)[k]? = locals[k]? := by
  unfold fillSlots
  split
  · split
    · rw [List.getElem?_set_ne (by omega), List.getElem?_set_ne (by omega)]
    · rfl
  · rw [List.getElem?_set_ne (by omega)]

/-- Slots outside those of the arguments are kept. -/
theorem scatter_frame {k : ℕ} (hlen : widths.length = vs.length) (hwidths : ∀ w ∈ widths, w = 1 ∨ w = 2)
    (hk : k < slot ∨ slot + widths.sum ≤ k) : (scatter widths vs 0 slot locals)[k]? = locals[k]? := by
  induction vs generalizing widths slot locals with
  | nil => rfl
  | cons v vs ih =>
    cases widths with
    | nil => cases hlen
    | cons w widths =>
      rw [List.sum_cons] at hk
      have hw := hwidths w List.mem_cons_self
      rw [scatter_cons, ih (Nat.succ.inj hlen) (fun w' h' => hwidths w' (List.mem_cons_of_mem w h')) (by omega),
        fillSlots_frame v hw (by omega)]

/-- Each argument is in the slots that start where the widths before its own end. -/
theorem scatter_at {i v w : ℕ} (hlen : widths.length = vs.length) (hwidths : ∀ w ∈ widths, w = 1 ∨ w = 2)
    (hroom : slot + widths.sum ≤ locals.length) (hv : vs[i]? = some v) (hw : widths[i]? = some w) :
    (scatter widths vs 0 slot locals)[slot + (widths.take i).sum]? = some (word v) ∧
      (w = 2 → (scatter widths vs 0 slot locals)[slot + (widths.take i).sum + 1]? = some (word (v >>> 16))) := by
  induction vs generalizing widths slot locals i with
  | nil => simp at hv
  | cons first vs ih =>
    cases widths with
    | nil => cases hlen
    | cons w' widths =>
      rw [List.sum_cons] at hroom
      have hrest : ∀ w ∈ widths, w = 1 ∨ w = 2 := fun w h => hwidths w (List.mem_cons_of_mem w' h)
      have hfirst := hwidths w' List.mem_cons_self
      rw [scatter_cons]
      cases i with
      | zero =>
        cases hv
        cases hw
        rw [List.take_zero, List.sum_nil, Nat.add_zero]
        constructor
        · rw [scatter_frame (Nat.succ.inj hlen) hrest (by omega), fillSlots]
          split
          · rw [if_pos (by omega), List.getElem?_set_ne (by omega), List.getElem?_set_self (by omega)]
          · rw [List.getElem?_set_self (by omega)]
        · rintro rfl
          rw [scatter_frame (Nat.succ.inj hlen) hrest (by omega), fillSlots, if_pos rfl, if_pos (by omega),
            List.getElem?_set_self (by rw [List.length_set]; omega)]
      | succ i =>
        rw [List.take_succ_cons, List.sum_cons, ← Nat.add_assoc]
        refine ih (Nat.succ.inj hlen) hrest ?_ hv hw
        rw [length_fillSlots]
        omega

/-- Widths one after another leave no gap. -/
theorem exists_width {widths : List ℕ} {k : ℕ} (h : k < widths.sum) :
    ∃ i w : ℕ, widths[i]? = some w ∧ (widths.take i).sum ≤ k ∧ k < (widths.take i).sum + w := by
  induction widths generalizing k with
  | nil => cases h
  | cons w widths ih =>
    rw [List.sum_cons] at h
    obtain hlt | hge := lt_or_ge k w
    · exact ⟨0, w, rfl, Nat.zero_le _, by simpa using hlt⟩
    · obtain ⟨i, w', hw', hle, hlt⟩ := ih (show k - w < widths.sum by omega)
      refine ⟨i + 1, w', hw', ?_, ?_⟩
      · rw [List.take_succ_cons, List.sum_cons]
        omega
      · rw [List.take_succ_cons, List.sum_cons]
        omega

end Scattering

section Slots

variable {frame : List Symbol} {next i j : ℕ} {sym sym' : Symbol} {slot slot' : LocalSlot}

theorem assignSlots_index (h : frame[i]? = some sym) :
    (assignSlots next frame)[i]? = some ⟨next + ((frame.take i).map fun sym => sym.type.slotWidth).sum, sym.type.arrayLength⟩ := by
  induction frame generalizing next i with
  | nil => cases h
  | cons first frame ih =>
    cases i with
    | zero =>
      cases h
      rfl
    | succ i =>
      rw [assignSlots, List.getElem?_cons_succ, ih h, List.take_succ_cons, List.map_cons, List.sum_cons, Nat.add_assoc]

/-- The slots of two variables are apart. -/
theorem assignSlots_lt (hlt : i < j) (hsym : frame[i]? = some sym) (hsym' : frame[j]? = some sym')
    (hslot : (assignSlots next frame)[i]? = some slot) (hslot' : (assignSlots next frame)[j]? = some slot') :
    slot.index + sym.type.slotWidth ≤ slot'.index := by
  rw [assignSlots_index hsym] at hslot
  rw [assignSlots_index hsym'] at hslot'
  cases hslot
  cases hslot'
  have htake : ((frame.take (i + 1)).map fun sym => sym.type.slotWidth).Sublist ((frame.take j).map fun sym => sym.type.slotWidth) :=
    (List.take_sublist_take_left (by omega)).map _
  have hle := htake.sum_le_sum fun _ _ => Nat.zero_le _
  rw [List.take_add_one, hsym, Option.toList_some, List.map_append, List.sum_append, List.map_singleton, List.sum_singleton] at hle
  dsimp only
  omega

theorem mem_refSlots {fn : TFunction} {k : ℕ} : k ∈ (buildLayout fn).refSlots ↔
    ∃ (i : ℕ) (sym : Symbol) (slot : LocalSlot), fn.frame[i]? = some sym ∧ (buildLayout fn).slots[i]? = some slot ∧ sym.type.isReference = true ∧ slot.index = k := by
  have hzip : ∀ p : Symbol × LocalSlot, p ∈ fn.frame.zip (assignSlots 0 fn.frame) ↔
      ∃ i : ℕ, fn.frame[i]? = some p.1 ∧ (assignSlots 0 fn.frame)[i]? = some p.2 := by
    intro p
    rw [List.mem_iff_getElem?]
    refine exists_congr fun i => ?_
    rw [List.getElem?_zip_eq_some]
  simp only [buildLayout, List.mem_filterMap, hzip]
  constructor
  · rintro ⟨⟨sym, slot⟩, ⟨i, hsym, hslot⟩, h⟩
    split at h
    · next href =>
      cases h
      exact ⟨i, sym, slot, hsym, hslot, href, rfl⟩
    · cases h
  · rintro ⟨i, sym, slot, hsym, hslot, href, rfl⟩
    exact ⟨(sym, slot), ⟨i, hsym, hslot⟩, by rw [if_pos href]⟩

end Slots

section Entering

variable {W : Type} {P : CompiledProgram} {s : VM W} {args rest : List Entry} {f : ℕ} {name : String}

/-- The arguments come off the stack last first, and are put back in order. -/
theorem popArgs_eq (hstack : s.stack = args.reverse ++ rest) (hbase : s.frameBase ≤ rest.length) :
    popArgs args.length s = .ok (args.map Entry.value, { s with stack := rest }) := by
  induction args using List.reverseRecOn generalizing s with
  | nil =>
    rw [List.reverse_nil, List.nil_append] at hstack
    rw [← hstack]
    rfl
  | append_singleton args e ih =>
    rw [List.reverse_append, List.reverse_singleton, List.singleton_append, List.cons_append] at hstack
    have hpop := pop_eq hstack (hbase.trans (by rw [List.length_append]; omega))
    rw [List.length_append, List.length_singleton, popArgs, bind_eq hpop,
      bind_eq (ih (s := { s with stack := args.reverse ++ rest }) rfl hbase), List.map_append]
    rfl

theorem enterFunction_eq {fn : FunctionInfo} (hf : P.functions[f]? = some fn) (hstack : s.stack = args.reverse ++ rest)
    (hbase : s.frameBase ≤ rest.length) (hargs : args.length = fn.numParams) :
    enterFunction P f name s = .ok ((), { s with
      stack := rest
      callStack := ⟨s.pc, s.locals, s.frameBase, s.currentFn⟩ :: s.callStack
      currentFn := f
      locals := scatter fn.paramWords (args.map Entry.value) 0 0 (List.replicate fn.numLocals 0)
      frameBase := rest.length
      pc := fn.entryPc }) := by
  unfold enterFunction
  simp only [hf]
  rw [← hargs, bind_eq (popArgs_eq hstack hbase)]
  rfl

/-- The two words of a pattern make it up again. -/
theorem words_or (v : ℕ) : v % 65536 ||| (v / 65536) <<< 16 = v := by
  rw [Nat.or_comm, ← Nat.shiftLeft_add_eq_or_of_lt (show v % 65536 < 2 ^ 16 by omega), Nat.shiftLeft_eq]
  omega

theorem wordCount_cases (t : Ty) : t.wordCount = 1 ∨ t.wordCount = 2 := by
  unfold Ty.wordCount
  split_ifs
  · exact .inr rfl
  · exact .inl rfl

variable {fn : TFunction} {entryPc : ℕ}

/-- The widths of the parameters, as the layout has them and as a call adds them up. -/
theorem slotWidth_parameters (hplain : ∀ sym ∈ fn.frame.take fn.numParams, sym.type.arrayLength = 0) :
    ((fn.frame.take fn.numParams).map fun sym => sym.type.slotWidth) = (buildLayout fn).paramWords := by
  refine List.map_congr_left fun sym hsym => ?_
  rw [Ty.slotWidth, hplain sym hsym]
  rfl

theorem slot_of_parameter (hplain : ∀ sym ∈ fn.frame.take fn.numParams, sym.type.arrayLength = 0) {i : ℕ} {sym : Symbol}
    {slot : LocalSlot} (hi : i < fn.numParams) (hsym : fn.frame[i]? = some sym) (hslot : (buildLayout fn).slots[i]? = some slot) :
    slot.index = ((buildLayout fn).paramWords.take i).sum ∧ (buildLayout fn).paramWords[i]? = some sym.type.wordCount := by
  have hindex : (assignSlots 0 fn.frame)[i]? = some slot := hslot
  rw [assignSlots_index hsym] at hindex
  cases hindex
  constructor
  · rw [← slotWidth_parameters hplain, ← List.map_take, List.take_take, Nat.min_eq_left hi.le, Nat.zero_add]
  · simp [buildLayout, List.getElem?_take_of_lt hi, hsym]

/-- All the parameters fit in the frame. -/
theorem sum_paramWords_le (hplain : ∀ sym ∈ fn.frame.take fn.numParams, sym.type.arrayLength = 0) :
    (buildLayout fn).paramWords.sum ≤ (buildLayout fn).numLocals := by
  rw [← slotWidth_parameters hplain]
  exact ((List.take_sublist _ _).map _).sum_le_sum fun _ _ => Nat.zero_le _

/-- A slot of a variable of one word or two is one of references just if its type is. -/
theorem mem_refSlots_iff {i j : ℕ} {sym : Symbol} {slot : LocalSlot} (hsym : fn.frame[i]? = some sym)
    (hslot : (buildLayout fn).slots[i]? = some slot) (hj : j < sym.type.slotWidth) (href : sym.type.isReference = true → j = 0) :
    slot.index + j ∈ (buildLayout fn).refSlots ↔ sym.type.isReference = true := by
  rw [mem_refSlots]
  constructor
  · rintro ⟨k, sym', slot', hsym', hslot', href', hindex⟩
    obtain hlt | rfl | hgt := lt_trichotomy i k
    · have := assignSlots_lt hlt hsym hsym' hslot hslot'
      omega
    · rw [hsym] at hsym'
      cases hsym'
      exact href'
    · have := assignSlots_lt hgt hsym' hsym hslot' hslot
      have := slotWidth_pos sym'.type
      omega
  · intro h
    exact ⟨i, sym, slot, hsym, hslot, h, by rw [href h, Nat.add_zero]⟩

theorem getLocal_of_getElem? {t : VM W} {k v : ℕ} (h : t.locals[k]? = some v) : getLocal (k : ℤ) t = .ok (v, t) := by
  obtain ⟨hk, hv⟩ := List.getElem?_eq_some_iff.mp h
  rw [getLocal_eq hk, List.getD_eq_getElem _ _ hk, hv]

/-- The frame a call starts in. -/
def enteredLocals (fn : TFunction) (args : List Entry) : List ℕ :=
  scatter (buildLayout fn).paramWords (args.map Entry.value) 0 0 (List.replicate (buildLayout fn).numLocals 0)

theorem length_enteredLocals (fn : TFunction) (args : List Entry) : (enteredLocals fn args).length = (buildLayout fn).numLocals := by
  rw [enteredLocals, length_scatter, List.length_replicate]

theorem length_paramWords (hparams : fn.numParams ≤ fn.frame.length) : (buildLayout fn).paramWords.length = fn.numParams := by
  simp [buildLayout, hparams]

theorem paramWords_cases {w : ℕ} (hw : w ∈ (buildLayout fn).paramWords) : w = 1 ∨ w = 2 := by
  obtain ⟨sym, -, rfl⟩ := List.mem_map.mp hw
  exact wordCount_cases sym.type

section Layout

variable (hparams : fn.numParams ≤ fn.frame.length) (hplain : ∀ sym ∈ fn.frame.take fn.numParams, sym.type.arrayLength = 0)
  (hargs : args.length = fn.numParams)
include hparams hplain hargs

theorem enteredLocals_parameter {i : ℕ} {sym : Symbol} {arg : Entry} {slot : LocalSlot} (hsym : fn.frame[i]? = some sym)
    (harg : args[i]? = some arg) (hslot : (buildLayout fn).slots[i]? = some slot) :
    (enteredLocals fn args)[slot.index]? = some (word arg.value) ∧
      (sym.type.wordCount = 2 → (enteredLocals fn args)[slot.index + 1]? = some (word (arg.value >>> 16))) := by
  have hi : i < fn.numParams := hargs ▸ (List.getElem?_eq_some_iff.mp harg).1
  obtain ⟨hindex, hwidth⟩ := slot_of_parameter hplain hi hsym hslot
  have hlen : (buildLayout fn).paramWords.length = (args.map Entry.value).length := by
    rw [length_paramWords hparams, List.length_map, hargs]
  have hroom : 0 + (buildLayout fn).paramWords.sum ≤ (List.replicate (buildLayout fn).numLocals 0).length := by
    rw [List.length_replicate, Nat.zero_add]
    exact sum_paramWords_le hplain
  have hat := scatter_at hlen (fun w hw => paramWords_cases hw) hroom (by rw [List.getElem?_map, harg]; rfl) hwidth
  rw [Nat.zero_add, ← hindex] at hat
  exact hat

theorem enteredLocals_zero {k : ℕ} (hk : k < (buildLayout fn).numLocals)
    (hother : ∀ (i : ℕ) (sym : Symbol) (slot : LocalSlot), i < fn.numParams → fn.frame[i]? = some sym →
      (buildLayout fn).slots[i]? = some slot → k < slot.index ∨ slot.index + sym.type.wordCount ≤ k) :
    (enteredLocals fn args)[k]? = some 0 := by
  have hlen : (buildLayout fn).paramWords.length = (args.map Entry.value).length := by
    rw [length_paramWords hparams, List.length_map, hargs]
  have hge : (buildLayout fn).paramWords.sum ≤ k := by
    by_contra hlt
    obtain ⟨i, w, hw, hle, hlt⟩ := exists_width (not_le.mp hlt)
    have hi : i < fn.numParams := by
      rw [← length_paramWords hparams]
      exact (List.getElem?_eq_some_iff.mp hw).1
    obtain ⟨sym, hsym⟩ : ∃ sym, fn.frame[i]? = some sym := ⟨_, List.getElem?_eq_getElem (hi.trans_le hparams)⟩
    obtain ⟨hindex, hwidth⟩ := slot_of_parameter hplain hi hsym (assignSlots_index hsym)
    rw [hw] at hwidth
    cases hwidth
    have := hother i sym _ hi hsym (assignSlots_index hsym)
    omega
  rw [enteredLocals, scatter_frame hlen (fun w hw => paramWords_cases hw) (Or.inr (by omega)), List.getElem?_replicate, if_pos hk]

end Layout

/-- A parameter reads back from its slot as its argument, both words of a float included. -/
theorem parameter_reads (F : FloatOps) {t : VM W} (ht : t.locals = enteredLocals fn args) (hparams : fn.numParams ≤ fn.frame.length)
    (hplain : ∀ sym ∈ fn.frame.take fn.numParams, sym.type.arrayLength = 0) (hargs : args.length = fn.numParams) {i : ℕ}
    {sym : Symbol} {arg : Entry} {slot : LocalSlot} (hsym : fn.frame[i]? = some sym) (harg : args[i]? = some arg)
    (hslot : (buildLayout fn).slots[i]? = some slot) (hvalue : arg.value < 2 ^ (16 * sym.type.wordCount)) :
    (sym.type ≠ .float → getLocal slot.index t = .ok (arg.value, t)) ∧
      (sym.type = .float → getLocal slot.index t = .ok (arg.value % 65536, t) ∧
        getLocal (slot.index + 1) t = .ok (arg.value / 65536, t) ∧ localFloat F slot.index t = .ok (bitsToFloat F arg.value, t)) := by
  obtain ⟨hlow, hhigh⟩ := enteredLocals_parameter hparams hplain hargs hsym harg hslot
  rw [← ht] at hlow hhigh
  constructor
  · intro htype
    have hone : sym.type.wordCount = 1 := if_neg htype
    rw [hone] at hvalue
    rw [word_of_lt hvalue] at hlow
    exact getLocal_of_getElem? hlow
  · intro htype
    have htwo : sym.type.wordCount = 2 := if_pos htype
    rw [htwo] at hvalue
    have hhalf : word (arg.value >>> 16) = arg.value / 65536 := by
      rw [Nat.shiftRight_eq_div_pow]
      exact word_of_lt (by omega)
    have hgetLow := getLocal_of_getElem? hlow
    have hgetHigh := getLocal_of_getElem? (hhigh htwo)
    rw [hhalf, Nat.cast_add, Nat.cast_one] at hgetHigh
    refine ⟨hgetLow, hgetHigh, ?_⟩
    rw [localFloat, bind_eq hgetLow, bind_eq hgetHigh, word, words_or]
    rfl

/-- On entry each parameter reads back as its argument from the slot of its layout, only
references lie in reference slots, the rest of the frame is zero, and the caller's frame and
the stack below the arguments are kept. -/
theorem enterFunction_parameters (F : FloatOps) (hf : P.functions[f]? = some ((buildLayout fn).info entryPc))
    (hparams : fn.numParams ≤ fn.frame.length) (hplain : ∀ sym ∈ fn.frame.take fn.numParams, sym.type.arrayLength = 0)
    (hstack : s.stack = args.reverse ++ rest) (hbase : s.frameBase ≤ rest.length) (hargs : args.length = fn.numParams)
    (hvalues : ∀ (i : ℕ) (sym : Symbol) (arg : Entry), fn.frame[i]? = some sym → args[i]? = some arg →
      arg.value < 2 ^ (16 * sym.type.wordCount)) :
    ∃ t, enterFunction P f name s = .ok ((), t) ∧
      t = { s with
        stack := rest
        callStack := ⟨s.pc, s.locals, s.frameBase, s.currentFn⟩ :: s.callStack
        currentFn := f
        locals := t.locals
        frameBase := rest.length
        pc := entryPc } ∧
      t.locals.length = (buildLayout fn).numLocals ∧
      (∀ (i : ℕ) (sym : Symbol) (arg : Entry) (slot : LocalSlot), fn.frame[i]? = some sym → args[i]? = some arg →
        (buildLayout fn).slots[i]? = some slot →
        (sym.type ≠ .float → getLocal slot.index t = .ok (arg.value, t)) ∧
          (sym.type = .float → getLocal slot.index t = .ok (arg.value % 65536, t) ∧
            getLocal (slot.index + 1) t = .ok (arg.value / 65536, t) ∧ localFloat F slot.index t = .ok (bitsToFloat F arg.value, t)) ∧
          ∀ j < sym.type.wordCount, slot.index + j ∈ (buildLayout fn).refSlots ↔ sym.type.isReference = true) ∧
      ∀ k < (buildLayout fn).numLocals, (∀ (i : ℕ) (sym : Symbol) (slot : LocalSlot), i < fn.numParams → fn.frame[i]? = some sym →
        (buildLayout fn).slots[i]? = some slot → k < slot.index ∨ slot.index + sym.type.wordCount ≤ k) → t.locals[k]? = some 0 := by
  refine ⟨_, enterFunction_eq hf hstack hbase hargs, rfl, length_enteredLocals fn args, ?_, fun k hk hother => ?_⟩
  · intro i sym arg slot hsym harg hslot
    have hi : i < fn.numParams := hargs ▸ (List.getElem?_eq_some_iff.mp harg).1
    obtain ⟨hword, hfloat⟩ := parameter_reads F (t := { s with
      stack := rest
      callStack := ⟨s.pc, s.locals, s.frameBase, s.currentFn⟩ :: s.callStack
      currentFn := f
      locals := enteredLocals fn args
      frameBase := rest.length
      pc := entryPc }) rfl hparams hplain hargs hsym harg hslot (hvalues i sym arg hsym harg)
    refine ⟨hword, hfloat, fun j hj => ?_⟩
    have hscalar := hplain sym (List.mem_iff_getElem?.mpr ⟨i, by rw [List.getElem?_take_of_lt hi, hsym]⟩)
    refine mem_refSlots_iff hsym hslot (by rw [Ty.slotWidth, hscalar]; exact hj) fun href => ?_
    have hone : sym.type.wordCount = 1 := if_neg fun htype => by rw [htype] at href; cases href
    omega
  · exact enteredLocals_zero hparams hplain hargs hk hother

/-- A function of a float, a string and an int, with one variable more. -/
def mixedFunction : TFunction where
  name := .named "mixed"
  sig := ⟨.named "mixed", [.float, .str, .int], .int, false⟩
  numParams := 3
  body := []
  frame := [⟨"x", .float, 0⟩, ⟨"s", .str, 1⟩, ⟨"n", .int, 2⟩, ⟨"i", .int, 3⟩]
  sourceFile := ""
  pos := {}

def mixedProgram : CompiledProgram where
  code := []
  functions := [(buildLayout mixedFunction).info 7]
  strings := []
  structs := []

/-- About to call it, with one entry below the arguments. -/
def mixedCall : VM Unit where
  stack := [⟨5, false⟩, ⟨40, true⟩, ⟨0x3F800000, false⟩, ⟨9, false⟩]
  io := ()

theorem mixedFunction_parameters :
    ∃ t, enterFunction mixedProgram 0 "CALL" mixedCall = .ok ((), t) ∧
      getLocal 0 t = .ok (0, t) ∧ getLocal (0 + 1) t = .ok (0x3F80, t) ∧ getLocal 2 t = .ok (40, t) ∧
      getLocal 3 t = .ok (5, t) ∧ t.locals[4]? = some 0 ∧ t.stack = [⟨9, false⟩] := by
  have hvalues : ∀ (i : ℕ) (sym : Symbol) (arg : Entry), mixedFunction.frame[i]? = some sym →
      ([⟨0x3F800000, false⟩, ⟨40, true⟩, ⟨5, false⟩] : List Entry)[i]? = some arg → arg.value < 2 ^ (16 * sym.type.wordCount) := by
    intro i sym arg hsym harg
    have hi : i < 3 := (List.getElem?_eq_some_iff.mp harg).1
    interval_cases i <;> (cases hsym; cases harg; decide)
  obtain ⟨t, hrun, ht, -, hreads, hzero⟩ :=
    @enterFunction_parameters Unit mixedProgram mixedCall [⟨0x3F800000, false⟩, ⟨40, true⟩, ⟨5, false⟩] [⟨9, false⟩] 0 "CALL"
      mixedFunction 7 (rationalFloats fun _ _ => "") rfl (by decide) (by decide) rfl (by decide) rfl hvalues
  have hfloat := (hreads 0 _ _ _ rfl rfl rfl).2.1 rfl
  refine ⟨t, hrun, hfloat.1, hfloat.2.1, (hreads 1 _ _ _ rfl rfl rfl).1 (by decide), (hreads 2 _ _ _ rfl rfl rfl).1 (by decide), ?_, ?_⟩
  · refine hzero 4 (by decide) fun i sym slot hi hsym hslot => ?_
    have hi : i < 3 := hi
    interval_cases i <;> (cases hsym; cases hslot; decide)
  · rw [ht]

end Entering

end QuinLang
