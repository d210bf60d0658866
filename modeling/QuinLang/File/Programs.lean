import QuinLang.File.Stripping
import QuinLang.Compiler.Codegen

/-! A compiled program through a file and back. -/

namespace QuinLang

/-- The tables of a program as a file holds them. -/
def CompiledProgram.file (P : CompiledProgram) : ProgramFile :=
  ⟨P.code.map Instruction.raw, P.functions, P.strings, P.structs, P.sourceMap⟩

/-- The program the interpreter is given for a loaded file. -/
def ProgramFile.program? (p : ProgramFile) : Option CompiledProgram :=
  (p.code.mapM RawInstruction.instruction?).map fun code => ⟨code, p.functions, p.strings, p.structs, p.sourceMap⟩

theorem CompiledProgram.program?_file (P : CompiledProgram) : P.file.program? = some P := by
  have h : ∀ code : List Instruction, (code.map Instruction.raw).mapM RawInstruction.instruction? = some code := by
    intro code
    induction code with
    | nil => rfl
    | cons i code ih => simp [Instruction.instruction?_raw, ih]
  simp [ProgramFile.program?, CompiledProgram.file, h]

section Fits

def Fits32 (n : ℕ) : Prop := n < 2 ^ 32

def TextFits (s : String) : Prop := Fits32 (encodeUtf8 s).length

instance (n : ℕ) : Decidable (Fits32 n) := inferInstanceAs (Decidable (n < 2 ^ 32))

instance (s : String) : Decidable (TextFits s) := inferInstanceAs (Decidable (Fits32 _))

structure StructLayout.Fits (l : StructLayout) : Prop where
  name : TextFits l.name
  size : Fits32 l.wordSize
  refs : Fits32 l.refOffsets.length ∧ ∀ o ∈ l.refOffsets, Fits32 o
  fields : Fits32 l.fields.length ∧ ∀ f ∈ l.fields, TextFits f.name ∧ TextFits f.typeName ∧ Fits32 f.offset

structure FunctionInfo.Fits (fn : FunctionInfo) : Prop where
  name : TextFits fn.name
  numbers : Fits32 fn.entryPc ∧ Fits32 fn.numLocals ∧ Fits32 fn.numParams
  refs : Fits32 fn.refSlots.length ∧ ∀ slot ∈ fn.refSlots, Fits32 slot
  words : Fits32 fn.paramWords.length ∧ ∀ w ∈ fn.paramWords, Fits32 w
  file : TextFits fn.sourceFile
  locals : Fits32 fn.locals.length ∧
    ∀ l ∈ fn.locals, TextFits l.name ∧ Fits32 l.slot ∧ TextFits l.typeName ∧ Fits32 l.words

/-- Every number, count and length fits the field it is written to. -/
structure ProgramFile.Fits (p : ProgramFile) : Prop where
  strings : Fits32 p.strings.length ∧ ∀ s ∈ p.strings, Fits32 s.1 ∧ TextFits s.2
  structs : Fits32 p.structs.length ∧ ∀ l, some l ∈ p.structs → l.Fits
  functions : Fits32 p.functions.length ∧ ∀ fn ∈ p.functions, fn.Fits
  code : Fits32 p.code.length ∧ ∀ r ∈ p.code, ∀ a, r.arg = some a → 0 ≤ a ∧ Fits32 a.toNat
  sourceMap : Fits32 p.sourceMap.markers.length ∧
    ∀ m ∈ p.sourceMap.markers, Fits32 m.1 ∧ Fits32 m.2.line ∧ Fits32 m.2.col

end Fits

section Writable

/-- Whether a part of the writer succeeds. -/
def Written.Succeeds (w : Written) : Prop := ∃ bytes, w = .ok bytes

theorem Written.Succeeds.bind {w : Written} {f : List UInt8 → Written} (h : w.Succeeds)
    (hf : ∀ bytes, Written.Succeeds (f bytes)) : Written.Succeeds (w >>= f) := by
  obtain ⟨bytes, rfl⟩ := h
  exact hf bytes

theorem Written.Succeeds.pure (bytes : List UInt8) : Written.Succeeds (pure bytes) := ⟨bytes, rfl⟩

open Written.Succeeds

theorem writes_pack {count v : ℕ} (h : v < 256 ^ count) : (structPack count v).Succeeds := ⟨_, if_pos h⟩

theorem writes_u32 {v : ℕ} (h : Fits32 v) : (u32 v).Succeeds := writes_pack (by simpa [Fits32] using h)

theorem writes_flag (b : Bool) : (flag b).Succeeds := writes_pack (by cases b <;> decide)

theorem writes_text {s : String} (h : TextFits s) : (text s).Succeeds := (writes_u32 h).bind fun _ => pure _

theorem writes_counted {α : Type} {write : ℕ → α → Written} {xs : List α} (hl : Fits32 xs.length)
    (h : ∀ i, ∀ x ∈ xs, (write i x).Succeeds) : (counted write xs).Succeeds := by
  have heach : ∀ i, (eachOf write i xs).Succeeds := by
    intro i
    clear hl
    induction xs generalizing i with
    | nil => exact pure []
    | cons x xs ih =>
      exact (h i x List.mem_cons_self).bind fun _ =>
        (ih (fun i y hy => h i y (List.mem_cons_of_mem x hy)) (i + 1)).bind fun _ => pure _
  exact (writes_u32 hl).bind fun _ => (heach 0).bind fun _ => pure _

theorem writes_u32List {vs : List ℕ} (h : Fits32 vs.length ∧ ∀ v ∈ vs, Fits32 v) : (u32List vs).Succeeds :=
  writes_counted h.1 fun _ v hv => writes_u32 (h.2 v hv)

theorem writes_struct {l : StructLayout} (h : l.Fits) (i : ℕ) : (writeStruct i (some l)).Succeeds :=
  (writes_text h.name).bind fun _ => (writes_u32 h.size).bind fun _ => (writes_flag _).bind fun _ =>
    (writes_u32List h.refs).bind fun _ => (writes_counted h.fields.1 fun _ f hf =>
      have ⟨hn, ht, ho⟩ := h.fields.2 f hf
      (writes_text hn).bind fun _ => (writes_text ht).bind fun _ => (writes_u32 ho).bind fun _ =>
        pure _).bind fun _ => pure _

theorem writes_debug {fn : FunctionInfo} (h : fn.Fits) (debug : Bool) : (writeDebug debug fn).Succeeds := by
  cases debug with
  | false => exact pure []
  | true =>
    exact (writes_text h.file).bind fun _ => (writes_counted h.locals.1 fun _ l hl =>
      have ⟨hn, hs, ht, hw⟩ := h.locals.2 l hl
      (writes_text hn).bind fun _ => (writes_u32 hs).bind fun _ => (writes_text ht).bind fun _ =>
        (writes_u32 hw).bind fun _ => (writes_flag _).bind fun _ => pure _).bind fun _ => pure _

theorem writes_function {fn : FunctionInfo} (h : fn.Fits) (debug : Bool) (i : ℕ) :
    (writeFunction debug i fn).Succeeds :=
  (writes_text h.name).bind fun _ => (writes_u32 h.numbers.1).bind fun _ =>
    (writes_u32 h.numbers.2.1).bind fun _ => (writes_u32 h.numbers.2.2).bind fun _ =>
      (writes_u32List h.refs).bind fun _ => (writes_u32List h.words).bind fun _ =>
        (writes_debug h debug).bind fun _ => pure _

theorem writes_instruction {r : RawInstruction} (h : ∀ a, r.arg = some a → 0 ≤ a ∧ Fits32 a.toNat) (pc : ℕ) :
    (writeInstruction pc r).Succeeds := by
  obtain ⟨op, arg⟩ := r
  have hn := op.number_lt
  have hor : op.number ||| HAS_OPERAND < 2 ^ 16 :=
    Nat.or_lt_two_pow (hn.trans (by decide)) (by decide)
  unfold writeInstruction
  rw [if_neg (by simp only [MAX_OPCODE, HAS_OPERAND]; omega)]
  cases arg with
  | none => exact writes_pack (by norm_num at hn ⊢; omega)
  | some a =>
    obtain ⟨ha, hfit⟩ := h a rfl
    have hrange : 0 ≤ a ∧ a ≤ MAX_OPERAND := by
      simp only [Fits32, MAX_OPERAND] at hfit ⊢
      omega
    simp only [if_pos hrange]
    exact (writes_pack (by norm_num at hor ⊢; exact hor)).bind fun _ => (writes_u32 hfit).bind fun _ => pure _

theorem ProgramFile.Fits.writes {p : ProgramFile} (h : p.Fits) (hole : none ∉ p.structs) (debug : Bool) :
    (dumps p debug).Succeeds := by
  have hlen : (sortedItems p.strings).length = p.strings.length := List.length_insertionSort _ _
  have hstrings : (counted writeString (sortedItems p.strings)).Succeeds := by
    refine writes_counted (by rw [hlen]; exact h.strings.1) fun _ s hs => ?_
    obtain ⟨hid, ht⟩ := h.strings.2 s ((List.perm_insertionSort _ _).mem_iff.mp hs)
    exact (writes_u32 hid).bind fun _ => (writes_text ht).bind fun _ => pure _
  have hstructs : (counted writeStruct p.structs).Succeeds := by
    refine writes_counted h.structs.1 fun i l hl => ?_
    cases l with
    | none => exact absurd hl hole
    | some l => exact writes_struct (h.structs.2 l hl) i
  have hmap : (writeSourceMap debug p.sourceMap).Succeeds := by
    cases debug with
    | false => exact pure []
    | true =>
      exact writes_counted h.sourceMap.1 fun _ m hm =>
        have ⟨hp, hl, hc⟩ := h.sourceMap.2 m hm
        (writes_u32 hp).bind fun _ => (writes_u32 hl).bind fun _ => (writes_u32 hc).bind fun _ => pure _
  exact (writes_pack (by decide)).bind fun _ => (writes_pack (by cases debug <;> decide)).bind fun _ =>
    hstrings.bind fun _ => hstructs.bind fun _ =>
      (writes_counted h.functions.1 fun i fn hfn => writes_function (h.functions.2 fn hfn) debug i).bind fun _ =>
        (writes_counted h.code.1 fun pc r hr => writes_instruction (h.code.2 r hr) pc).bind fun _ =>
          hmap.bind fun _ => pure _

end Writable

section Literals

/-- Literal ids in the order they were handed out. -/
def InOrder (strings : List (ℕ × String)) : Prop := strings.Pairwise fun a b => a.1 < b.1

theorem InOrder.sortedItems {strings : List (ℕ × String)} (h : InOrder strings) :
    sortedItems strings = strings :=
  List.Pairwise.insertionSort_eq (h.imp fun hlt => hlt.le)

theorem foldl_setItem {strings d : List (ℕ × String)} (h : InOrder strings)
    (hd : ∀ e ∈ d, ∀ s ∈ strings, e.1 < s.1) : strings.foldl setItem d = d ++ strings := by
  induction strings generalizing d with
  | nil => simp
  | cons s strings ih =>
    obtain ⟨hs, hrest⟩ := List.pairwise_cons.mp h
    have hnew : setItem d s = d ++ [s] := by
      unfold setItem
      rw [if_neg]
      simp only [List.any_eq_true, decide_eq_true_eq, not_exists, not_and]
      exact fun e he => (hd e he s List.mem_cons_self).ne
    rw [List.foldl_cons, hnew, ih hrest, List.append_assoc, List.singleton_append]
    intro e he t ht
    rcases List.mem_append.mp he with he | he
    · exact hd e he t (List.mem_cons_of_mem s ht)
    · rw [List.mem_singleton.mp he]
      exact hs t ht

theorem kept_file {P : CompiledProgram} (h : InOrder P.strings) : P.file.kept true = P.file := by
  have hfn : FunctionInfo.kept true = id := funext fun fn => if_pos rfl
  simp [ProgramFile.kept, CompiledProgram.file, h.sortedItems, foldl_setItem h, hfn]

theorem kept_stripped {P : CompiledProgram} (h : InOrder P.strings) : P.file.kept false = P.stripped.file := by
  have hfn : FunctionInfo.kept false = FunctionInfo.withoutDebug := funext fun fn => if_neg (by simp)
  simp [ProgramFile.kept, CompiledProgram.file, CompiledProgram.stripped, h.sortedItems, foldl_setItem h, hfn]

theorem inOrder_zipIdx (texts : List String) (i : ℕ) :
    InOrder ((texts.zipIdx i).map fun p => (p.2, p.1)) := by
  induction texts generalizing i with
  | nil => exact .nil
  | cons text texts ih =>
    refine List.pairwise_cons.mpr ⟨fun s hs => ?_, ih (i + 1)⟩
    obtain ⟨q, hq, rfl⟩ := List.mem_map.mp hs
    exact (List.mem_zipIdx hq).1

theorem generate_inOrder {checked : CheckedProgram} {g : Generated} (h : generate checked = .ok g) :
    InOrder g.program.strings := by
  unfold generate at h
  split at h
  · cases h
  · split at h
    · cases h
    · dsimp only at h
      split at h
      · cases h
      · cases h
        exact inOrder_zipIdx _ 0

theorem compile_inOrder {fuel : ℕ} {source : Program} {g : Generated} (h : compile fuel source = .ok g) :
    InOrder g.program.strings := by
  unfold compile at h
  split at h
  · cases h
  · split at h
    · cases h
    · cases h
      exact generate_inOrder ‹_›

end Literals

/-- A compiled program written to a file, with or without debug information, is read
back in every table it was written with, and all three run alike. -/
theorem bytecode_round_trip {fuel : ℕ} {source : Program} {g : Generated}
    (hg : compile fuel source = .ok g) (hfit : g.program.file.Fits) (hole : none ∉ g.program.structs) :
    (∃ bytes, dumps g.program.file true = .ok bytes ∧ loads bytes = .ok g.program.file) ∧
    (∃ bytes, dumps g.program.file false = .ok bytes ∧ loads bytes = .ok g.program.stripped.file) ∧
    (g.program.file.program? = some g.program ∧ g.program.stripped.file.program? = some g.program.stripped) ∧
    ∀ (W : Type) (F : FloatOps) (io : ProgramIO W) (args : List String) (w : W) (n : ℕ),
      runMain g.program.stripped F io args w n = runMain g.program F io args w n := by
  have horder := compile_inOrder hg
  obtain ⟨full, hfull⟩ := hfit.writes hole true
  obtain ⟨bare, hbare⟩ := hfit.writes hole false
  refine ⟨⟨full, hfull, ?_⟩, ⟨bare, hbare, ?_⟩, ⟨g.program.program?_file, g.program.stripped.program?_file⟩,
    fun W F io args w n => by rw [runMain_stripped]⟩
  · rw [loads_dumps hfull, kept_file horder]
  · rw [loads_dumps hbare, kept_stripped horder]

/-- `struct Note { text: str, next: Note }`, and a note that is printed. -/
def noteSource : Program where
  structs := [{ name := "Note", fields := [⟨"text", .named "str", ⟨1, 15⟩⟩, ⟨"next", .named "Note", ⟨1, 26⟩⟩], pos := ⟨1, 1⟩ }]
  functions := [{
    name := "main", params := [], returnType := none
    body := [.varDecl ⟨3, 3⟩ "note" none (some (.structLit ⟨3, 14⟩ (.named "Note")
        [.mk ⟨3, 21⟩ "text" (.literal ⟨3, 27⟩ (.str "café")), .mk ⟨3, 35⟩ "next" (.literal ⟨3, 41⟩ .null)])),
      .println ⟨4, 3⟩ (.fieldAccess ⟨4, 15⟩ (.identifier ⟨4, 11⟩ (.plain "note")) "text")]
    sourceFile := "note.ql", pos := ⟨2, 1⟩ }]

def noteProgram : CompiledProgram where
  code := [.allocTyped 0, .dup, .loadStr 0, .heapStoreField 0, .dup, .pushInt 0, .heapStoreField 1, .storeLocal 0,
    .loadLocal 0, .heapLoadField 0, .printlnStr, .pushInt 0, .ret]
  functions := [⟨"main", 0, 1, 0, [0], [], [⟨"note", 0, "Note", 1, false⟩], "note.ql"⟩]
  strings := [(0, "café")]
  structs := [some ⟨"Note", 2, [0, 1], [⟨"text", "str", 0⟩, ⟨"next", "Note", 1⟩], false⟩]
  sourceMap := ⟨[(0, ⟨3, 14⟩), (2, ⟨3, 27⟩), (3, ⟨3, 14⟩), (5, ⟨3, 41⟩), (6, ⟨3, 14⟩), (7, ⟨3, 3⟩), (8, ⟨4, 11⟩),
    (9, ⟨4, 15⟩), (10, ⟨4, 3⟩)]⟩

theorem compile_note : (compile 4 noteSource).toOption.map Generated.program = some noteProgram := by
  decide +kernel

theorem noteProgram_fits : noteProgram.file.Fits where
  strings := by decide +kernel
  structs := by
    refine ⟨by decide, fun l hl => ?_⟩
    cases Option.some.inj (List.mem_singleton.mp hl)
    exact ⟨by decide, by decide, by decide, by decide⟩
  functions := by
    refine ⟨by decide, fun fn hfn => ?_⟩
    cases List.mem_singleton.mp hfn
    exact ⟨by decide, by decide, by decide, by decide, by decide, by decide⟩
  code := by decide +kernel
  sourceMap := by decide +kernel

/-- A program with text, a struct and a local comes back with them, and without its debug
information where that is left out. -/
theorem note_round_trip :
    (∃ bytes, dumps noteProgram.file true = .ok bytes ∧ loads bytes = .ok noteProgram.file) ∧
    ∃ bytes, dumps noteProgram.file false = .ok bytes ∧ loads bytes = .ok noteProgram.stripped.file := by
  cases hc : compile 4 noteSource with
  | error e =>
    have h := compile_note
    rw [hc] at h
    cases h
  | ok g =>
    have h : g.program = noteProgram := by
      have h := compile_note
      rw [hc] at h
      exact Option.some.inj h
    have htrip := bytecode_round_trip hc (h ▸ noteProgram_fits) (by rw [h]; decide)
    rw [h] at htrip
    exact ⟨htrip.1, htrip.2.1⟩

end QuinLang
