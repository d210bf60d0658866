import QuinLang.File.Format

/-! What `dumps` writes, `loads` reads back; nothing shorter and nothing longer is read. -/

namespace QuinLang

open Codec

/-- Whether an exception is the one the format promises. -/
def FileError.IsBytecode (e : FileError) : Prop := ∃ message, e = .bytecode message

theorem isBytecode (message : String) : (FileError.bytecode message).IsBytecode := ⟨message, rfl⟩

abbrev Safe {α : Type} (r : Read α) : Prop := Framed FileError.IsBytecode r

section Safe

theorem safe_takeBytes (count : ℕ) : Safe (takeBytes count) := framed_take (isBytecode _) count

/-- `take` hands over as many bytes as it was asked for. -/
theorem length_takeBytes {count : ℕ} {bytes front rest : List UInt8}
    (h : takeBytes count bytes = .ok (front, rest)) : front.length = count := by
  unfold takeBytes take at h
  split at h
  · cases h
  · cases h
    simp only [List.length_take]
    omega

theorem safe_unpack (count : ℕ) : Safe (unpack count) := by
  refine (safe_takeBytes count).bindOf (fun _ _ _ => length_takeBytes) fun bytes hl => ?_
  rw [if_pos hl]
  exact .pure _

theorem safe_readU8 : Safe readU8 := by
  refine (safe_takeBytes 1).bindOf (fun _ _ _ => length_takeBytes) fun bytes hl => ?_
  cases bytes with
  | nil => cases hl
  | cons b _ => exact .pure _

theorem safe_readU32 : Safe readU32 := safe_unpack 4

theorem safe_readText : Safe readText := by
  refine safe_readU32.bind fun n => (safe_takeBytes n).bind fun bytes => ?_
  unfold decodeUtf8
  cases String.fromUTF8? ⟨bytes.toArray⟩ with
  | none => exact .throw (isBytecode _)
  | some s => exact .pure s

theorem safe_readMany {α : Type} {r : ℕ → Read α} (hr : ∀ i, Safe (r i)) : Safe (readMany r) :=
  safe_readU32.bind fun n => framed_many hr 0 n

theorem safe_readU32List : Safe readU32List := safe_readMany fun _ => safe_readU32

theorem safe_readFlag : Safe readFlag := safe_readU8.map

theorem safe_readStrings : Safe readStrings :=
  (safe_readMany fun _ => safe_readU32.bind fun _ => safe_readText.map).map

theorem safe_readField (i : ℕ) : Safe (readField i) :=
  safe_readText.bind fun _ => safe_readText.bind fun _ => safe_readU32.map

theorem safe_readStruct (i : ℕ) : Safe (readStruct i) :=
  safe_readText.bind fun _ => safe_readU32.bind fun _ => safe_readFlag.bind fun _ =>
    safe_readU32List.bind fun _ => (safe_readMany safe_readField).map

theorem safe_readLocal (i : ℕ) : Safe (readLocal i) :=
  safe_readText.bind fun _ => safe_readU32.bind fun _ => safe_readText.bind fun _ =>
    safe_readU32.bind fun _ => safe_readFlag.map

theorem safe_readDebug (debug : Bool) : Safe (readDebug debug) :=
  .ite (fun _ => safe_readText.bind fun _ => (safe_readMany safe_readLocal).map) fun _ => .pure _

theorem safe_readFunction (debug : Bool) (i : ℕ) : Safe (readFunction debug i) :=
  safe_readText.bind fun _ => safe_readU32.bind fun _ => safe_readU32.bind fun _ =>
    safe_readU32.bind fun _ => safe_readU32List.bind fun _ => safe_readU32List.bind fun _ =>
      (safe_readDebug debug).map

theorem safe_readOpCode (number pc : ℕ) : Safe (readOpCode number pc) := by
  unfold readOpCode opCode
  cases OpCode.ofNumber? number with
  | none => exact .throw (isBytecode _)
  | some op => exact .pure op

theorem safe_readOperand (present : Bool) : Safe (readOperand present) :=
  .ite (fun _ => safe_readU32.map) fun _ => .pure none

theorem safe_readInstruction (pc : ℕ) : Safe (readInstruction pc) :=
  (safe_unpack 2).bind fun _ => (safe_readOpCode _ pc).bind fun _ => (safe_readOperand _).map

theorem safe_readMarker (i : ℕ) : Safe (readMarker i) :=
  safe_readU32.bind fun _ => safe_readU32.bind fun _ => safe_readU32.map

theorem safe_readSourceMap (debug : Bool) : Safe (readSourceMap debug) :=
  .ite (fun _ => (safe_readMany safe_readMarker).map) fun _ => .pure _

theorem safe_readMagic : Safe readMagic :=
  (safe_takeBytes _).bind fun _ => .ite (fun _ => .throw (isBytecode _)) fun _ => .pure ()

theorem safe_readVersion : Safe readVersion :=
  (safe_unpack 2).bind fun _ => .ite (fun _ => .throw (isBytecode _)) fun _ => .pure ()

theorem safe_readProgram : Safe readProgram :=
  safe_readMagic.bind fun _ => safe_readVersion.bind fun _ => (safe_unpack 2).bind fun _ =>
    safe_readStrings.bind fun _ => (safe_readMany safe_readStruct).bind fun _ =>
      (safe_readMany (safe_readFunction _)).bind fun _ => (safe_readMany safe_readInstruction).bind fun _ =>
        (safe_readSourceMap _).map

end Safe

/-- Why a `do` block of the writer succeeded. -/
@[simp]
theorem written_bind {α β : Type} {x : Except FileError α} {f : α → Except FileError β} {b : β} :
    (x >>= f) = .ok b ↔ ∃ a, x = .ok a ∧ f a = .ok b := by
  cases x with
  | error e =>
    constructor
    · intro h
      cases h
    · rintro ⟨a, h, -⟩
      cases h
  | ok a =>
    constructor
    · exact fun h => ⟨a, rfl, h⟩
    · rintro ⟨a', ha, h⟩
      cases ha
      exact h

@[simp]
theorem written_pure {α : Type} {a b : α} : (pure a : Except FileError α) = .ok b ↔ a = b :=
  Except.ok.injEq a b ▸ Iff.rfl

section Reads

variable {bytes : List UInt8}

theorem reads_unpack {count v : ℕ} (h : structPack count v = .ok bytes) : Reads (unpack count) bytes v := by
  unfold structPack at h
  split at h
  · cases h
    have hl := length_littleEndian count v
    refine (reads_take hl).bind' (y := []) ?_ (List.append_nil _).symm
    rw [if_pos hl, ofLittleEndian_littleEndian ‹_›]
    exact .pure v
  · cases h

theorem reads_readU32 {v : ℕ} (h : u32 v = .ok bytes) : Reads readU32 bytes v := reads_unpack h

theorem reads_readFlag {b : Bool} (h : flag b = .ok bytes) : Reads readFlag bytes b := by
  unfold flag u8 structPack at h
  rw [if_pos (by cases b <;> decide)] at h
  cases h
  cases b <;> exact fun rest => rfl

theorem decodeUtf8_encodeUtf8 (s : String) : decodeUtf8 (encodeUtf8 s) = .ok s := by
  have h : String.fromUTF8? ⟨(encodeUtf8 s).toArray⟩ = some s := by
    simp only [encodeUtf8, Array.toArray_toList]
    exact dif_pos s.isValidUTF8
  rw [decodeUtf8, h]

theorem reads_readText {s : String} (h : text s = .ok bytes) : Reads readText bytes s := by
  simp only [text, written_bind, written_pure] at h
  obtain ⟨n, hn, rfl⟩ := h
  refine (reads_readU32 hn).bind ((reads_take rfl).bind' (y := []) ?_ (List.append_nil _).symm)
  rw [decodeUtf8_encodeUtf8]
  exact .pure s

theorem reads_eachOf {α β : Type} {write : ℕ → α → Written} {r : ℕ → Read β} {f : α → β} {xs : List α}
    (hr : ∀ i, ∀ x ∈ xs, ∀ bytes, write i x = .ok bytes → Reads (r i) bytes (f x)) {i : ℕ}
    (h : eachOf write i xs = .ok bytes) : Reads (many r i xs.length) bytes (xs.map f) := by
  induction xs generalizing i bytes with
  | nil =>
    cases h
    exact Reads.pure []
  | cons x xs ih =>
    simp only [eachOf, written_bind, written_pure] at h
    obtain ⟨w, hw, ws, hws, rfl⟩ := h
    exact (hr i x List.mem_cons_self w hw).bind
      (ih (fun i y hy => hr i y (List.mem_cons_of_mem x hy)) hws).map

theorem reads_counted {α β : Type} {write : ℕ → α → Written} {r : ℕ → Read β} {f : α → β} {xs : List α}
    (hr : ∀ i, ∀ x ∈ xs, ∀ bytes, write i x = .ok bytes → Reads (r i) bytes (f x))
    (h : counted write xs = .ok bytes) : Reads (readMany r) bytes (xs.map f) := by
  simp only [counted, written_bind, written_pure] at h
  obtain ⟨n, hn, ws, hws, rfl⟩ := h
  exact (reads_readU32 hn).bind (reads_eachOf hr hws)

/-- Values that are read back as they were written. -/
theorem reads_counted_id {α : Type} {write : ℕ → α → Written} {r : ℕ → Read α} {xs : List α}
    (hr : ∀ i, ∀ x ∈ xs, ∀ bytes, write i x = .ok bytes → Reads (r i) bytes x)
    (h : counted write xs = .ok bytes) : Reads (readMany r) bytes xs := by
  simpa using reads_counted (f := id) hr h

theorem reads_readU32List {vs : List ℕ} (h : u32List vs = .ok bytes) : Reads readU32List bytes vs :=
  reads_counted_id (fun _ _ _ _ h => reads_readU32 h) h

theorem reads_readString {i : ℕ} {item : ℕ × String} (h : writeString i item = .ok bytes) :
    Reads (readString i) bytes item := by
  simp only [writeString, written_bind, written_pure] at h
  obtain ⟨id, hid, t, ht, rfl⟩ := h
  exact (reads_readU32 hid).bind (reads_readText ht).map

theorem reads_readField {i : ℕ} {f : FieldLayout} (h : writeField i f = .ok bytes) :
    Reads (readField i) bytes f := by
  simp only [writeField, written_bind, written_pure] at h
  obtain ⟨n, hn, t, ht, o, ho, rfl⟩ := h
  exact (reads_readText hn).bind ((reads_readText ht).bind (reads_readU32 ho).map)

theorem reads_readStruct {i : ℕ} {l : Option StructLayout} (h : writeStruct i l = .ok bytes) :
    Reads (readStruct i) bytes l := by
  cases l with
  | none => cases h
  | some l =>
    simp only [writeStruct, written_bind, written_pure] at h
    obtain ⟨n, hn, s, hs, v, hv, r, hr, f, hf, rfl⟩ := h
    exact (reads_readText hn).bind ((reads_readU32 hs).bind ((reads_readFlag hv).bind
      ((reads_readU32List hr).bind (reads_counted_id (fun _ _ _ _ h => reads_readField h) hf).map)))

theorem reads_readLocal {i : ℕ} {l : LocalInfo} (h : writeLocal i l = .ok bytes) :
    Reads (readLocal i) bytes l := by
  simp only [writeLocal, written_bind, written_pure] at h
  obtain ⟨n, hn, s, hs, t, ht, w, hw, p, hp, rfl⟩ := h
  exact (reads_readText hn).bind ((reads_readU32 hs).bind ((reads_readText ht).bind
    ((reads_readU32 hw).bind (reads_readFlag hp).map)))

/-- The function as a file without debug information leaves it. -/
def FunctionInfo.kept (debug : Bool) (fn : FunctionInfo) : FunctionInfo :=
  if debug then fn else fn.withoutDebug

theorem reads_readFunction {debug : Bool} {i : ℕ} {fn : FunctionInfo}
    (h : writeFunction debug i fn = .ok bytes) : Reads (readFunction debug i) bytes (fn.kept debug) := by
  simp only [writeFunction, written_bind, written_pure] at h
  obtain ⟨n, hn, e, he, l, hl, p, hp, r, hr, w, hw, d, hd, rfl⟩ := h
  have hdebug : Reads (readDebug debug) d (if debug then (fn.sourceFile, fn.locals) else ("", [])) := by
    cases debug with
    | true =>
      simp only [writeDebug, if_true, written_bind, written_pure] at hd
      obtain ⟨f, hf, ls, hls, rfl⟩ := hd
      exact (reads_readText hf).bind (reads_counted_id (fun _ _ _ _ h => reads_readLocal h) hls).map
    | false =>
      cases hd
      exact .pure _
  have hkept : fn.kept debug = ⟨fn.name, fn.entryPc, fn.numLocals, fn.numParams, fn.refSlots, fn.paramWords,
      (if debug then (fn.sourceFile, fn.locals) else ("", [])).2,
      (if debug then (fn.sourceFile, fn.locals) else ("", [])).1⟩ := by
    cases debug <;> rfl
  rw [hkept]
  exact (reads_readText hn).bind ((reads_readU32 he).bind ((reads_readU32 hl).bind ((reads_readU32 hp).bind
    ((reads_readU32List hr).bind ((reads_readU32List hw).bind hdebug.map)))))

theorem number_and_mask {n : ℕ} (h : n < 2 ^ 15) : n &&& MAX_OPCODE = n :=
  (Nat.and_two_pow_sub_one_eq_mod n 15).trans (Nat.mod_eq_of_lt h)

theorem number_and_flag {n : ℕ} (h : n < 2 ^ 15) : n &&& HAS_OPERAND = 0 := by
  rw [HAS_OPERAND, show (0x8000 : ℕ) = 2 ^ 15 by rfl, Nat.and_two_pow, Nat.testBit_lt_two_pow h]
  rfl

theorem flagged_and_mask {n : ℕ} (h : n < 2 ^ 15) : (n ||| HAS_OPERAND) &&& MAX_OPCODE = n := by
  rw [Nat.and_or_distrib_right, number_and_mask h, show HAS_OPERAND &&& MAX_OPCODE = 0 by decide, Nat.or_zero]

theorem flagged_and_flag {n : ℕ} (h : n < 2 ^ 15) : (n ||| HAS_OPERAND) &&& HAS_OPERAND ≠ 0 := by
  rw [Nat.and_or_distrib_right, number_and_flag h, Nat.zero_or]
  decide

theorem reads_readOpCode {op : OpCode} {pc : ℕ} : Reads (readOpCode op.number pc) [] op := by
  rw [readOpCode, opCode, OpCode.ofNumber?_number]
  exact .pure op

theorem reads_readInstruction {pc : ℕ} {i : RawInstruction} (h : writeInstruction pc i = .ok bytes) :
    Reads (readInstruction pc) bytes i := by
  obtain ⟨op, arg⟩ := i
  have hn := op.number_lt
  unfold writeInstruction at h
  rw [if_neg (by simp only [MAX_OPCODE, HAS_OPERAND]; omega)] at h
  cases arg with
  | none =>
    refine (reads_unpack h).bind' (y := []) ?_ (List.append_nil _).symm
    rw [number_and_mask hn, number_and_flag hn]
    exact reads_readOpCode.bind (Reads.pure none).map
  | some arg =>
    simp only at h
    split at h
    · rename_i hrange
      simp only [written_bind, written_pure] at h
      obtain ⟨o, ho, a, ha, rfl⟩ := h
      refine (reads_unpack ho).bind ?_
      rw [flagged_and_mask hn, decide_eq_true (flagged_and_flag hn)]
      have hread : Reads (readOperand true) a (some arg) := by
        have := (reads_readU32 ha).map (f := fun v : ℕ => some (v : ℤ))
        rwa [Int.toNat_of_nonneg hrange.1] at this
      exact reads_readOpCode.bind hread.map
    · cases h

theorem reads_readMarker {i : ℕ} {m : ℕ × Pos} (h : writeMarker i m = .ok bytes) :
    Reads (readMarker i) bytes m := by
  simp only [writeMarker, written_bind, written_pure] at h
  obtain ⟨p, hp, l, hl, c, hc, rfl⟩ := h
  exact (reads_readU32 hp).bind ((reads_readU32 hl).bind (reads_readU32 hc).map)

theorem reads_readSourceMap {debug : Bool} {m : SourceMap} (h : writeSourceMap debug m = .ok bytes) :
    Reads (readSourceMap debug) bytes (if debug then m else {}) := by
  cases debug with
  | true => exact (reads_counted_id (fun _ _ _ _ h => reads_readMarker h) h).map
  | false =>
    cases h
    exact .pure _

/-- The program as `loads` returns it: literals in the order written, the last of one id
counting, and without what is left out of the file. -/
def ProgramFile.kept (debug : Bool) (p : ProgramFile) : ProgramFile :=
  { p with
    strings := (sortedItems p.strings).foldl setItem []
    functions := p.functions.map (FunctionInfo.kept debug)
    sourceMap := if debug then p.sourceMap else {} }

theorem reads_readProgram {p : ProgramFile} {debug : Bool} (h : dumps p debug = .ok bytes) :
    Reads readProgram bytes (p.kept debug) := by
  simp only [dumps, written_bind, written_pure] at h
  obtain ⟨v, hv, fl, hfl, st, hst, ss, hss, fs, hfs, c, hc, m, hm, rfl⟩ := h
  have hmagic : Reads readMagic MAGIC () :=
    (reads_take rfl).bind' (y := []) (by rw [if_neg (by simp)]; exact .pure ()) (List.append_nil _).symm
  have hversion : Reads readVersion v () :=
    (reads_unpack hv).bind' (y := []) (by rw [if_neg (by simp)]; exact .pure ()) (List.append_nil _).symm
  have hdebug : (decide ((if debug then HAS_DEBUG_INFO else 0) &&& HAS_DEBUG_INFO ≠ 0)) = debug := by
    cases debug <;> rfl
  have hstrings := (reads_counted_id (fun _ _ _ _ h => reads_readString h) hst).map
    (f := List.foldl setItem [])
  have hstructs := reads_counted_id (fun _ _ _ _ h => reads_readStruct h) hss
  have hfunctions := reads_counted (fun _ _ _ _ h => reads_readFunction h) hfs
  have hcode := reads_counted_id (fun _ _ _ _ h => reads_readInstruction h) hc
  refine hmagic.bind (hversion.bind ((reads_unpack hfl).bind (hstrings.bind (hstructs.bind ?_))))
  rw [hdebug]
  exact hfunctions.bind (hcode.bind (reads_readSourceMap hm).map)

end Reads

section Totality

/-- Loading any bytes at all gives a program or a `BytecodeError`. -/
theorem loads_safe (data : List UInt8) :
    (∃ p, loads data = .ok p) ∨ ∃ message, loads data = .error (.bytecode message) := by
  unfold loads
  cases h : readProgram data with
  | error e =>
    obtain ⟨message, rfl⟩ := safe_readProgram.fails data e h
    exact Or.inr ⟨message, rfl⟩
  | ok r =>
    obtain ⟨p, rest⟩ := r
    cases rest with
    | nil => exact Or.inl ⟨p, rfl⟩
    | cons b rest => exact Or.inr ⟨_, rfl⟩

variable {p : ProgramFile} {debug : Bool} {bytes : List UInt8}

theorem loads_dumps (h : dumps p debug = .ok bytes) : loads bytes = .ok (p.kept debug) := by
  have hr := reads_readProgram h []
  rw [List.append_nil] at hr
  rw [loads, hr]

theorem loads_truncated (h : dumps p debug = .ok bytes) {part : List UInt8} (hp : part <+: bytes)
    (hne : part ≠ bytes) : ∃ message, loads part = .error (.bytecode message) := by
  obtain ⟨e, he, message, rfl⟩ := safe_readProgram.of_reads (reads_readProgram h) hp hne
  exact ⟨message, by rw [loads, he]⟩

theorem loads_extended (h : dumps p debug = .ok bytes) {whole : List UInt8} (hp : bytes <+: whole)
    (hne : whole ≠ bytes) : ∃ message, loads whole = .error (.bytecode message) := by
  obtain ⟨extra, rfl⟩ := hp
  cases extra with
  | nil => exact absurd (List.append_nil bytes) hne
  | cons b extra => exact ⟨_, by rw [loads, reads_readProgram h (b :: extra)]⟩

/-- `loads` is total and the format is prefix-free. -/
theorem loads_total_prefix_free :
    (∀ data, (∃ p, loads data = .ok p) ∨ ∃ message, loads data = .error (.bytecode message)) ∧
    ∀ p debug bytes, dumps p debug = .ok bytes → ∀ other, other ≠ bytes →
      other <+: bytes ∨ bytes <+: other → ∃ message, loads other = .error (.bytecode message) :=
  ⟨loads_safe, fun _ _ _ h _ hne hp => hp.elim (loads_truncated h · hne) (loads_extended h · hne)⟩

/-- A program that prints the text of a note. -/
def printFile : ProgramFile where
  code := [⟨.loadLocal, some 0⟩, ⟨.heapLoadField, some 0⟩, ⟨.printlnStr, none⟩, ⟨.pushInt, some 0⟩, ⟨.ret, none⟩]
  functions := [⟨"main", 0, 1, 0, [0], [], [⟨"note", 0, "Note", 1, false⟩], "note.ql"⟩]
  strings := [(0, "café")]
  structs := [some ⟨"Note", 1, [0], [⟨"text", "str", 0⟩], false⟩]
  sourceMap := ⟨[(0, ⟨2, 11⟩), (2, ⟨2, 3⟩)]⟩

theorem printFile_prefix_free : ∃ bytes, dumps printFile true = .ok bytes ∧
    (∃ message, loads (bytes.take 40) = .error (.bytecode message)) ∧
    ∃ message, loads (bytes ++ [0]) = .error (.bytecode message) := by
  have hlength : (dumps printFile true).toOption.map List.length = some 203 := by decide +kernel
  cases h : dumps printFile true with
  | error e =>
    rw [h] at hlength
    cases hlength
  | ok bytes =>
    rw [h] at hlength
    have hlen : bytes.length = 203 := Option.some.inj hlength
    have hshort : bytes.take 40 ≠ bytes := fun heq => by
      have := congrArg List.length heq
      rw [List.length_take] at this
      omega
    exact ⟨bytes, rfl, loads_total_prefix_free.2 _ _ _ h _ hshort (Or.inl (List.take_prefix 40 _)),
      loads_total_prefix_free.2 _ _ _ h _ (by simp) (Or.inr (List.prefix_append _ _))⟩

end Totality

end QuinLang
