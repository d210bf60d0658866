import QuinLang.Runtime.Allocator

/-! The interpreter loop, one instruction at a time. Host floats and the program's
input and output are parameters. -/

namespace QuinLang

open ByteMem

/-- Host floats, as far as the interpreter uses them. `pack` is none where packing
overflows and `trunc` where there is no integer to truncate to. -/
structure FloatOps where
  Fl : Type
  ofBits : ℕ → Fl
  pack : Fl → Option ℕ
  isFinite : Fl → Bool
  repr : Fl → String
  formatG : ℕ → Fl → String
  parse : String → Fl
  add : Fl → Fl → Fl
  sub : Fl → Fl → Fl
  mul : Fl → Fl → Fl
  div : Fl → Fl → Fl
  neg : Fl → Fl
  lt : Fl → Fl → Bool
  eq : Fl → Fl → Bool
  ofInt : ℤ → Fl
  trunc : Fl → Option ℤ

/-- What `read_file` handed back. -/
inductive FileContent
  | bytes (data : List UInt8)
  | text (data : String)
  | other (typeName : String)

/-- Where a program's output goes and its input comes from. `write` and `readLine`
may raise an exception of the host; a file operation fails with the text of an
`OSError`. -/
structure ProgramIO (W : Type) where
  write : String → W → Except String W
  readLine : W → Except String (String × W)
  readFile : String → W → Except String FileContent × W
  writeFile : String → List UInt8 → Bool → W → Except String Unit × W
  fileExists : String → W → Except String Bool × W
  deleteFile : String → W → Except String Unit × W

def FLOAT_MASK : ℕ := 0xFFFFFFFF

/-- Integer division truncating toward zero. -/
def truncDiv (a b : ℤ) : ℤ :=
  let q : ℤ := (a.natAbs / b.natAbs : ℕ)
  if (a < 0) ≠ (b < 0) then -q else q

/-- `f"{n:04X}"`. -/
def hex4 (n : ℕ) : String :=
  let digits := (Nat.toDigits 16 n).map Char.toUpper
  String.ofList (List.replicate (4 - digits.length) '0' ++ digits)

/-- `data.decode("latin-1")`. -/
def ofLatin1 (data : List UInt8) : String := String.ofList (data.map fun b => Char.ofNat b.toNat)

abbrev Exec (W : Type) := StateT (VM W) (Except Fault)

variable {W : Type}

def fault {α : Type} (message : String) : Exec W α := throw (.vmError message)

def raise {α : Type} (exception : String) : Exec W α := throw (.host exception)

def push (value : ℤ) (isRef : Bool := false) : Exec W Unit :=
  modify fun s => { s with stack := ⟨wordOfInt value, isRef⟩ :: s.stack }

/-- Put back a value that was already on the stack, unchanged. -/
def pushRaw (e : Entry) : Exec W Unit := modify fun s => { s with stack := e :: s.stack }

/-- Pop one value with its tag, refusing to reach below the current frame's base. -/
def popTagged : Exec W Entry := fun s =>
  match s.stack with
  | e :: rest =>
    if s.frameBase ≤ rest.length then .ok (e, { s with stack := rest })
    else .error (.vmError "Operand stack underflow")
  | [] => .error (.vmError "Operand stack underflow")

def pop : Exec W ℕ := do return (← popTagged).value

def popSigned : Exec W ℤ := do return toSigned (← pop)

/-- The entry on top, left where it is. -/
def peek (opName : String) : Exec W Entry := fun s =>
  match s.stack with
  | e :: rest =>
    if s.frameBase ≤ rest.length then .ok (e, s)
    else .error (.vmError s!"Operand stack underflow on {opName}")
  | [] => .error (.vmError s!"Operand stack underflow on {opName}")

def localIndex (index : ℤ) : Exec W ℕ := do
  let n := (← get).locals.length
  if index < 0 ∨ index ≥ n then
    fault s!"Local index out of range: index={index}, num_locals={n}"
  else return index.toNat

def getLocal (index : ℤ) : Exec W ℕ := do
  let i ← localIndex index
  return (← get).locals.getD i 0

def setLocal (index : ℤ) (value : ℕ) : Exec W Unit := do
  let i ← localIndex index
  modify fun s => { s with locals := s.locals.set i (word value) }

/-! Floats: one operand-stack entry holding the 32-bit pattern, and two consecutive
slots or words, low word first, once stored. -/

section Floats

variable (F : FloatOps)

/-- The 32-bit pattern for a float, refusing anything not representable. -/
def floatToBits (value : F.Fl) : Exec W ℕ :=
  if F.isFinite value = false then
    fault (s!"Float overflow: {F.repr value} is not a finite 32-bit float")
  else
    match F.pack value with
    | some bits => return bits
    | none => fault (s!"Float overflow: {F.repr value} does not fit in a 32-bit float")

def bitsToFloat (bits : ℕ) : F.Fl := F.ofBits (bits % (FLOAT_MASK + 1))

def pushFloat (value : F.Fl) : Exec W Unit := do pushRaw ⟨← floatToBits F value, false⟩

def popFloat : Exec W F.Fl := do return bitsToFloat F (← pop)

def localFloat (index : ℤ) : Exec W F.Fl := do
  let lo ← getLocal index
  let hi ← getLocal (index + 1)
  return bitsToFloat F (lo ||| hi <<< 16)

def setLocalFloat (index : ℤ) (value : F.Fl) : Exec W Unit := do
  let bits ← floatToBits F value
  setLocal index bits
  setLocal (index + 1) (bits >>> 16)

/-- The first of `{value:.{digits}g}` from `digits` on that reads back as the same
value, `remaining` attempts left; `repr` when there is none. -/
def shortest (value : F.Fl) : ℕ → ℕ → Exec W String
  | 0, _ => return F.repr value
  | remaining + 1, digits =>
    let text := F.formatG digits value
    match F.pack (F.parse text) with
    | none => raise "OverflowError"
    | some bits =>
      if F.eq (F.ofBits bits) value then return text else shortest value remaining (digits + 1)

/-- The shortest decimal that reads back as the same 32-bit value, always with a
decimal point. -/
def formatFloat (value : F.Fl) : Exec W String := do
  let text ← shortest F value 9 1
  if text.toList.any (fun c => c == '.' || c == 'e' || c == 'E') ∨ text ∈ ["inf", "-inf", "nan"] then
    return text
  else return text ++ ".0"

def floatBinary (f : F.Fl → F.Fl → F.Fl) : Exec W Unit := do
  let b ← popFloat F
  let a ← popFloat F
  pushFloat F (f a b)

end Floats

/-! Integer arithmetic. The tag of a sum or difference is a reference if either
operand is: an offset into a block is still a reference to it. -/

def taggedBinary (f : ℤ → ℤ → ℤ) : Exec W Unit := do
  let b ← popTagged
  let a ← popTagged
  push (f a.value b.value) (a.isRef || b.isRef)

def plainBinary (f : ℕ → ℕ → ℤ) : Exec W Unit := do
  let b ← pop
  let a ← pop
  push (f a b)

def divide (message : String) (f : ℤ → ℤ → ℤ) : Exec W Unit := do
  let b ← popSigned
  let a ← popSigned
  if b = 0 then fault message
  push (f a b)

def compare (res : ℤ → ℤ → Bool) : Exec W Unit := do
  let b ← popSigned
  let a ← popSigned
  push (if res a b then 1 else 0)

def shiftLeft : Exec W Unit := do
  let count ← popSigned
  let value ← pop
  if count < 0 ∨ count > 15 then fault s!"Shift count out of range for SHL: {count}"
  push (value * 2 ^ count.toNat)

def shiftRight : Exec W Unit := do
  let count ← popSigned
  let value ← popSigned
  if count < 0 ∨ count > 15 then fault s!"Shift count out of range for SHR: {count}"
  push (value / 2 ^ count.toNat)

/-! Reading and writing the heap. -/

def readHeap (addr : ℕ) : Exec W ℕ := do
  let s ← get
  if addr + 1 < s.heapSize then return readWord s.heap addr else raise "IndexError"

def writeHeap (addr value : ℕ) : Exec W Unit := do
  let s ← get
  if addr + 1 < s.heapSize then set { s with heap := writeWord s.heap addr value }
  else raise "IndexError"

def checkHeapWord (addr : ℕ) (what : String) : Exec W Unit := do
  let s ← get
  if addr + 2 > s.heapSize then
    fault s!"{what} out of range: addr={addr}, heap_size={s.heapSize}"

/-- The address of the header of the object at `ref`, none below the heap. -/
def headerOf (ref : ℕ) : Option ℕ :=
  if ref < HEAP_START + HEADER_BYTES then none else some (ref - HEADER_BYTES)

/-- The characters of the string object at `addr`. -/
def stringBytes (addr : ℕ) : Exec W (List UInt8) := do
  if addr = NULL_ADDR then fault "Null pointer dereference on a string"
  let s ← get
  match headerOf addr with
  | some hdr =>
    if kind s.heap hdr ≠ KIND_STRING then fault s!"Value at {addr} is not a string"
    else return readBytes s.heap addr (min (detail s.heap hdr) (s.heapSize - addr))
  | none => fault s!"Value at {addr} is not a string"

def stringText (addr : ℕ) : Exec W String := do return ofLatin1 (← stringBytes addr)

/-- `(element count, holds references)` for an array reference. -/
def arrayAt (ref : ℕ) (opName : String) : Exec W (ℕ × Bool) := do
  if ref = NULL_ADDR then fault s!"Null reference in {opName}"
  let s ← get
  match headerOf ref with
  | some hdr =>
    if kind s.heap hdr = KIND_REFARRAY ∨ kind s.heap hdr = KIND_VALARRAY then
      return (detail s.heap hdr, kind s.heap hdr == KIND_REFARRAY)
    else fault s!"Value at {ref} is not an array"
  | none => fault s!"Value at {ref} is not an array"

/-- `(address of the element, whether it holds a reference)`. -/
def elementAddr (ref : ℕ) (index : ℤ) (opName : String) : Exec W (ℕ × Bool) := do
  let (count, holdsRefs) ← arrayAt ref opName
  if index < 0 ∨ index ≥ count then
    fault s!"Array index out of bounds: index={index}, length={count}"
  else return (ref + index.toNat * 2, holdsRefs)

section Execution

variable (P : CompiledProgram)

/-- Whether field `offset` of the object at `ref` holds a reference. -/
def fieldIsRef (ref offset : ℕ) : Exec W Bool := do
  let s ← get
  match headerOf ref with
  | none => return false
  | some hdr =>
    if kind s.heap hdr ≠ KIND_STRUCT then return false
    else
      match P.structs[detail s.heap hdr]? with
      | none => return false
      | some none => raise "AttributeError"
      | some (some layout) => return layout.refOffsets.contains offset

/-- The address of field `offset` of the object at `ref`. -/
def fieldAddr (ref offset : ℕ) (doing what : String) : Exec W ℕ := do
  if ref = NULL_ADDR then fault s!"Null pointer dereference {doing} a field"
  let addr := ref + offset * 2
  checkHeapWord addr what
  return addr

def allocString (data : List UInt8) : Exec W ℕ := fun s => s.allocString P data

def firstWide (text : String) : Option Char := text.toList.find? fun ch => 0xFF < ch.toNat

def wideMessage (what : String) (ch : Char) : String :=
  s!"{what} contains U+{hex4 ch.toNat}, which does not fit in a byte; a str holds one byte per character"

/-- A heap string from host text, checked to fit. -/
def stringFromText (text what : String) : Exec W ℕ :=
  match firstWide text with
  | some ch => fault (wideMessage what ch)
  | none => allocString P ((latin1 text).getD [])

/-- Run a file operation, reporting a failure instead of raising it. -/
def fileOp {α : Type} (action : W → Except String α × W) : Exec W (Option α) := fun s =>
  match action s.io with
  | (.ok a, w) => .ok (some a, { s with io := w, fileError := "" })
  | (.error e, w) => .ok (none, { s with io := w, fileError := e })

/-- What `read_file` handed back, as bytes. -/
def bytesFromIo (what : String) : FileContent → Exec W (List UInt8)
  | .bytes data => return data
  | .text text =>
    match firstWide text with
    | some ch => fault (wideMessage what ch)
    | none => return (latin1 text).getD []
  | .other typeName => fault s!"{what} is {typeName}, not bytes"

/-- An `Array<int>` read as bytes, refusing an element that is not one. -/
def elementBytes (ref : ℕ) (opName : String) : ℕ → ℕ → Exec W (List UInt8)
  | 0, _ => return []
  | remaining + 1, index => do
    let w ← readHeap (ref + index * 2)
    if w > 0xFF then
      fault s!"{opName}: element {index} is {toSigned w}, outside the 0..255 a byte holds"
    let rest ← elementBytes ref opName remaining (index + 1)
    return UInt8.ofNat w :: rest

def arrayBytes (ref : ℕ) (opName : String) : Exec W (List UInt8) := do
  let (count, holdsRefs) ← arrayAt ref opName
  if holdsRefs then fault s!"{opName} needs an array of values, not references"
  elementBytes ref opName count 0

/-- Write bytes as the elements of a value array. -/
def writeElements (ref : ℕ) : List UInt8 → Mem → Mem
  | [], m => m
  | b :: rest, m => writeElements (ref + 2) rest (writeWord m ref b.toNat)

def popArgs : ℕ → Exec W (List ℕ)
  | 0 => return []
  | n + 1 => do
    let v ← pop
    return (← popArgs n) ++ [v]

/-- Arguments land in the leading locals; one of width 2 fills two slots. -/
def scatter (widths : List ℕ) : List ℕ → ℕ → ℕ → List ℕ → List ℕ
  | [], _, _, locals => locals
  | v :: vs, i, slot, locals =>
    let width := widths.getD i 1
    let locals :=
      if width = 2 then
        if slot + 1 < locals.length then (locals.set slot (word v)).set (slot + 1) (word (v >>> 16))
        else locals
      else locals.set slot (word v)
    scatter widths vs (i + 1) (slot + width) locals

/-- Push a frame and jump into a function. -/
def enterFunction (fnId : ℕ) (opName : String) : Exec W Unit := do
  match P.functions[fnId]? with
  | none => fault s!"{opName} to invalid function index {fnId}"
  | some fn =>
    let args ← popArgs fn.numParams
    modify fun s => { s with
      callStack := ⟨s.pc, s.locals, s.frameBase, s.currentFn⟩ :: s.callStack
      currentFn := fnId
      locals := scatter fn.paramWords args 0 0 (List.replicate fn.numLocals 0)
      frameBase := s.stack.length
      pc := fn.entryPc }

/-- Every function pushes exactly one return value; that of main is the exit code. -/
def return_ : Exec W (Option ℤ) := fun s =>
  if s.stack.length ≠ s.frameBase + 1 then
    .error (.vmError (s!"Unbalanced operand stack at RET: expected {s.frameBase + 1} entries, "
      ++ s!"found {s.stack.length}"))
  else
    match s.stack, s.callStack with
    | [], _ => .error (.host "IndexError")
    | e :: rest, [] => .ok (some (toSigned e.value), { s with stack := rest })
    | e :: rest, frame :: frames => .ok (none, { s with
        stack := e :: rest
        callStack := frames
        locals := frame.locals
        frameBase := frame.stackBase
        currentFn := frame.fnIndex
        pc := frame.returnPc })

/-- Slot offsets in the order a copy visits them: back to front when the ranges
overlap forward. -/
def copyOrder (dst src : ℤ) (count : ℕ) : List ℕ :=
  if dst > src then (List.range count).reverse else List.range count

def memcpyLocals : Exec W Unit := do
  let count ← popSigned
  let src ← popSigned
  let dst ← popSigned
  if count < 0 then fault s!"MEMCPY_LOCALS negative count ({count})"
  (copyOrder dst src count.toNat).forM fun i => do setLocal (dst + i) (← getLocal (src + i))

def memsetLocals : Exec W Unit := do
  let count ← popSigned
  let value ← pop
  let dst ← popSigned
  if count < 0 then fault s!"MEMSET_LOCALS negative count ({count})"
  (List.range count.toNat).forM fun i => setLocal (dst + i) value

def jumpTo (target : ℕ) : Exec W Unit := modify fun s => { s with pc := target }

variable (F : FloatOps) (io : ProgramIO W)

def write (text : String) : Exec W Unit := fun s =>
  match io.write text s.io with
  | .ok w => .ok ((), { s with io := w })
  | .error e => .error (.host e)

def readLine : Exec W String := fun s =>
  match io.readLine s.io with
  | .ok (text, w) => .ok (text, { s with io := w })
  | .error e => .error (.host e)

def fileWrite (append : Bool) : Exec W Unit := do
  let data ← stringBytes (← pop)
  let path ← stringText (← pop)
  let ok ← fileOp (io.writeFile path data append)
  push (if ok.isSome then 1 else 0)

/-- What one instruction does, the pc already past it. -/
def execute : Instruction → Exec W Unit
  | .pushInt n => push n
  | .loadLocal slot => do
    let v ← getLocal slot
    push v ((refSlotsOf P (← get).currentFn).contains slot)
  | .storeLocal slot => do setLocal slot (← pop)
  | .add => taggedBinary (· + ·)
  | .sub => taggedBinary (· - ·)
  | .mul => plainBinary fun a b => a * b
  | .div => divide "Division by zero" truncDiv
  | .mod => divide "Modulo by zero" fun a b => a - truncDiv a b * b
  | .xor => plainBinary fun a b => (a ^^^ b : ℕ)
  | .and => plainBinary fun a b => (a &&& b : ℕ)
  | .or => plainBinary fun a b => (a ||| b : ℕ)
  | .shl => shiftLeft
  | .shr => shiftRight
  | .neg => do push (-((← pop) : ℤ))
  | .pushFloat bits => pushRaw ⟨bits % (FLOAT_MASK + 1), false⟩
  | .loadLocalF slot => do pushFloat F (← localFloat F slot)
  | .storeLocalF slot => do setLocalFloat F slot (← popFloat F)
  | .fadd => floatBinary F F.add
  | .fsub => floatBinary F F.sub
  | .fmul => floatBinary F F.mul
  | .fdiv => do
    let b ← popFloat F
    let a ← popFloat F
    if F.eq b (F.ofInt 0) then fault "Float division by zero"
    pushFloat F (F.div a b)
  | .fneg => do pushFloat F (F.neg (← popFloat F))
  | .fcmp => do
    let b ← popFloat F
    let a ← popFloat F
    push ((if F.lt b a then 1 else 0) - (if F.lt a b then 1 else 0))
  | .fFromInt => do pushFloat F (F.ofInt (← popSigned))
  | .fToInt => do
    let value ← popFloat F
    match F.trunc value with
    | none => raise "OverflowError"
    | some truncated =>
      if truncated < -0x8000 ∨ truncated > 0x7FFF then
        fault s!"float_to_int: {F.repr value} does not fit in a 16-bit int"
      push truncated
  | .cmpEq => compare fun a b => a == b
  | .cmpNe => compare fun a b => a != b
  | .cmpLt => compare fun a b => a < b
  | .cmpLe => compare fun a b => a ≤ b
  | .cmpGt => compare fun a b => a > b
  | .cmpGe => compare fun a b => a ≥ b
  | .loadStr sid => do
    match (← get).literals[sid]? with
    | some addr => push addr true
    | none => fault s!"Unknown string id {sid}"
  | .strCmp => do
    let b ← stringBytes (← pop)
    let a ← stringBytes (← pop)
    push (if a = b then 0 else if b < a then 1 else -1)
  | .strLen => do push (← stringBytes (← pop)).length
  | .strCharAt => do
    let index ← popSigned
    let data ← stringBytes (← pop)
    if index < 0 ∨ index ≥ data.length then
      fault s!"str_char_at index out of range: index={index}, length={data.length}"
    push (data.getD index.toNat 0).toNat
  | .strConcat => do
    let right ← stringBytes (← pop)
    let left ← stringBytes (← pop)
    push (← allocString P (left ++ right)) true
  | .strSlice => do
    let stop ← popSigned
    let start ← popSigned
    let data ← stringBytes (← pop)
    if start < 0 ∨ stop > data.length ∨ start > stop then
      fault s!"str_slice range out of bounds: start={start}, end={stop}, length={data.length}"
    push (← allocString P ((data.take stop.toNat).drop start.toNat)) true
  | .strFromFloat => do
    let text ← formatFloat F (← popFloat F)
    match latin1 text with
    | some data => push (← allocString P data) true
    | none => raise "UnicodeEncodeError"
  | .strFromInt => do push (← allocString P ((latin1 (toString (← popSigned))).getD [])) true
  | .strFromChar => do
    let charCode ← popSigned
    if charCode < 0 ∨ charCode > 255 then
      fault s!"char_to_str expects a code in 0..255, got {charCode}"
    push (← allocString P [UInt8.ofNat charCode.toNat]) true
  | .not => do push (if (← pop) = 0 then 1 else 0)
  | .bitnot => do push (-((← pop) : ℤ) - 1)
  | .jmp target => jumpTo target
  | .jz target => do if (← pop) = 0 then jumpTo target
  | .jnz target => do if (← pop) ≠ 0 then jumpTo target
  | .call fn => enterFunction P fn "CALL"
  | .callIndirect => do enterFunction P (← pop) "CALL_INDIRECT"
  | .ret => return ()
  | .boundsCheck length => do
    let idx := toSigned (← peek "BOUNDS_CHECK").value
    if idx < 0 ∨ idx ≥ length then
      fault s!"Array index out of bounds: index={idx}, length={length}"
  | .loadLocalIdx slot => do push (← getLocal (slot + (← popSigned)))
  | .storeLocalIdx slot => do
    let idx ← popSigned
    setLocal (slot + idx) (← pop)
  | .loadIndirect => do push (← getLocal (← popSigned))
  | .storeIndirect => do
    let v ← pop
    setLocal (← popSigned) v
  | .memcpyLocals => memcpyLocals
  | .memsetLocals => memsetLocals
  | .pop => do let _ ← pop
  | .dup => do pushRaw (← peek "DUP")
  | .swap => do
    let b ← popTagged
    let a ← popTagged
    pushRaw b
    pushRaw a
  | .printFloat => do write io (← formatFloat F (← popFloat F))
  | .printlnFloat => do write io ((← formatFloat F (← popFloat F)) ++ "\n")
  | .printInt => do write io (toString (← popSigned))
  | .printStr => do write io (← stringText (← pop))
  | .printlnInt => do write io (toString (← popSigned) ++ "\n")
  | .printlnStr => do write io ((← stringText (← pop)) ++ "\n")
  | .alloc => do
    let size ← popSigned
    push (← (fun s => s.allocRaw P size : Exec W ℕ)) true
  | .tagOf => do
    let ref ← pop
    if ref = NULL_ADDR then fault "Null reference in match"
    let s ← get
    match headerOf ref with
    | some hdr =>
      if kind s.heap hdr ≠ KIND_STRUCT then fault s!"Value at {ref} is not a variant"
      push (detail s.heap hdr)
    | none => fault s!"Value at {ref} is not a variant"
  | .loadVariant typeId => do
    match (← get).variants[typeId]? with
    | some addr => push addr true
    | none => fault s!"Unknown variant type id {typeId}"
  | .readLine => do push (← stringFromText P (← readLine io) "input") true
  | .argc => do push (← get).args.length
  | .argv => do
    let index ← popSigned
    let args := (← get).args
    if index < 0 ∨ index ≥ args.length then
      fault s!"argv index out of bounds: index={index}, argc={args.length}"
    push (← stringFromText P (args.getD index.toNat "") "an argument") true
  | .fileRead => do
    let path ← stringText (← pop)
    match ← fileOp (io.readFile path) with
    | some content => push (← allocString P (← bytesFromIo s!"'{path}'" content)) true
    | none => push (← allocString P []) true
  | .fileWrite => fileWrite io false
  | .fileAppend => fileWrite io true
  | .fileExists => do
    let path ← stringText (← pop)
    let present ← fileOp (io.fileExists path)
    push (if present = some true then 1 else 0)
  | .fileDelete => do
    let path ← stringText (← pop)
    let ok ← fileOp (io.deleteFile path)
    push (if ok.isSome then 1 else 0)
  | .fileError => do push (← stringFromText P (← get).fileError "a file error") true
  | .fileReadBytes => do
    let path ← stringText (← pop)
    let content ← fileOp (io.readFile path)
    let data ← match content with
      | some content => bytesFromIo s!"'{path}'" content
      | none => pure []
    let ref ← (fun s => s.allocArray P data.length false : Exec W ℕ)
    modify fun s => { s with heap := writeElements ref data s.heap }
    push ref true
  | .fileWriteBytes => do
    let data ← arrayBytes (← pop) "file_write_bytes"
    let path ← stringText (← pop)
    let ok ← fileOp (io.writeFile path data false)
    push (if ok.isSome then 1 else 0)
  | .gc => fun s => (s.collect P).map fun s => ((), s)
  | .panic => do fault (← stringText (← pop))
  | .newArray holdsRefs => do
    let count ← popSigned
    push (← (fun s => s.allocArray P count holdsRefs : Exec W ℕ)) true
  | .arrayLen => do push (← arrayAt (← pop) "ARRAY_LEN").1
  | .arrayGet => do
    let index ← popSigned
    let (addr, holdsRefs) ← elementAddr (← pop) index "ARRAY_GET"
    push (← readHeap addr) holdsRefs
  | .arraySet => do
    let value ← pop
    let index ← popSigned
    let (addr, _) ← elementAddr (← pop) index "ARRAY_SET"
    writeHeap addr value
  | .allocTyped typeId => do push (← (fun s => s.allocStruct P typeId : Exec W ℕ)) true
  | .heapLoad => do
    let addr ← pop
    if addr = NULL_ADDR then fault "Null pointer dereference in HEAP_LOAD"
    checkHeapWord addr "HEAP_LOAD"
    push (← readHeap addr)
  | .heapStore => do
    let value ← pop
    let addr ← pop
    if addr = NULL_ADDR then fault "Null pointer dereference in HEAP_STORE"
    checkHeapWord addr "HEAP_STORE"
    writeHeap addr value
  | .heapLoadField offset => do
    let ref ← pop
    let addr ← fieldAddr ref offset "reading" "HEAP_LOAD_FIELD"
    let v ← readHeap addr
    push v (← fieldIsRef P ref offset)
  | .heapStoreField offset => do
    let value ← pop
    let ref ← pop
    let addr ← fieldAddr ref offset "writing" "HEAP_STORE_FIELD"
    writeHeap addr value
  | .heapLoadFieldF offset => do
    let ref ← pop
    let addr ← fieldAddr ref offset "reading" "HEAP_LOAD_FIELD_F"
    checkHeapWord (addr + 2) "HEAP_LOAD_FIELD_F"
    let lo ← readHeap addr
    let hi ← readHeap (addr + 2)
    pushFloat F (bitsToFloat F (lo ||| hi <<< 16))
  | .heapStoreFieldF offset => do
    let bits ← floatToBits F (← popFloat F)
    let ref ← pop
    let addr ← fieldAddr ref offset "writing" "HEAP_STORE_FIELD_F"
    checkHeapWord (addr + 2) "HEAP_STORE_FIELD_F"
    writeHeap addr bits
    writeHeap (addr + 2) (bits >>> 16)

/-- What a step of the loop comes to. -/
inductive Progress (W : Type)
  | running (s : VM W)
  | exited (code : ℤ) (s : VM W)

/-- One iteration of the loop. Running off the end of the code exits with 0. -/
def VM.step (s : VM W) : Except Fault (Progress W) :=
  match P.code[s.pc]? with
  | none => .ok (.exited 0 s)
  | some .ret =>
    match return_ { s with pc := s.pc + 1 } with
    | .error e => .error e
    | .ok (some code, s) => .ok (.exited code s)
    | .ok (none, s) => .ok (.running s)
  | some instr =>
    match execute P F io instr { s with pc := s.pc + 1 } with
    | .error e => .error e
    | .ok (_, s) => .ok (.running s)

end Execution

/-- `func_index`: of two functions of one name the later counts. -/
def CompiledProgram.funcIndex (P : CompiledProgram) (name : String) : Option ℕ :=
  (P.functions.zipIdx.filter fun f => f.1.name = name).getLast?.map Prod.snd

/-- The state `run_main` starts the loop in. -/
def VM.start (P : CompiledProgram) (args : List String) (io : W) : Except Fault (VM W) :=
  match P.funcIndex "main" with
  | none => .error (.vmError "No 'main' function defined")
  | some idx =>
    match ({ args := args, io := io } : VM W).materialiseLiterals P with
    | .error e => .error e
    | .ok s =>
      match s.materialiseVariants P with
      | .error e => .error e
      | .ok s =>
        let fn := P.functions.getD idx ⟨"", 0, 0, 0, [], [], [], ""⟩
        .ok { s with
          locals := List.replicate fn.numLocals 0
          currentFn := idx
          pc := fn.entryPc
          frameBase := 0 }

end QuinLang
