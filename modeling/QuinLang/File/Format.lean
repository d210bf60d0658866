import QuinLang.File.OpCodes

/-! Writing a program to bytes and reading it back. -/

namespace QuinLang

open Codec

def MAGIC : List UInt8 := [0x51, 0x4C, 0x43, 0x1A]
def FORMAT_VERSION : ℕ := 1
def HAS_DEBUG_INFO : ℕ := 1
def HAS_OPERAND : ℕ := 0x8000
def MAX_OPCODE : ℕ := HAS_OPERAND - 1
def MAX_OPERAND : ℤ := 0xFFFFFFFF

/-- How reading or writing a file fails: with a `BytecodeError`, or with an exception
nothing turned into one. -/
inductive FileError
  | bytecode (message : String)
  | struct
  | index
  | unicodeDecode
  | value
  | attribute
  deriving DecidableEq, Repr

abbrev Written := Except FileError (List UInt8)

def FunctionInfo.withoutDebug (fn : FunctionInfo) : FunctionInfo := { fn with locals := [], sourceFile := "" }

section Writing

/-- `struct.pack` of an unsigned number of `count` bytes. -/
def structPack (count v : ℕ) : Written := if v < 256 ^ count then .ok (littleEndian count v) else .error .struct

def u8 (v : ℕ) : Written := structPack 1 v
def u16 (v : ℕ) : Written := structPack 2 v
def u32 (v : ℕ) : Written := structPack 4 v

def encodeUtf8 (value : String) : List UInt8 := value.toUTF8.data.toList

def text (value : String) : Written := do
  let encoded := encodeUtf8 value
  return (← u32 encoded.length) ++ encoded

/-- Write each value in turn, the first with index `i`. -/
def eachOf {α : Type} (write : ℕ → α → Written) : ℕ → List α → Written
  | _, [] => return []
  | i, x :: xs => do
    let w ← write i x
    return w ++ (← eachOf write (i + 1) xs)

/-- A count and that many values. -/
def counted {α : Type} (write : ℕ → α → Written) (xs : List α) : Written := do
  let n ← u32 xs.length
  return n ++ (← eachOf write 0 xs)

def u32List (values : List ℕ) : Written := counted (fun _ v => u32 v) values

def flag (b : Bool) : Written := u8 (if b then 1 else 0)

/-- `sorted(strings.items())`. -/
def sortedItems (strings : List (ℕ × String)) : List (ℕ × String) :=
  strings.insertionSort fun a b => a.1 ≤ b.1

def writeString (_ : ℕ) (item : ℕ × String) : Written := do
  let id ← u32 item.1
  return id ++ (← text item.2)

def writeField (_ : ℕ) (f : FieldLayout) : Written := do
  let name ← text f.name
  let type ← text f.typeName
  return name ++ (type ++ (← u32 f.offset))

/-- A hole has no name to write. -/
def writeStruct (_ : ℕ) : Option StructLayout → Written
  | none => .error .attribute
  | some l => do
    let name ← text l.name
    let size ← u32 l.wordSize
    let variant ← flag l.isVariant
    let refs ← u32List l.refOffsets
    return name ++ (size ++ (variant ++ (refs ++ (← counted writeField l.fields))))

def writeLocal (_ : ℕ) (l : LocalInfo) : Written := do
  let name ← text l.name
  let slot ← u32 l.slot
  let type ← text l.typeName
  let words ← u32 l.words
  return name ++ (slot ++ (type ++ (words ++ (← flag l.isParam))))

def writeDebug (debug : Bool) (fn : FunctionInfo) : Written :=
  if debug then do
    let file ← text fn.sourceFile
    return file ++ (← counted writeLocal fn.locals)
  else return []

def writeFunction (debug : Bool) (_ : ℕ) (fn : FunctionInfo) : Written := do
  let name ← text fn.name
  let entry ← u32 fn.entryPc
  let locals ← u32 fn.numLocals
  let params ← u32 fn.numParams
  let refs ← u32List fn.refSlots
  let words ← u32List fn.paramWords
  return name ++ (entry ++ (locals ++ (params ++ (refs ++ (words ++ (← writeDebug debug fn))))))

def writeInstruction (pc : ℕ) (r : RawInstruction) : Written :=
  if r.op.number > MAX_OPCODE then
    .error (.bytecode (s!"opcode {r.op.name} is numbered {r.op.number}, past what "
      ++ s!"the format encodes ({MAX_OPCODE})"))
  else
    match r.arg with
    | none => u16 r.op.number
    | some arg =>
      if 0 ≤ arg ∧ arg ≤ MAX_OPERAND then do
        let op ← u16 (r.op.number ||| HAS_OPERAND)
        return op ++ (← u32 arg.toNat)
      else
        .error (.bytecode (s!"{r.op.name} at pc {pc} has operand "
          ++ s!"{arg}, outside the 32 bits the format holds"))

def writeMarker (_ : ℕ) (m : ℕ × Pos) : Written := do
  let pc ← u32 m.1
  let line ← u32 m.2.line
  return pc ++ (line ++ (← u32 m.2.col))

def writeSourceMap (debug : Bool) (sourceMap : SourceMap) : Written :=
  if debug then counted writeMarker sourceMap.markers else return []

def dumps (program : ProgramFile) (debug : Bool) : Written := do
  let version ← u16 FORMAT_VERSION
  let flags ← u16 (if debug then HAS_DEBUG_INFO else 0)
  let strings ← counted writeString (sortedItems program.strings)
  let structs ← counted writeStruct program.structs
  let functions ← counted (writeFunction debug) program.functions
  let code ← counted writeInstruction program.code
  let sourceMap ← writeSourceMap debug program.sourceMap
  return MAGIC ++ (version ++ (flags ++ (strings ++ (structs ++ (functions ++ (code ++ sourceMap))))))

end Writing

section Reading

abbrev Read (α : Type) := Reader FileError α

def takeBytes (count : ℕ) : Read (List UInt8) :=
  take (.bytecode "the file ends in the middle of a record") count

/-- `struct.unpack` of `count` bytes. -/
def unpack (count : ℕ) : Read ℕ := do
  let bytes ← takeBytes count
  if bytes.length = count then return ofLittleEndian bytes else throw .struct

/-- `self.take(1)[0]`. -/
def readU8 : Read ℕ := do
  match ← takeBytes 1 with
  | b :: _ => return b.toNat
  | [] => throw .index

def readU16 : Read ℕ := unpack 2
def readU32 : Read ℕ := unpack 4

/-- What `bytes.decode("utf-8")` returns or raises. -/
def decodeUtf8 (bytes : List UInt8) : Except FileError String :=
  match String.fromUTF8? ⟨bytes.toArray⟩ with
  | some s => .ok s
  | none => .error .unicodeDecode

def readText : Read String := do
  let bytes ← takeBytes (← readU32)
  match decodeUtf8 bytes with
  | .ok s => return s
  | .error .unicodeDecode => throw (.bytecode "a string in the file is not UTF-8")
  | .error e => throw e

def readMany {α : Type} (r : ℕ → Read α) : Read (List α) := do many r 0 (← readU32)

def readU32List : Read (List ℕ) := readMany fun _ => readU32

def readFlag : Read Bool := do return (← readU8) ≠ 0

/-- `d[key] = value`. -/
def setItem (d : List (ℕ × String)) (item : ℕ × String) : List (ℕ × String) :=
  if d.any fun e => e.1 = item.1 then d.map fun e => if e.1 = item.1 then item else e else d ++ [item]

def readString (_ : ℕ) : Read (ℕ × String) := do
  let id ← readU32
  return (id, ← readText)

def readStrings : Read (List (ℕ × String)) := do return (← readMany readString).foldl setItem []

def readField (_ : ℕ) : Read FieldLayout := do
  let name ← readText
  let type ← readText
  return ⟨name, type, ← readU32⟩

def readStruct (_ : ℕ) : Read (Option StructLayout) := do
  let name ← readText
  let size ← readU32
  let variant ← readFlag
  let refs ← readU32List
  return some ⟨name, size, refs, ← readMany readField, variant⟩

def readLocal (_ : ℕ) : Read LocalInfo := do
  let name ← readText
  let slot ← readU32
  let type ← readText
  let words ← readU32
  return ⟨name, slot, type, words, ← readFlag⟩

/-- The file and the local names of a function. -/
def readDebug (debug : Bool) : Read (String × List LocalInfo) :=
  if debug then do
    let file ← readText
    return (file, ← readMany readLocal)
  else return ("", [])

def readFunction (debug : Bool) (_ : ℕ) : Read FunctionInfo := do
  let name ← readText
  let entry ← readU32
  let locals ← readU32
  let params ← readU32
  let refs ← readU32List
  let words ← readU32List
  let info ← readDebug debug
  return ⟨name, entry, locals, params, refs, words, info.2, info.1⟩

/-- `OpCode(number)`, or the exception it raises. -/
def opCode (number : ℕ) : Except FileError OpCode :=
  match OpCode.ofNumber? number with
  | some op => .ok op
  | none => .error .value

def readOpCode (number pc : ℕ) : Read OpCode :=
  match opCode number with
  | .ok op => return op
  | .error .value => throw (.bytecode (s!"opcode {number} at pc {pc} is not one this build has; the "
      ++ "file was written by a different compiler"))
  | .error e => throw e

def readOperand (present : Bool) : Read (Option ℤ) :=
  if present then do return some (← readU32) else return none

def readInstruction (pc : ℕ) : Read RawInstruction := do
  let field ← readU16
  let op ← readOpCode (field &&& MAX_OPCODE) pc
  return ⟨op, ← readOperand (field &&& HAS_OPERAND ≠ 0)⟩

def readMarker (_ : ℕ) : Read (ℕ × Pos) := do
  let pc ← readU32
  let line ← readU32
  return (pc, ⟨line, ← readU32⟩)

def readSourceMap (debug : Bool) : Read SourceMap :=
  if debug then do return ⟨← readMany readMarker⟩ else return {}

def readMagic : Read Unit := do
  if (← takeBytes MAGIC.length) ≠ MAGIC then throw (.bytecode "not a QuinLang bytecode file")

def readVersion : Read Unit := do
  let version ← readU16
  if version ≠ FORMAT_VERSION then
    throw (.bytecode (s!"bytecode format {version}, but this build reads only "
      ++ s!"{FORMAT_VERSION}; recompile from source"))

/-- The program, up to the check that nothing follows it. -/
def readProgram : Read ProgramFile := do
  readMagic
  readVersion
  let flags ← readU16
  let debug := flags &&& HAS_DEBUG_INFO ≠ 0
  let strings ← readStrings
  let structs ← readMany readStruct
  let functions ← readMany (readFunction debug)
  let code ← readMany readInstruction
  return ⟨code, functions, strings, structs, ← readSourceMap debug⟩

def loads (data : List UInt8) : Except FileError ProgramFile :=
  match readProgram data with
  | .error e => .error e
  | .ok (program, []) => .ok program
  | .ok (_, rest) => .error (.bytecode s!"{rest.length} trailing bytes after the program")

end Reading

end QuinLang
