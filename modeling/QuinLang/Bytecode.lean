import Mathlib

/-! The instruction set and what a compiled program consists of. An instruction
carries its operand exactly when the interpreter reads one. -/

namespace QuinLang

inductive Instruction
  -- stack and locals
  | pushInt (arg : ℕ)
  | loadLocal (slot : ℕ)
  | storeLocal (slot : ℕ)
  -- arithmetic
  | add | sub | mul | div | mod | xor | and | or | shl | shr | neg
  -- comparisons
  | cmpEq | cmpNe | cmpLt | cmpLe | cmpGt | cmpGe
  -- strings
  | loadStr (sid : ℕ)
  | strCmp | strLen | strCharAt | strConcat | strSlice | strFromInt | strFromChar
  -- floats
  | pushFloat (bits : ℕ)
  | loadLocalF (slot : ℕ)
  | storeLocalF (slot : ℕ)
  | fadd | fsub | fmul | fdiv | fneg | fcmp | fFromInt | fToInt | strFromFloat
  | printFloat | printlnFloat
  -- logical
  | not | bitnot
  -- control flow
  | jmp (target : ℕ)
  | jz (target : ℕ)
  | jnz (target : ℕ)
  -- calls
  | call (fn : ℕ)
  | ret
  -- frame arrays
  | loadLocalIdx (slot : ℕ)
  | storeLocalIdx (slot : ℕ)
  | boundsCheck (length : ℕ)
  -- indirect access to the frame
  | loadIndirect | storeIndirect | memcpyLocals | memsetLocals
  -- stack management
  | pop | dup | swap
  -- output
  | printInt | printStr | printlnInt | printlnStr
  -- heap
  | alloc
  | allocTyped (typeId : ℕ)
  | heapLoad | heapStore
  | heapLoadField (offset : ℕ)
  | heapStoreField (offset : ℕ)
  | heapLoadFieldF (offset : ℕ)
  | heapStoreFieldF (offset : ℕ)
  | gc | panic
  -- sum types
  | tagOf
  | loadVariant (typeId : ℕ)
  -- program input
  | readLine | argc | argv
  | callIndirect
  -- heap arrays; the operand says whether the elements are references
  | newArray (holdsRefs : Bool)
  | arrayLen | arrayGet | arraySet
  -- files
  | fileRead | fileWrite | fileAppend | fileExists | fileDelete | fileError
  | fileReadBytes | fileWriteBytes
  deriving DecidableEq, Repr, Inhabited

/-- A source position: 1-based line and column, both 0 for a synthesised node. -/
structure Pos where
  line : ℕ := 0
  col : ℕ := 0
  deriving DecidableEq, Repr, Inhabited

/-- From the pc on, the position is this; ascending in the pc. -/
structure SourceMap where
  markers : List (ℕ × Pos) := []
  deriving DecidableEq, Repr, Inhabited

/-- `SourceMapBuilder.mark`: a marker at the pc of the last one replaces it, and
one repeating the position in force adds nothing. The last marker is the head. -/
def SourceMap.mark (built : List (ℕ × Pos)) (pc : ℕ) (pos : Pos) : List (ℕ × Pos) :=
  match built with
  | [] => [(pc, pos)]
  | (lastPc, lastPos) :: rest =>
    if lastPc = pc then (lastPc, pos) :: rest
    else if lastPos = pos then built
    else (pc, pos) :: built

/-- The builder's result after a sequence of calls of `mark`. -/
def SourceMap.build (marks : List (ℕ × Pos)) : SourceMap :=
  ⟨(marks.foldl (fun built m => SourceMap.mark built m.1 m.2) []).reverse⟩

/-- One field of a struct, for reporting and inspection. -/
structure FieldLayout where
  name : String
  typeName : String
  offset : ℕ
  deriving DecidableEq, Repr

/-- What the collector needs to know about one struct type. -/
structure StructLayout where
  name : String
  wordSize : ℕ
  refOffsets : List ℕ := []
  fields : List FieldLayout := []
  isVariant : Bool := false
  deriving DecidableEq, Repr

/-- One named slot in a frame. -/
structure LocalInfo where
  name : String
  slot : ℕ
  typeName : String
  words : ℕ
  isParam : Bool
  deriving DecidableEq, Repr

structure FunctionInfo where
  name : String
  entryPc : ℕ
  numLocals : ℕ
  numParams : ℕ
  refSlots : List ℕ := []
  paramWords : List ℕ := []
  locals : List LocalInfo := []
  sourceFile : String := ""
  deriving DecidableEq, Repr

/-- Everything code generation produces. A type id no declared type carries
leaves a hole in the struct table. -/
structure CompiledProgram where
  code : List Instruction
  functions : List FunctionInfo
  strings : List (ℕ × String)
  structs : List (Option StructLayout)
  sourceMap : SourceMap := {}
  deriving DecidableEq, Repr

end QuinLang
