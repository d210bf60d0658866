import QuinLang.Bytecode
import QuinLang.Lib.ByteMem

/-! The state of a QuinVM and the constants its heap is built on. The tables the
constructor is given (code, functions, strings, structs) stay in the compiled
program; everything the interpreter writes is here. -/

namespace QuinLang

open ByteMem

def WORD_MASK : ℕ := 0xFFFF
def SIGN_BIT : ℕ := 0x8000
def HEAP_SIZE : ℕ := 64 * 1024
def NULL_ADDR : ℕ := 0
def HEADER_BYTES : ℕ := 4
def HEAP_START : ℕ := NULL_ADDR + 2
def KIND_STRUCT : ℕ := 0
def KIND_RAW : ℕ := 1
def KIND_STRING : ℕ := 2
def KIND_REFARRAY : ℕ := 3
def KIND_VALARRAY : ℕ := 4
def MARK_BIT : ℕ := 0x8000
def MIN_PAYLOAD : ℕ := 2

/-- How a run can stop badly: a `VMError` with its undecorated message, or an
exception of the host that the interpreter does not turn into one. -/
inductive Fault
  | vmError (message : String)
  | host (exception : String)
  deriving DecidableEq, Repr

/-- `self.x & 0xFFFF`. -/
def word (v : ℕ) : ℕ := v % 65536

/-- A signed result narrowed to a 16-bit word. -/
def wordOfInt (v : ℤ) : ℕ := (v % 65536).toNat

/-- Reinterpret a 16-bit word as a signed integer. -/
def toSigned (v : ℕ) : ℤ := if word v < SIGN_BIT then (word v : ℤ) else (word v : ℤ) - 0x10000

/-- One operand-stack entry with its reference tag; `stack` and `stack_is_ref`
are pushed and popped together. -/
structure Entry where
  value : ℕ
  isRef : Bool
  deriving DecidableEq, Repr

/-- A suspended caller, restored on RET. -/
structure Frame where
  returnPc : ℕ
  locals : List ℕ
  stackBase : ℕ
  fnIndex : ℕ
  deriving DecidableEq, Repr

structure HeapStats where
  collections : ℕ := 0
  objectsFreed : ℕ := 0
  bytesFreed : ℕ := 0
  objectsAllocated : ℕ := 0
  objectsMoved : ℕ := 0
  deriving DecidableEq, Repr

/-- The machine. The top of `stack` and the innermost suspended caller of
`callStack` are the heads of their lists; `W` is the state of the program's
`ProgramIO`. -/
structure VM (W : Type) where
  stack : List Entry := []
  callStack : List Frame := []
  pc : ℕ := 0
  locals : List ℕ := []
  currentFn : ℕ := 0
  frameBase : ℕ := 0
  heap : Mem := fun _ => 0
  heapSize : ℕ := HEAP_SIZE
  heapPtr : ℕ := HEAP_START
  stats : HeapStats := {}
  literals : List ℕ := []
  variants : List ℕ := []
  fileError : String := ""
  args : List String := []
  io : W

/-- What a layout promises the collector: the reference offsets are distinct
words of the object. -/
structure StructLayout.WellFormed (l : StructLayout) : Prop where
  nodup : l.refOffsets.Nodup
  inside : ∀ off ∈ l.refOffsets, off < l.wordSize

theorem word_of_lt {v : ℕ} (h : v < 65536) : word v = v := Nat.mod_eq_of_lt h

end QuinLang
