import QuinLang.Runtime.Collector

/-! Allocation: a bump of `heapPtr`, retried once after a collection, and the two
tables filled with permanent roots before the program starts. -/

namespace QuinLang

open ByteMem

variable {W : Type}

def VM.bump (payload kind detail : ℕ) (s : VM W) : Option (ℕ × VM W) :=
  let stop := s.heapPtr + HEADER_BYTES + payload
  if stop > s.heapSize then none
  else
    let hdr := s.heapPtr
    some (hdr + HEADER_BYTES, { s with
      heapPtr := stop
      heap := writeHeader s.heap hdr kind detail
      stats := { s.stats with objectsAllocated := s.stats.objectsAllocated + 1 } })

/-- A payload large enough and even, so that every word access stays aligned. -/
def roundPayload (payload : ℕ) : ℕ :=
  let payload := max payload MIN_PAYLOAD
  if payload % 2 = 1 then payload + 1 else payload

/-- Find room for a block, collecting once if the heap is full. -/
def VM.reserve (P : CompiledProgram) (payload kind detail : ℕ) (s : VM W) : Except Fault (ℕ × VM W) :=
  let payload := roundPayload payload
  match s.bump payload kind detail with
  | some r => .ok r
  | none =>
    match s.collect P with
    | .error e => .error e
    | .ok s =>
      match s.bump payload kind detail with
      | some r => .ok r
      | none => .error (.vmError "Heap out of memory")

/-- The word addresses `for off in range(0, bytes, 2)` visits. -/
def wordsFrom (addr bytes : ℕ) : List ℕ := (List.range ((bytes + 1) / 2)).map fun i => addr + i * 2

def VM.allocStruct (P : CompiledProgram) (typeId : ℕ) (s : VM W) : Except Fault (ℕ × VM W) :=
  match P.structs[typeId]? with
  | none => .error (.vmError s!"ALLOC_TYPED with unknown struct type id {typeId}")
  | some none => .error (.host "AttributeError")
  | some (some layout) =>
    let payload := layout.wordSize * 2
    match s.reserve P payload KIND_STRUCT typeId with
    | .error e => .error e
    | .ok (addr, s) =>
      .ok (addr, { s with heap := fill s.heap 0 (wordsFrom addr (max payload MIN_PAYLOAD)) })

def VM.allocArray (P : CompiledProgram) (count : ℤ) (holdsRefs : Bool) (s : VM W) :
    Except Fault (ℕ × VM W) :=
  if count < 0 then .error (.vmError s!"Cannot build an array of {count} elements")
  else if count > 0x7FFF then .error (.vmError s!"Array of {count} elements is too long")
  else
    let n := count.toNat
    match s.reserve P (n * 2) (if holdsRefs then KIND_REFARRAY else KIND_VALARRAY) n with
    | .error e => .error e
    | .ok (addr, s) =>
      .ok (addr, { s with heap := fill s.heap 0 (wordsFrom addr (max (n * 2) MIN_PAYLOAD)) })

def VM.allocRaw (P : CompiledProgram) (size : ℤ) (s : VM W) : Except Fault (ℕ × VM W) :=
  if size < 0 then .error (.vmError s!"Cannot allocate a negative size ({size})")
  else
    let n := size.toNat
    let rounded := if n % 2 = 1 then n + 1 else n
    let payload := max rounded MIN_PAYLOAD
    match s.reserve P payload KIND_RAW payload with
    | .error e => .error e
    | .ok (addr, s) => .ok (addr, { s with heap := fill s.heap 0 (wordsFrom addr payload) })

def VM.allocString (P : CompiledProgram) (data : List UInt8) (s : VM W) : Except Fault (ℕ × VM W) :=
  let length := data.length
  if length > 0x7FFF then .error (.vmError s!"String of {length} characters is too long")
  else
    match s.reserve P length KIND_STRING length with
    | .error e => .error e
    | .ok (addr, s) =>
      let m := writeBytes s.heap addr data
      -- the rounding byte is never stale
      let m := if length % 2 = 1 then writeBytes m (addr + length) [0] else m
      .ok (addr, { s with heap := m })

/-- `text.encode("latin-1")`, none where a character does not fit in a byte. -/
def latin1 (text : String) : Option (List UInt8) :=
  text.toList.mapM fun ch => if ch.toNat ≤ 0xFF then some (UInt8.ofNat ch.toNat) else none

/-- Allocate the listed literals, recording each where its id says. -/
def VM.fillLiterals (P : CompiledProgram) : List (ℕ × String) → VM W → Except Fault (VM W)
  | [], s => .ok s
  | (sid, text) :: rest, s =>
    match latin1 text with
    | none => .error (.host "UnicodeEncodeError")
    | some data =>
      match s.allocString P data with
      | .error e => .error e
      | .ok (addr, s) => VM.fillLiterals P rest { s with literals := s.literals.set sid addr }

/-- Copy every literal into the heap before the program starts. -/
def VM.materialiseLiterals (P : CompiledProgram) (s : VM W) : Except Fault (VM W) :=
  let count := if P.strings = [] then 0 else (P.strings.map Prod.fst).foldl max 0 + 1
  VM.fillLiterals P P.strings { s with literals := List.replicate count NULL_ADDR }

/-- Allocate the one instance of each payload-free variant among the layouts
from `typeId` on. -/
def VM.fillVariants (P : CompiledProgram) : ℕ → List (Option StructLayout) → VM W → Except Fault (VM W)
  | _, [], s => .ok s
  | typeId, layout :: layouts, s =>
    if layout.any fun l => l.isVariant && l.wordSize == 0 then
      match s.allocStruct P typeId with
      | .error e => .error e
      | .ok (addr, s) =>
        VM.fillVariants P (typeId + 1) layouts { s with variants := s.variants.set typeId addr }
    else VM.fillVariants P (typeId + 1) layouts s

def VM.materialiseVariants (P : CompiledProgram) (s : VM W) : Except Fault (VM W) :=
  VM.fillVariants P 0 P.structs { s with variants := List.replicate P.structs.length NULL_ADDR }

end QuinLang
