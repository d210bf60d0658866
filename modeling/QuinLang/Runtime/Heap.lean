import QuinLang.Runtime.State

/-! Object headers and the walk over the blocks of the heap. Addresses are header
addresses unless they are called references; a reference points `HEADER_BYTES`
above its header. -/

namespace QuinLang

open ByteMem

def kind (m : Mem) (hdr : ℕ) : ℕ := readWord m hdr % MARK_BIT

def isMarked (m : Mem) (hdr : ℕ) : Bool := decide (MARK_BIT ≤ readWord m hdr)

def setMark (m : Mem) (hdr : ℕ) (marked : Bool) : Mem :=
  let flags := readWord m hdr
  writeWord m hdr (if marked then flags % MARK_BIT + MARK_BIT else flags % MARK_BIT)

def detail (m : Mem) (hdr : ℕ) : ℕ := readWord m (hdr + 2)

/-- Payload bytes of the block whose header is at `hdr`. -/
def payloadSize (P : CompiledProgram) (m : Mem) (hdr : ℕ) : Except Fault ℕ :=
  if kind m hdr = KIND_STRUCT then
    match P.structs[detail m hdr]? with
    | none => .error (.vmError
        s!"Corrupt heap: object at {hdr} has unknown type id {detail m hdr}")
    | some none => .error (.host "AttributeError")
    | some (some layout) => .ok (max (layout.wordSize * 2) MIN_PAYLOAD)
  else if kind m hdr = KIND_REFARRAY ∨ kind m hdr = KIND_VALARRAY then
    .ok (max (detail m hdr * 2) MIN_PAYLOAD)
  else if kind m hdr = KIND_STRING then
    .ok (max (detail m hdr + detail m hdr % 2) MIN_PAYLOAD)
  else .ok (detail m hdr)

def blockEnd (P : CompiledProgram) (m : Mem) (hdr : ℕ) : Except Fault ℕ :=
  match payloadSize P m hdr with
  | .ok payload => .ok (hdr + HEADER_BYTES + payload)
  | .error e => .error e

def writeHeader (m : Mem) (hdr kind detail : ℕ) : Mem :=
  writeWord (writeWord m hdr kind) (hdr + 2) detail

theorem blockEnd_gt {P : CompiledProgram} {m : Mem} {hdr e : ℕ} (h : blockEnd P m hdr = .ok e) :
    hdr < e := by
  unfold blockEnd at h
  split at h
  · cases h
    simp only [HEADER_BYTES]
    omega
  · cases h

/-- `_blocks` from `addr` on: every header met before `heapPtr`, in address order. -/
def blocksFrom (P : CompiledProgram) (m : Mem) (heapPtr addr : ℕ) : Except Fault (List ℕ) :=
  if addr < heapPtr then
    match _h : blockEnd P m addr with
    | .error e => .error e
    | .ok stop =>
      match blocksFrom P m heapPtr stop with
      | .error e => .error e
      | .ok rest => .ok (addr :: rest)
  else .ok []
termination_by heapPtr - addr
decreasing_by
  have := blockEnd_gt _h
  omega

variable {W : Type}

def VM.blocks (P : CompiledProgram) (s : VM W) : Except Fault (List ℕ) :=
  blocksFrom P s.heap s.heapPtr HEAP_START

/-- Bytes the heap is currently holding, headers included. -/
def VM.heapInUse (s : VM W) : ℕ := s.heapPtr - HEAP_START

end QuinLang
