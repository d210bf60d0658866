import QuinLang.Runtime.Heap

/-! The sliding mark-compact collector: mark from the roots, plan where every
survivor will sit, rewrite every reference, and only then move anything. -/

namespace QuinLang

open ByteMem

variable {W : Type}

/-- `bisect.bisect_right` on an ascending list: how many entries are at most `x`. -/
def bisectRight (xs : List ℕ) (x : ℕ) : ℕ := (xs.takeWhile (· ≤ x)).length

/-- The payload address of the block containing `ref`, or none. -/
def containingObject (P : CompiledProgram) (m : Mem) (ref : ℕ) (starts : List ℕ) :
    Except Fault (Option ℕ) :=
  match bisectRight starts ref with
  | 0 => .ok none
  | i + 1 =>
    match starts[i]? with
    | none => .ok none
    | some start =>
      match blockEnd P m (start - HEADER_BYTES) with
      | .error e => .error e
      | .ok stop => .ok (if ref < stop then some start else none)

/-- Payload addresses of every block, ascending. -/
def VM.objectStarts (P : CompiledProgram) (s : VM W) : Except Fault (List ℕ) :=
  (s.blocks P).map fun hdrs => hdrs.map (· + HEADER_BYTES)

/-- Every frame as the collector sees it: the running one, then the suspended
ones from the outermost in. -/
def VM.frames (s : VM W) : List (ℕ × List ℕ) :=
  (s.currentFn, s.locals) :: s.callStack.reverse.map fun f => (f.fnIndex, f.locals)

/-- The stack map of the function at an index, empty when there is none. -/
def refSlotsOf (P : CompiledProgram) (fnIndex : ℕ) : List ℕ :=
  match P.functions[fnIndex]? with
  | none => []
  | some fn => fn.refSlots

/-- The non-null words in the ref slots of one frame. -/
def frameRoots (P : CompiledProgram) (frame : ℕ × List ℕ) : List ℕ :=
  match P.functions[frame.1]? with
  | none => []
  | some fn => fn.refSlots.filterMap fun slot =>
      frame.2[slot]?.bind fun v => if v ≠ NULL_ADDR then some v else none

/-- Every reference the running program can still reach. -/
def VM.roots (P : CompiledProgram) (s : VM W) : List ℕ :=
  s.frames.flatMap (frameRoots P)
  ++ (s.stack.reverse.filterMap fun e => if e.isRef && e.value != NULL_ADDR then some e.value else none)
  ++ s.literals.filter (· ≠ NULL_ADDR)
  ++ s.variants.filter (· ≠ NULL_ADDR)

/-- The addresses of the reference words inside the block whose payload starts
at `start`, ascending by offset. -/
def refWords (P : CompiledProgram) (m : Mem) (start : ℕ) : List ℕ :=
  let hdr := start - HEADER_BYTES
  if kind m hdr = KIND_STRUCT then
    match P.structs[detail m hdr]? with
    | some (some layout) => layout.refOffsets.map fun off => start + off * 2
    | _ => []
  else if kind m hdr = KIND_REFARRAY then
    (List.range (detail m hdr)).map fun i => start + i * 2
  else []

/-- Marking sets one more mark bit and clears none, whatever the headers overlap. -/
theorem isMarked_setMark (m : Mem) (hdr h : ℕ) :
    isMarked (setMark m hdr true) h = (isMarked m h || decide (h = hdr)) := by
  have key : ∀ (m : Mem) a, isMarked m a = decide (128 ≤ (m (a + 1)).toNat) := by
    intro m a
    have := (m a).toNat_lt
    unfold isMarked readWord MARK_BIT
    exact decide_eq_decide.mpr (by omega)
  rw [key, key]
  have hw := readWord_lt m hdr
  have h0 := (m hdr).toNat_lt
  have h1 := (m (hdr + 1)).toNat_lt
  by_cases heq : h = hdr
  · subst heq
    simp only [setMark, writeWord, if_true, MARK_BIT, Nat.succ_ne_self, if_false,
      UInt8.toNat_ofNat', decide_true, Bool.or_true, decide_eq_true_eq]
    omega
  · simp only [heq, decide_false, Bool.or_false]
    apply decide_eq_decide.mpr
    by_cases hb : h + 1 = hdr
    · subst hb
      simp only [setMark, writeWord, if_true, MARK_BIT, UInt8.toNat_ofNat', readWord]
      omega
    · rw [setMark, writeWord_frame m (by omega)]

/-- Mark everything reachable from the pending addresses; the last one appended
is the head of the list. -/
def markFrom (P : CompiledProgram) (starts : List ℕ) (m : Mem) (pending : List ℕ) : Except Fault Mem :=
  match pending with
  | [] => .ok m
  | addr :: pending =>
    if addr = NULL_ADDR then markFrom P starts m pending
    else
      match _hc : containingObject P m addr starts with
      | .error e => .error e
      | .ok none => markFrom P starts m pending
      | .ok (some start) =>
        if _hm : isMarked m (start - HEADER_BYTES) then markFrom P starts m pending
        else
          let m' := setMark m (start - HEADER_BYTES) true
          let queued := (refWords P m' start).map (readWord m')
          markFrom P starts m' (queued.reverse ++ pending)
termination_by (starts.countP fun st => !isMarked m (st - HEADER_BYTES), pending.length)
decreasing_by
  · exact Prod.Lex.right _ (by simp)
  · exact Prod.Lex.right _ (by simp)
  · exact Prod.Lex.right _ (by simp)
  · apply Prod.Lex.left
    have hmem : start ∈ starts := by
      have hc := _hc
      unfold containingObject at hc
      split at hc
      · simp at hc
      · split at hc
        · simp at hc
        · rename_i st hst
          split at hc
          · simp at hc
          · simp only [Except.ok.injEq] at hc
            split at hc
            · cases hc
              exact List.mem_of_getElem? hst
            · cases hc
    have hle : ∀ st, (!isMarked (setMark m (start - HEADER_BYTES) true) (st - HEADER_BYTES)) = true →
        (!isMarked m (st - HEADER_BYTES)) = true := by
      intro st
      rw [isMarked_setMark]
      cases isMarked m (st - HEADER_BYTES) <;> simp
    obtain ⟨xs, ys, rfl⟩ := List.append_of_mem hmem
    simp only [List.countP_append, List.countP_cons]
    have hx := List.countP_mono_left (l := xs) fun st _ => hle st
    have hy := List.countP_mono_left (l := ys) fun st _ => hle st
    have hnew : isMarked (setMark m (start - HEADER_BYTES) true) (start - HEADER_BYTES) = true := by
      rw [isMarked_setMark]; simp
    have hold : isMarked m (start - HEADER_BYTES) = false := by simpa using _hm
    simp only [hnew, hold]
    simp only [Bool.not_true, Bool.not_false, Bool.false_eq_true, if_false, if_true]
    omega

/-- Mark from each root in turn. -/
def markRoots (P : CompiledProgram) (starts : List ℕ) : Mem → List ℕ → Except Fault Mem
  | m, [] => .ok m
  | m, ref :: refs =>
    match markFrom P starts m [ref] with
    | .error e => .error e
    | .ok m' => markRoots P starts m' refs

/-- The plan for the blocks from `addr` on: old payload address to new, `free`
being where the next survivor goes. -/
def planFrom (P : CompiledProgram) (m : Mem) (heapPtr free addr : ℕ) : Except Fault (List (ℕ × ℕ)) :=
  if addr < heapPtr then
    match _h : blockEnd P m addr with
    | .error e => .error e
    | .ok stop =>
      if isMarked m addr then
        match planFrom P m heapPtr (free + (stop - addr)) stop with
        | .error e => .error e
        | .ok rest => .ok ((addr + HEADER_BYTES, free + HEADER_BYTES) :: rest)
      else planFrom P m heapPtr free stop
  else .ok []
termination_by heapPtr - addr
decreasing_by
  all_goals
    have := blockEnd_gt _h
    omega

/-- Where every surviving object will live once the gaps are closed. -/
def VM.planCompaction (P : CompiledProgram) (s : VM W) : Except Fault (List (ℕ × ℕ)) :=
  planFrom P s.heap s.heapPtr HEAP_START HEAP_START

/-- The address a reference is rewritten to, its offset in the object kept. -/
def moved (P : CompiledProgram) (m : Mem) (starts : List ℕ) (forward : List (ℕ × ℕ)) (ref : ℕ) :
    Except Fault ℕ :=
  if ref = NULL_ADDR then .ok ref
  else
    match containingObject P m ref starts with
    | .error e => .error e
    | .ok none => .ok ref
    | .ok (some start) =>
      match forward.lookup start with
      | none => .ok ref
      | some dest => .ok (dest + (ref - start))

/-- Rewrite one slot of a frame, if the frame has it. -/
def updateSlot (move : ℕ → Except Fault ℕ) (locals : List ℕ) (slot : ℕ) : Except Fault (List ℕ) :=
  match locals[slot]? with
  | none => .ok locals
  | some v =>
    match move v with
    | .error e => .error e
    | .ok v' => .ok (locals.set slot v')

def updateSlots (move : ℕ → Except Fault ℕ) : List ℕ → List ℕ → Except Fault (List ℕ)
  | locals, [] => .ok locals
  | locals, slot :: slots =>
    match updateSlot move locals slot with
    | .error e => .error e
    | .ok locals' => updateSlots move locals' slots

/-- Rewrite the ref slots of one frame. -/
def updateFrame (P : CompiledProgram) (move : ℕ → Except Fault ℕ) (fnIndex : ℕ) (locals : List ℕ) :
    Except Fault (List ℕ) :=
  match P.functions[fnIndex]? with
  | none => .ok locals
  | some fn => updateSlots move locals fn.refSlots

def updateFrames (P : CompiledProgram) (move : ℕ → Except Fault ℕ) :
    List Frame → Except Fault (List Frame)
  | [] => .ok []
  | f :: fs =>
    match updateFrame P move f.fnIndex f.locals with
    | .error e => .error e
    | .ok locals =>
      match updateFrames P move fs with
      | .error e => .error e
      | .ok fs' => .ok ({ f with locals := locals } :: fs')

def updateStack (move : ℕ → Except Fault ℕ) : List Entry → Except Fault (List Entry)
  | [] => .ok []
  | e :: es =>
    match (if e.isRef then move e.value else .ok e.value) with
    | .error err => .error err
    | .ok v =>
      match updateStack move es with
      | .error err => .error err
      | .ok es' => .ok ({ e with value := v } :: es')

def updateTable (move : ℕ → Except Fault ℕ) : List ℕ → Except Fault (List ℕ)
  | [] => .ok []
  | a :: as =>
    match move a with
    | .error e => .error e
    | .ok a' =>
      match updateTable move as with
      | .error e => .error e
      | .ok as' => .ok (a' :: as')

/-- Rewrite the reference words of one block in place. -/
def updateWords (P : CompiledProgram) (starts : List ℕ) (forward : List (ℕ × ℕ)) :
    Mem → List ℕ → Except Fault Mem
  | m, [] => .ok m
  | m, addr :: addrs =>
    match moved P m starts forward (readWord m addr) with
    | .error e => .error e
    | .ok v => updateWords P starts forward (writeWord m addr v) addrs

/-- Rewrite the reference words of the marked blocks from `addr` on. The walk
reads each header after the block before it has been rewritten. -/
def updateBlocks (P : CompiledProgram) (starts : List ℕ) (forward : List (ℕ × ℕ)) (heapPtr : ℕ)
    (m : Mem) (addr : ℕ) : Except Fault Mem :=
  if addr < heapPtr then
    match (if isMarked m addr then
        updateWords P starts forward m (refWords P m (addr + HEADER_BYTES)) else .ok m) with
    | .error e => .error e
    | .ok m' =>
      match _h : blockEnd P m' addr with
      | .error e => .error e
      | .ok stop => updateBlocks P starts forward heapPtr m' stop
  else .ok m
termination_by heapPtr - addr
decreasing_by
  have := blockEnd_gt _h
  omega

/-- Rewrite every reference to the address its object is moving to, before
anything moves. -/
def VM.updateReferences (P : CompiledProgram) (forward : List (ℕ × ℕ)) (starts : List ℕ) (s : VM W) :
    Except Fault (VM W) := do
  let move := moved P s.heap starts forward
  let locals ← updateFrame P move s.currentFn s.locals
  let callStack ← updateFrames P move s.callStack
  let stack ← updateStack move s.stack
  let literals ← updateTable move s.literals
  let variants ← updateTable move s.variants
  let heap ← updateBlocks P starts forward s.heapPtr s.heap HEAP_START
  return { s with
    locals := locals, callStack := callStack, stack := stack
    literals := literals, variants := variants, heap := heap }

/-- Move the blocks of the list down in address order, returning the memory, the
first free address and the statistics. -/
def slideBlocks (P : CompiledProgram) (forward : List (ℕ × ℕ)) :
    List ℕ → Mem → ℕ → HeapStats → Except Fault (Mem × ℕ × HeapStats)
  | [], m, top, stats => .ok (m, top, stats)
  | hdr :: hdrs, m, top, stats =>
    match blockEnd P m hdr with
    | .error e => .error e
    | .ok stop =>
      let size := stop - hdr
      if isMarked m hdr then
        match forward.lookup (hdr + HEADER_BYTES) with
        | none => .error (.host "KeyError")
        | some ref =>
          let dest := ref - HEADER_BYTES
          let m' := if dest ≠ hdr then move m dest hdr size else m
          let stats' := if dest ≠ hdr then
            { stats with objectsMoved := stats.objectsMoved + 1 } else stats
          slideBlocks P forward hdrs (setMark m' dest false) (dest + size) stats'
      else
        slideBlocks P forward hdrs m top
          { stats with objectsFreed := stats.objectsFreed + 1, bytesFreed := stats.bytesFreed + size }

/-- Move each surviving object down into the space the dead vacated, and wipe
what the survivors left behind. -/
def VM.slide (P : CompiledProgram) (forward : List (ℕ × ℕ)) (s : VM W) : Except Fault (VM W) := do
  let hdrs ← s.blocks P
  let (m, top, stats) ← slideBlocks P forward hdrs s.heap HEAP_START s.stats
  return { s with
    heap := if top < s.heapPtr then wipe m top s.heapPtr else m
    heapPtr := top, stats := stats }

/-- A precise, sliding mark-compact cycle. -/
def VM.collect (P : CompiledProgram) (s : VM W) : Except Fault (VM W) := do
  let s := { s with stats := { s.stats with collections := s.stats.collections + 1 } }
  let starts ← s.objectStarts P
  let marked ← markRoots P starts s.heap (s.roots P)
  let s := { s with heap := marked }
  let forward ← s.planCompaction P
  let s ← s.updateReferences P forward starts
  s.slide P forward

end QuinLang
