import QuinLang.Lib.Dict
import QuinLang.Lib.ExceptState
import QuinLang.Std.Input

/-! `std/fs.ql` and the builtins under it: files, whose failures are values. -/

namespace QuinLang.Std.Files

open ExceptState

/-- What the builtins use of the machine. -/
structure Machine (W H : Type) where
  io : W
  heap : H
  fileError : String := ""

abbrev FileAct (W H β : Type) := ExceptT Stop (StateM (Machine W H)) β

inductive Result (α ε : Type)
  | Ok (value : α)
  | Err (error : ε)

/-- `result_is_ok` -/
def Result.isOk {α ε : Type} : Result α ε → Bool
  | .Ok _ => true
  | .Err _ => false

section Source

variable {W H α β : Type} (io : ProgramIO W) (alloc : H → ℕ → Option H)

/-- A block of the heap; `alloc` says what becomes of the heap, if it has room. -/
def reserve (payload : ℕ) : FileAct W H Unit := fun m =>
  match alloc m.heap payload with
  | some heap => (.ok (), { m with heap := heap })
  | none => (.error (.fault "Heap out of memory"), m)

def allocString (data : List UInt8) : FileAct W H Str :=
  if h : data.length ≤ 0x7FFF then do
    reserve alloc data.length
    return ⟨data, h⟩
  else throw (.fault s!"String of {data.length} characters is too long")

/-- A string from host text, checked to fit. -/
def stringFromText (text what : String) : FileAct W H Str :=
  match firstWide text with
  | some ch => throw (.fault (wideMessage what ch))
  | none => allocString alloc ((latin1 text).getD [])

def fileOp (action : W → Except String α × W) : FileAct W H (Option α) := fun m =>
  match action m.io with
  | (.ok a, w) => (.ok (some a), { m with io := w, fileError := "" })
  | (.error e, w) => (.ok none, { m with io := w, fileError := e })

def bytesFromIo (what : String) : FileContent → FileAct W H (List UInt8)
  | .bytes data => return data
  | .text text =>
    match firstWide text with
    | some ch => throw (.fault (wideMessage what ch))
    | none => return (latin1 text).getD []
  | .other typeName => throw (.fault s!"{what} is {typeName}, not bytes")

/-- The file that a string names. -/
def pathOf (path : Str) : String := ofLatin1 path.bytes

/-- The bytes of a file, none if it cannot be read. -/
def readBytes (path : String) : FileAct W H (List UInt8) := do
  match ← fileOp (io.readFile path) with
  | some content => bytesFromIo s!"'{path}'" content
  | none => return []

def file_read (path : Str) : FileAct W H Str := do allocString alloc (← readBytes io (pathOf path))

def file_read_bytes (path : Str) : FileAct W H (List UInt16) := do
  let content ← readBytes io (pathOf path)
  if content.length > 0x7FFF then throw (.fault s!"Array of {content.length} elements is too long")
  else
    reserve alloc (content.length * 2)
    return content.map UInt8.toUInt16

def writeBytes (append : Bool) (path : String) (data : List UInt8) : FileAct W H Bool := do
  return (← fileOp (io.writeFile path data append)).isSome

def file_write (path contents : Str) : FileAct W H Bool := writeBytes io false (pathOf path) contents.bytes

def file_append (path contents : Str) : FileAct W H Bool := writeBytes io true (pathOf path) contents.bytes

def file_exists (path : Str) : FileAct W H Bool := do return (← fileOp (io.fileExists (pathOf path))) = some true

def file_delete (path : Str) : FileAct W H Bool := do return (← fileOp (io.deleteFile (pathOf path))).isSome

def file_error : FileAct W H Str := do stringFromText alloc (← get).fileError "a file error"

def elementMessage (index : ℕ) (w : UInt16) : String :=
  s!"file_write_bytes: element {index} is {toSigned w.toNat}, outside the 0..255 a byte holds"

/-- The elements from `index` on as bytes. -/
def arrayBytes : ℕ → List UInt16 → FileAct W H (List UInt8)
  | _, [] => return []
  | index, w :: ws => do
    if w.toNat > 0xFF then throw (.fault (elementMessage index w))
    else return w.toUInt8 :: (← arrayBytes (index + 1) ws)

def file_write_bytes (path : Str) (data : List UInt16) : FileAct W H Bool := do
  writeBytes io false (pathOf path) (← arrayBytes 0 data)

/-- A new variant of `Result`, whose payload is one word. -/
def newResult (r : Result β Str) : FileAct W H (Result β Str) := do
  reserve alloc 2
  return r

def fs_check (value : β) : FileAct W H (Result β Str) := do
  let why ← file_error alloc
  if str_len why > 0 then newResult alloc (.Err why) else newResult alloc (.Ok value)

def fs_read (path : Str) : FileAct W H (Result Str Str) := do fs_check alloc (← file_read io alloc path)

def fs_read_bytes (path : Str) : FileAct W H (Result (List UInt16) Str) := do fs_check alloc (← file_read_bytes io alloc path)

def fs_write (path contents : Str) : FileAct W H (Result ℤ Str) := do
  let _ ← file_write io path contents
  fs_check alloc (str_len contents)

def fs_append (path contents : Str) : FileAct W H (Result ℤ Str) := do
  let _ ← file_append io path contents
  fs_check alloc (str_len contents)

def fs_write_bytes (path : Str) (data : List UInt16) : FileAct W H (Result ℤ Str) := do
  let _ ← file_write_bytes io path data
  fs_check alloc data.length

def fs_delete (path : Str) : FileAct W H (Result ℤ Str) := do
  let _ ← file_delete io path
  fs_check alloc 0

def fs_exists (path : Str) : FileAct W H Bool := file_exists io path

end Source

section Execution

variable {W α β : Type} (io : ProgramIO W)

/-- What the builtins use of the virtual machine. -/
def hostOf (s : VM W) : Machine W Unit := ⟨s.io, (), s.fileError⟩

/-- The end of a builtin's step, as the virtual machine's. No builtin runs out of fuel. -/
def onMachine (s : VM W) : Except Stop β × Machine W Unit → Except Fault (β × VM W)
  | (.ok b, m) => .ok (b, { s with io := m.io, fileError := m.fileError })
  | (.error (.fault message), _) => .error (.vmError message)
  | (.error (.panic message), _) => .error (.vmError message)
  | (.error .outOfFuel, _) => .error (.host "")

def byMachine (x : FileAct W Unit β) : Exec W β := fun s => onMachine s (x (hostOf s))

theorem fileOp_machine (action : W → Except String α × W) : QuinLang.fileOp action = byMachine (fileOp action) := by
  funext s
  rw [QuinLang.fileOp, byMachine, fileOp]
  change _ = onMachine s (match action s.io with
    | (.ok a, w) => (.ok (some a), { hostOf s with io := w, fileError := "" })
    | (.error e, w) => (.ok none, { hostOf s with io := w, fileError := e }))
  rcases action s.io with ⟨r, w⟩
  cases r <;> rfl

theorem bytesFromIo_machine (what : String) (content : FileContent) :
    (QuinLang.bytesFromIo what content : Exec W (List UInt8)) = byMachine (bytesFromIo what content) := by
  cases content with
  | bytes data => rfl
  | text text =>
    rw [QuinLang.bytesFromIo, bytesFromIo]
    cases firstWide text <;> rfl
  | other typeName => rfl

theorem byMachine_bind (x : FileAct W Unit α) (f : α → FileAct W Unit β) :
    byMachine (x >>= f) = byMachine x >>= fun a => byMachine (f a) := by
  funext s
  change onMachine s ((x >>= f) (hostOf s)) = (byMachine x s >>= fun r => byMachine (f r.1) r.2)
  rw [byMachine]
  rcases hx : x (hostOf s) with ⟨r, m⟩
  cases r with
  | ok a =>
    rw [bind_ok hx]
    change onMachine s (f a m) = onMachine { s with io := m.io, fileError := m.fileError } (f a m)
    rcases f a m with ⟨r, m'⟩
    cases r with
    | ok b => rfl
    | error e => cases e <;> rfl
  | error e =>
    rw [bind_error hx]
    cases e <;> rfl

variable (P : CompiledProgram) (F : FloatOps)

/-- The instruction reads as the builtin does. -/
theorem execute_fileRead : execute P F io .fileRead = (do
    let path ← stringText (← pop)
    push (← QuinLang.allocString P (← byMachine (readBytes io path))) true) := by
  simp only [execute, readBytes, byMachine_bind, bind_assoc, ← fileOp_machine]
  refine congrArg _ (funext fun v => congrArg _ (funext fun path => congrArg _ (funext fun content => ?_)))
  cases content with
  | none => rfl
  | some content => simp only [← bytesFromIo_machine]

theorem execute_fileReadBytes : execute P F io .fileReadBytes = (do
    let path ← stringText (← pop)
    let data ← byMachine (readBytes io path)
    let ref ← (fun s => s.allocArray P data.length false : Exec W ℕ)
    modify fun s => { s with heap := writeElements ref data s.heap }
    push ref true) := by
  simp only [execute, readBytes, byMachine_bind, bind_assoc, ← fileOp_machine]
  refine congrArg _ (funext fun v => congrArg _ (funext fun path => congrArg _ (funext fun content => ?_)))
  cases content with
  | none => rfl
  | some content => simp only [← bytesFromIo_machine]

theorem execute_fileWrite (append : Bool) : QuinLang.fileWrite io append = (do
    let data ← stringBytes (← pop)
    let path ← stringText (← pop)
    push (if ← byMachine (writeBytes io append path data) then 1 else 0)) := by
  have hpure : ∀ b : Bool, byMachine (pure b : FileAct W Unit Bool) = pure b := fun _ => rfl
  simp only [QuinLang.fileWrite, writeBytes, byMachine_bind, hpure, bind_assoc, pure_bind, ← fileOp_machine]

end Execution

section Calls

inductive FileCall
  | read (path : Str)
  | readBytes (path : Str)
  | write (path contents : Str)
  | append (path contents : Str)
  | writeBytes (path : Str) (data : List UInt16)
  | exists_ (path : Str)
  | delete (path : Str)
  | error

inductive FileAnswer
  | str (bytes : List UInt8)
  | array (elements : List UInt16)
  | bool (b : Bool)
  deriving DecidableEq

variable {W H α β : Type} (io : ProgramIO W) (alloc : H → ℕ → Option H)

def FileCall.run : FileCall → FileAct W H FileAnswer
  | .read path => do return .str (← file_read io alloc path).bytes
  | .readBytes path => do return .array (← file_read_bytes io alloc path)
  | .write path contents => do return .bool (← file_write io path contents)
  | .append path contents => do return .bool (← file_append io path contents)
  | .writeBytes path data => do return .bool (← file_write_bytes io path data)
  | .exists_ path => do return .bool (← file_exists io path)
  | .delete path => do return .bool (← file_delete io path)
  | .error => do return .str (← file_error alloc).bytes

def runCalls : List FileCall → FileAct W H (List FileAnswer)
  | [] => return []
  | call :: calls => do
    let answer ← call.run io alloc
    return answer :: (← runCalls calls)

/-- Why an operation failed, if it did. -/
def failure : Except String α → Option String
  | .ok _ => none
  | .error e => some e

/-- What there is to read. -/
def contentBytes : Except String FileContent → List UInt8
  | .ok (.bytes data) => data
  | _ => []

/-- What a call is for: its answer, and the failure of the last operation. -/
def FileCall.meaning (w : W) (last : Option String) : FileCall → FileAnswer × W × Option String
  | .read path =>
    let r := io.readFile (pathOf path) w
    (.str (contentBytes r.1), r.2, failure r.1)
  | .readBytes path =>
    let r := io.readFile (pathOf path) w
    (.array ((contentBytes r.1).map UInt8.toUInt16), r.2, failure r.1)
  | .write path contents =>
    let r := io.writeFile (pathOf path) contents.bytes false w
    (.bool (failure r.1).isNone, r.2, failure r.1)
  | .append path contents =>
    let r := io.writeFile (pathOf path) contents.bytes true w
    (.bool (failure r.1).isNone, r.2, failure r.1)
  | .writeBytes path data =>
    let r := io.writeFile (pathOf path) (data.map UInt16.toUInt8) false w
    (.bool (failure r.1).isNone, r.2, failure r.1)
  | .exists_ path =>
    let r := io.fileExists (pathOf path) w
    (.bool (r.1.toOption = some true), r.2, failure r.1)
  | .delete path =>
    let r := io.deleteFile (pathOf path) w
    (.bool (failure r.1).isNone, r.2, failure r.1)
  | .error => (.str ((latin1 (last.getD "")).getD []), w, last)

def meanings (w : W) (last : Option String) : List FileCall → List FileAnswer × W × Option String
  | [] => ([], w, last)
  | call :: calls =>
    let (answer, w, last) := call.meaning io w last
    let (answers, w, last) := meanings w last calls
    (answer :: answers, w, last)

/-- A text that a string can hold. -/
def TextFits (text : String) : Prop := firstWide text = none ∧ text.length ≤ 0x7FFF

/-- What a call reads is short enough for a string or an array, and so is the reason of a
failure, which has to be of bytes as well. -/
def FileCall.Fits (m : Machine W H) : FileCall → Prop
  | .read path | .readBytes path => (contentBytes (io.readFile (pathOf path) m.io).1).length ≤ 0x7FFF
  | .error => TextFits m.fileError
  | _ => True

/-- Every call of a run fits where it is made. -/
def AllFit : List FileCall → Machine W H → Prop
  | [], _ => True
  | call :: calls, m => call.Fits io m ∧ ∀ answer m', call.run io alloc m = (.ok answer, m') → AllFit calls m'

/-- The elements a call is given. -/
def FileCall.elements : FileCall → List UInt16
  | .writeBytes _ data => data
  | _ => []

/-- The faults that a call may end in. -/
def FileCall.Expected (call : FileCall) (e : Stop) : Prop :=
  e = .fault "Heap out of memory" ∨
    ∃ index w, call.elements[index]? = some w ∧ ¬(0 ≤ toSigned w.toNat ∧ toSigned w.toNat ≤ 255) ∧ e = .fault (elementMessage index w)

end Calls

section Host

variable {W H α β : Type} {io : ProgramIO W}

/-- What a host raises: `str` of it, and the name of its class. -/
structure OSError where
  text : String
  className : String
  named : className ≠ ""

/-- `str(e) or e.__class__.__name__` -/
def OSError.reason (e : OSError) : String := if e.text = "" then e.className else e.text

theorem OSError.reason_ne (e : OSError) : e.reason ≠ "" := by
  rw [reason]
  split
  · exact e.named
  · assumption

def Raises (r : Except String α) : Prop := ∀ reason, r = .error reason → ∃ e : OSError, reason = e.reason

/-- File methods that return bytes or raise an `OSError`. -/
structure Honest (io : ProgramIO W) : Prop where
  bytes : ∀ path w content, (io.readFile path w).1 = .ok content → ∃ data, content = .bytes data
  read : ∀ path w, Raises (io.readFile path w).1
  write : ∀ path data append w, Raises (io.writeFile path data append w).1
  present : ∀ path w, Raises (io.fileExists path w).1
  delete : ∀ path w, Raises (io.deleteFile path w).1

/-- The machine after an operation of the host. -/
def Machine.after (m : Machine W H) (r : Except String α × W) : Machine W H :=
  { m with io := r.2, fileError := (failure r.1).getD "" }

/-- The machine holds the reason of the last failure. -/
def Machine.Holds (m : Machine W H) (last : Option String) : Prop := m.fileError = last.getD "" ∧ last ≠ some ""

theorem Machine.Holds.error_iff {m : Machine W H} {last : Option String} (h : m.Holds last) : m.fileError = "" ↔ last = none := by
  rw [h.1]
  cases last with
  | none => exact iff_of_true rfl rfl
  | some reason => exact iff_of_false (fun hnil => h.2 (congrArg some hnil)) (by simp)

theorem holds_after (m : Machine W H) {r : Except String α × W} (h : Raises r.1) : (m.after r).Holds (failure r.1) := by
  refine ⟨rfl, fun hnil => ?_⟩
  cases hr : r.1 with
  | ok a =>
    rw [hr] at hnil
    cases hnil
  | error reason =>
    rw [hr] at hnil
    obtain ⟨e, rfl⟩ := h reason hr
    exact e.reason_ne (Option.some.inj hnil)

theorem fileOp_eq (action : W → Except String α × W) (m : Machine W H) :
    fileOp action m = (.ok (action m.io).1.toOption, m.after (action m.io)) := by
  rw [fileOp]
  rcases action m.io with ⟨r, w⟩
  cases r <;> rfl

theorem isSome_toOption (r : Except String α) : r.toOption.isSome = (failure r).isNone := by
  cases r <;> rfl

theorem readBytes_ok (hio : Honest io) (path : String) (m : Machine W H) :
    readBytes io path m = (.ok (contentBytes (io.readFile path m.io).1), m.after (io.readFile path m.io)) := by
  rw [readBytes, bind_ok (fileOp_eq ..)]
  cases h : (io.readFile path m.io).1 with
  | error reason => rfl
  | ok content =>
    obtain ⟨data, rfl⟩ := hio.bytes _ _ content h
    rfl

theorem writeBytes_ok (append : Bool) (path : String) (data : List UInt8) (m : Machine W H) :
    writeBytes io append path data m =
      (.ok (failure (io.writeFile path data append m.io).1).isNone, m.after (io.writeFile path data append m.io)) := by
  rw [writeBytes, bind_ok (fileOp_eq ..), isSome_toOption]
  rfl

end Host

section Ends

variable {W H α β : Type} {io : ProgramIO W} {alloc : H → ℕ → Option H} {m : Machine W H}

/-- A step returns with a result as described, or the heap is exhausted. -/
def Ends (x : FileAct W H β) (m : Machine W H) (P : β → Machine W H → Prop) : Prop :=
  (∃ m', x m = (.error (.fault "Heap out of memory"), m')) ∨ ∃ b m', x m = (.ok b, m') ∧ P b m'

theorem Ends.bind {x : FileAct W H α} {f : α → FileAct W H β} {P : α → Machine W H → Prop} {Q : β → Machine W H → Prop}
    (h : Ends x m P) (hf : ∀ a m', P a m' → Ends (f a) m' Q) : Ends (x >>= f) m Q := by
  obtain ⟨m', hx⟩ | ⟨a, m', hx, ha⟩ := h
  · exact .inl ⟨m', bind_error hx⟩
  · obtain ⟨m'', hfa⟩ | ⟨b, m'', hfa, hb⟩ := hf a m' ha
    · exact .inl ⟨m'', (bind_ok hx).trans hfa⟩
    · exact .inr ⟨b, m'', (bind_ok hx).trans hfa, hb⟩

theorem Ends.pure {b : β} {P : β → Machine W H → Prop} (h : P b m) : Ends (pure b : FileAct W H β) m P := .inr ⟨b, m, rfl, h⟩

/-- Only the heap differs. -/
def SameHost (m m' : Machine W H) : Prop := m'.io = m.io ∧ m'.fileError = m.fileError

theorem reserve_ends (alloc : H → ℕ → Option H) (payload : ℕ) : Ends (reserve alloc payload) m fun _ m' => SameHost m m' := by
  rw [Ends, reserve]
  cases alloc m.heap payload with
  | none => exact .inl ⟨m, rfl⟩
  | some heap => exact .inr ⟨(), _, rfl, rfl, rfl⟩

theorem allocString_ends (alloc : H → ℕ → Option H) {data : List UInt8} (h : data.length ≤ 0x7FFF) :
    Ends (allocString alloc data) m fun s m' => s.bytes = data ∧ SameHost m m' := by
  rw [allocString, dif_pos h]
  exact (reserve_ends alloc _).bind fun _ m' hm => .pure ⟨rfl, hm⟩

theorem allocString_long (alloc : H → ℕ → Option H) {data : List UInt8} (h : 0x7FFF < data.length) :
    allocString alloc data m = (.error (.fault s!"String of {data.length} characters is too long"), m) := by
  rw [allocString, dif_neg (by omega)]
  rfl

theorem Ends.of_ok {x : FileAct W H β} {b : β} {m' : Machine W H} {P : β → Machine W H → Prop} (h : x m = (.ok b, m')) (hb : P b m') :
    Ends x m P := .inr ⟨b, m', h, hb⟩

theorem latin1_of_narrow {text : String} (h : firstWide text = none) :
    latin1 text = some (text.toList.map fun ch => UInt8.ofNat ch.toNat) := by
  rw [firstWide, List.find?_eq_none] at h
  rw [latin1]
  generalize text.toList = cs at h
  induction cs with
  | nil => rfl
  | cons ch cs ih =>
    have hch := h ch List.mem_cons_self
    rw [decide_eq_true_iff] at hch
    rw [List.mapM_cons, ih fun c hc => h c (List.mem_cons_of_mem ch hc), if_pos (by omega)]
    rfl

theorem file_error_ends (h : TextFits m.fileError) :
    Ends (file_error alloc) m fun s m' => s.bytes = (latin1 m.fileError).getD [] ∧ SameHost m m' := by
  change Ends (stringFromText alloc m.fileError "a file error") m _
  simp only [stringFromText, h.1]
  refine allocString_ends alloc ?_
  rw [latin1_of_narrow h.1, Option.getD_some, List.length_map, String.length_toList]
  exact h.2

theorem byte_iff (w : UInt16) : ¬(0 ≤ toSigned w.toNat ∧ toSigned w.toNat ≤ 255) ↔ 0xFF < w.toNat := by
  have hlt := w.toNat_lt
  rw [toSigned, word_of_lt hlt]
  split
  · omega
  · have hsign : SIGN_BIT = 0x8000 := rfl
    omega

theorem arrayBytes_ok {ws : List UInt16} (h : ∀ w ∈ ws, w.toNat ≤ 0xFF) (index : ℕ) :
    arrayBytes index ws m = (.ok (ws.map UInt16.toUInt8), m) := by
  induction ws generalizing index with
  | nil => rfl
  | cons w ws ih =>
    obtain ⟨hw, hws⟩ := List.forall_mem_cons.mp h
    rw [arrayBytes, if_neg (by omega), bind_ok (ih hws (index + 1))]
    rfl

/-- The first element that is no byte is named. -/
theorem arrayBytes_refuses {ws : List UInt16} (h : ¬∀ w ∈ ws, w.toNat ≤ 0xFF) (index : ℕ) :
    ∃ i w, ws[i]? = some w ∧ 0xFF < w.toNat ∧ arrayBytes index ws m = (.error (.fault (elementMessage (index + i) w)), m) := by
  induction ws generalizing index with
  | nil => exact absurd (by simp) h
  | cons w ws ih =>
    rcases lt_or_ge 0xFF w.toNat with hw | hw
    · refine ⟨0, w, rfl, hw, ?_⟩
      rw [arrayBytes, if_pos hw]
      rfl
    · obtain ⟨i, w', hi, hw', hrun⟩ := ih (fun hws => h (List.forall_mem_cons.mpr ⟨hw, hws⟩)) (index + 1)
      have hindex : index + 1 + i = index + (i + 1) := by omega
      refine ⟨i + 1, w', hi, hw', ?_⟩
      rw [arrayBytes, if_neg (by omega), bind_error hrun, hindex]

end Ends

section One

variable {W H α β : Type} {io : ProgramIO W} {alloc : H → ℕ → Option H} {m m' : Machine W H} {call : FileCall}

theorem Machine.Holds.congr {last : Option String} (h : m.Holds last) (hm : SameHost m m') : m'.Holds last := ⟨hm.2.trans h.1, h.2⟩

/-- The answer is what the call is for. -/
def FileCall.Answers (io : ProgramIO W) (call : FileCall) (m : Machine W H) (answer : FileAnswer) (m' : Machine W H) : Prop :=
  ∀ last, m.Holds last → ∃ last', call.meaning io m.io last = (answer, m'.io, last') ∧ m'.Holds last'

theorem answers_after {r : Except String α × W} {answer : FileAnswer} (hr : Raises r.1) (hm : SameHost (m.after r) m')
    (hmeaning : ∀ last, call.meaning io m.io last = (answer, r.2, failure r.1)) : call.Answers io m answer m' := by
  intro last _
  refine ⟨failure r.1, ?_, (holds_after m hr).congr hm⟩
  rw [hmeaning, hm.1]
  rfl

theorem readBytes_ends (hio : Honest io) (path : String) : Ends (readBytes io path) m fun data m' =>
    data = contentBytes (io.readFile path m.io).1 ∧ SameHost (m.after (io.readFile path m.io)) m' :=
  .of_ok (readBytes_ok hio path m) ⟨rfl, rfl, rfl⟩

theorem file_read_ends (hio : Honest io) {path : Str} (hfits : (contentBytes (io.readFile (pathOf path) m.io).1).length ≤ 0x7FFF) :
    Ends (file_read io alloc path) m fun s m' =>
      s.bytes = contentBytes (io.readFile (pathOf path) m.io).1 ∧ SameHost (m.after (io.readFile (pathOf path) m.io)) m' := by
  refine (readBytes_ends hio (pathOf path)).bind ?_
  rintro data m' ⟨rfl, hm⟩
  obtain hfull | ⟨s, m'', hrun, hs, hm'⟩ := allocString_ends alloc (m := m') hfits
  · exact .inl hfull
  · exact .of_ok hrun ⟨hs, hm'.1.trans hm.1, hm'.2.trans hm.2⟩

theorem file_read_bytes_ends (hio : Honest io) {path : Str} (hfits : (contentBytes (io.readFile (pathOf path) m.io).1).length ≤ 0x7FFF) :
    Ends (file_read_bytes io alloc path) m fun elements m' =>
      elements = (contentBytes (io.readFile (pathOf path) m.io).1).map UInt8.toUInt16 ∧
        SameHost (m.after (io.readFile (pathOf path) m.io)) m' := by
  refine (readBytes_ends hio (pathOf path)).bind ?_
  rintro data m' ⟨rfl, hm⟩
  rw [if_neg (Nat.not_lt.mpr hfits)]
  exact (reserve_ends alloc _).bind fun _ m'' hm' => .pure ⟨rfl, hm'.1.trans hm.1, hm'.2.trans hm.2⟩

theorem writeBytes_answers (hio : Honest io) (append : Bool) (path : String) (data : List UInt8)
    (hmeaning : ∀ last, call.meaning io m.io last = (.bool (failure (io.writeFile path data append m.io).1).isNone,
      (io.writeFile path data append m.io).2, failure (io.writeFile path data append m.io).1)) :
    Ends (writeBytes io append path data >>= fun ok => pure (.bool ok)) m (call.Answers io m) := by
  refine .of_ok (bind_ok (writeBytes_ok ..)) ?_
  exact answers_after (hio.write path data append m.io) ⟨rfl, rfl⟩ hmeaning

/-- A call that fits is answered, unless the heap or an element is at fault. -/
theorem call_answers (alloc : H → ℕ → Option H) (hio : Honest io) (hfits : call.Fits io m) :
    (∃ e m', call.run io alloc m = (.error e, m') ∧ call.Expected e) ∨ ∃ answer m', call.run io alloc m = (.ok answer, m') ∧
      call.Answers io m answer m' := by
  have hends : Ends (call.run io alloc) m (call.Answers io m) →
      (∃ e m', call.run io alloc m = (.error e, m') ∧ call.Expected e) ∨ ∃ answer m', call.run io alloc m = (.ok answer, m') ∧
        call.Answers io m answer m' := by
    rintro (⟨m', hrun⟩ | hok)
    · exact .inl ⟨_, m', hrun, .inl rfl⟩
    · exact .inr hok
  cases call with
  | read path =>
    refine hends ?_
    refine (file_read_ends hio hfits).bind fun s m' h => .pure (answers_after (hio.read (pathOf path) m.io) h.2 fun _ => ?_)
    rw [h.1]
    rfl
  | readBytes path =>
    refine hends ?_
    refine (file_read_bytes_ends hio hfits).bind fun elements m' h => .pure (answers_after (hio.read (pathOf path) m.io) h.2 fun _ => ?_)
    rw [h.1]
    rfl
  | write path contents => exact hends (writeBytes_answers hio false (pathOf path) contents.bytes fun _ => rfl)
  | append path contents => exact hends (writeBytes_answers hio true (pathOf path) contents.bytes fun _ => rfl)
  | writeBytes path data =>
    by_cases hdata : ∀ w ∈ data, w.toNat ≤ 0xFF
    · have hrun : file_write_bytes io path data m = writeBytes io false (pathOf path) (data.map UInt16.toUInt8) m :=
        bind_ok (arrayBytes_ok hdata 0)
      refine hends (.of_ok (bind_ok (hrun.trans (writeBytes_ok ..))) ?_)
      exact answers_after (hio.write (pathOf path) _ false m.io) ⟨rfl, rfl⟩ fun _ => rfl
    · obtain ⟨i, w, hi, hw, hrun⟩ := arrayBytes_refuses (m := m) hdata 0
      refine .inl ⟨_, m, bind_error (bind_error hrun), .inr ⟨i, w, hi, (byte_iff w).mpr hw, ?_⟩⟩
      rw [Nat.zero_add]
  | exists_ path =>
    refine hends (.of_ok (bind_ok (bind_ok (fileOp_eq ..))) ?_)
    exact answers_after (hio.present (pathOf path) m.io) ⟨rfl, rfl⟩ fun _ => rfl
  | delete path =>
    refine hends (.of_ok (bind_ok (bind_ok (fileOp_eq ..))) ?_)
    refine answers_after (hio.delete (pathOf path) m.io) ⟨rfl, rfl⟩ fun _ => ?_
    rw [isSome_toOption]
    rfl
  | error =>
    refine hends ?_
    refine (file_error_ends hfits).bind fun s m' h => .pure fun last hlast => ⟨last, ?_, hlast.congr h.2⟩
    rw [h.1, hlast.1, h.2.1]
    rfl

theorem head_append {s t : String} {c : Char} (h : s.toList.head? = some c) : (s ++ t).toList.head? = some c := by
  rw [String.toList_append, List.head?_append, h]
  rfl

theorem head_elementMessage (index : ℕ) (w : UInt16) : (elementMessage index w).toList.head? = some 'f' :=
  head_append (head_append (head_append (head_append rfl)))

/-- The other faults are told apart by how their texts begin. -/
theorem unexpected {text : String} (c : Char) (h : text.toList.head? = some c) (hc : c ≠ 'H' ∧ c ≠ 'f') (call : FileCall) :
    ¬call.Expected (.fault text) := by
  rintro (heq | ⟨index, w, -, -, heq⟩)
  · cases heq
    exact hc.1 (Option.some.inj h).symm
  · cases heq
    rw [head_elementMessage] at h
    exact hc.2 (Option.some.inj h).symm

/-- A call that does not fit faults. -/
theorem call_refused (alloc : H → ℕ → Option H) (hio : Honest io) (hfits : ¬call.Fits io m) :
    ∃ e m', call.run io alloc m = (.error e, m') ∧ ∀ call' : FileCall, ¬call'.Expected e := by
  cases call with
  | read path =>
    have hlong := allocString_long alloc (m := m.after (io.readFile (pathOf path) m.io)) (Nat.lt_of_not_le hfits)
    refine ⟨_, _, bind_error ((bind_ok (readBytes_ok hio (pathOf path) m)).trans hlong), unexpected 'S' ?_ (by decide)⟩
    exact head_append (head_append rfl)
  | readBytes path =>
    have hlong : file_read_bytes io alloc path m = (.error (.fault
        s!"Array of {(contentBytes (io.readFile (pathOf path) m.io).1).length} elements is too long"), m.after (io.readFile (pathOf path) m.io)) := by
      rw [file_read_bytes, bind_ok (readBytes_ok hio (pathOf path) m), if_pos (Nat.lt_of_not_le hfits)]
      rfl
    refine ⟨_, _, bind_error hlong, unexpected 'A' ?_ (by decide)⟩
    exact head_append (head_append rfl)
  | error =>
    cases hwide : firstWide m.fileError with
    | some ch =>
      have hreason : file_error alloc m = (.error (.fault (wideMessage "a file error" ch)), m) := by
        change stringFromText alloc m.fileError "a file error" m = _
        rw [stringFromText, hwide]
        rfl
      refine ⟨_, _, bind_error hreason, unexpected 'a' ?_ (by decide)⟩
      exact head_append (head_append (head_append rfl))
    | none =>
      have hlen : 0x7FFF < ((latin1 m.fileError).getD []).length := by
        rw [latin1_of_narrow hwide, Option.getD_some, List.length_map, String.length_toList]
        exact Nat.lt_of_not_le fun hle => hfits ⟨hwide, hle⟩
      have hreason : file_error alloc m =
          (.error (.fault s!"String of {((latin1 m.fileError).getD []).length} characters is too long"), m) := by
        change stringFromText alloc m.fileError "a file error" m = _
        rw [stringFromText, hwide]
        exact allocString_long alloc hlen
      refine ⟨_, _, bind_error hreason, unexpected 'S' ?_ (by decide)⟩
      exact head_append (head_append rfl)
  | write path contents => exact absurd trivial hfits
  | append path contents => exact absurd trivial hfits
  | writeBytes path data => exact absurd trivial hfits
  | exists_ path => exact absurd trivial hfits
  | delete path => exact absurd trivial hfits

end One

section Runs

variable {W H α β : Type} {io : ProgramIO W} {alloc : H → ℕ → Option H} {m m' : Machine W H} {calls : List FileCall}

/-- A run of calls that all fit stops only where the heap or an element is at fault. -/
theorem run_expected (hio : Honest io) (hfit : AllFit io alloc calls m) {e : Stop} (hrun : runCalls io alloc calls m = (.error e, m')) :
    ∃ call ∈ calls, call.Expected e := by
  induction calls generalizing m with
  | nil => cases hrun
  | cons call calls ih =>
    obtain hcall | ⟨answer, m₁, hcall, hrest⟩ := of_bind_error hrun
    · obtain ⟨e', m₁, hcall', hexpected⟩ | ⟨answer, m₁, hcall', -⟩ := call_answers alloc hio hfit.1
      · rw [hcall] at hcall'
        cases hcall'
        exact ⟨call, List.mem_cons_self, hexpected⟩
      · rw [hcall] at hcall'
        cases hcall'
    · obtain hrest | ⟨answers, m₂, -, hend⟩ := of_bind_error hrest
      · obtain ⟨call', hmem, hexpected⟩ := ih (hfit.2 answer m₁ hcall) hrest
        exact ⟨call', List.mem_cons_of_mem call hmem, hexpected⟩
      · cases hend

/-- A run with a call that does not fit stops there, or before. -/
theorem run_refused (hio : Honest io) (hfit : ¬AllFit io alloc calls m) :
    ∃ e m', runCalls io alloc calls m = (.error e, m') ∧ ∀ call : FileCall, ¬call.Expected e := by
  induction calls generalizing m with
  | nil => exact absurd trivial hfit
  | cons call calls ih =>
    by_cases hfits : call.Fits io m
    · obtain ⟨answer, m₁, hcall, hrest⟩ : ∃ answer m₁, call.run io alloc m = (.ok answer, m₁) ∧ ¬AllFit io alloc calls m₁ := by
        by_contra hall
        exact hfit ⟨hfits, fun answer m₁ hcall => not_not.mp fun hrest => hall ⟨answer, m₁, hcall, hrest⟩⟩
      obtain ⟨e, m₂, hrun, hunexpected⟩ := ih hrest
      exact ⟨e, m₂, (bind_ok hcall).trans (bind_error hrun), hunexpected⟩
    · obtain ⟨e, m₁, hcall, hunexpected⟩ := call_refused alloc hio hfits
      exact ⟨e, m₁, bind_error hcall, hunexpected⟩

/-- Calls that return answer what they are for, and keep the last failure. -/
theorem run_answers (hio : Honest io) {last : Option String} (hlast : m.Holds last) {answers : List FileAnswer}
    (hrun : runCalls io alloc calls m = (.ok answers, m')) :
    ∃ last', meanings io m.io last calls = (answers, m'.io, last') ∧ m'.Holds last' := by
  induction calls generalizing m last answers with
  | nil =>
    cases hrun
    exact ⟨last, rfl, hlast⟩
  | cons call calls ih =>
    obtain ⟨answer, m₁, hcall, hrest⟩ := of_bind_ok hrun
    obtain ⟨rest, m₂, hcalls, hend⟩ := of_bind_ok hrest
    cases hend
    have hfits : call.Fits io m := by
      by_contra hfits
      obtain ⟨e, m₃, hcall', -⟩ := call_refused alloc hio hfits
      rw [hcall] at hcall'
      cases hcall'
    obtain ⟨e, m₃, hcall', -⟩ | ⟨answer', m₃, hcall', hanswers⟩ := call_answers alloc hio hfits
    · rw [hcall] at hcall'
      cases hcall'
    · rw [hcall] at hcall'
      cases hcall'
      obtain ⟨last₁, hmeaning, hlast₁⟩ := hanswers last hlast
      obtain ⟨last₂, hmeanings, hlast₂⟩ := ih hlast₁ hcalls
      refine ⟨last₂, ?_, hlast₂⟩
      rw [meanings, hmeaning]
      dsimp only
      rw [hmeanings]

theorem newResult_ok {r r' : Result β Str} (h : newResult alloc r m = (.ok r', m')) : r' = r := by
  obtain ⟨-, m₁, -, hend⟩ := of_bind_ok h
  cases hend
  rfl

theorem reserve_ok {payload : ℕ} (h : reserve alloc payload m = (.ok (), m')) : SameHost m m' := by
  obtain ⟨m₁, hfull⟩ | ⟨u, m₁, hrun, hm⟩ := reserve_ends alloc (m := m) payload
  · rw [h] at hfull
    cases hfull
  · rw [h] at hrun
    cases hrun
    exact hm

theorem allocString_ok {data : List UInt8} {s : Str} (h : allocString alloc data m = (.ok s, m')) : s.bytes = data ∧ SameHost m m' := by
  rw [allocString] at h
  split at h
  · obtain ⟨u, m₁, hreserve, hend⟩ := of_bind_ok h
    cases hend
    exact ⟨rfl, reserve_ok hreserve⟩
  · cases h

theorem file_error_ok {why : Str} (h : file_error alloc m = (.ok why, m')) : str_len why > 0 ↔ m.fileError ≠ "" := by
  change stringFromText alloc m.fileError "a file error" m = _ at h
  cases hwide : firstWide m.fileError with
  | some ch =>
    rw [stringFromText, hwide] at h
    cases h
  | none =>
    rw [stringFromText, hwide] at h
    rw [str_len, (allocString_ok h).1, latin1_of_narrow hwide, Option.getD_some, List.length_map, gt_iff_lt, Int.natCast_pos,
      List.length_pos_iff, ne_eq, ne_eq, String.toList_eq_nil_iff]

/-- `fs_check` after an operation. -/
theorem fs_check_tells {r : Except String α × W} {m₁ : Machine W H} {value : β} {result : Result β Str} (hr : Raises r.1)
    (hm : SameHost (m.after r) m₁) (hrun : fs_check alloc value m₁ = (.ok result, m')) : result.isOk = true ↔ ∃ a, r.1 = .ok a := by
  obtain ⟨why, m₂, hwhy, hrest⟩ := of_bind_ok hrun
  have hfail : str_len why > 0 ↔ ¬∃ a, r.1 = .ok a := by
    rw [file_error_ok hwhy, ne_eq, hm.2, (holds_after m hr).error_iff]
    cases r.1 with
    | ok a => simp [failure]
    | error reason => simp [failure]
  split at hrest
  · next hlen =>
    cases newResult_ok hrest
    exact iff_of_false (by simp [Result.isOk]) (hfail.mp hlen)
  · next hlen =>
    cases newResult_ok hrest
    exact iff_of_true rfl (not_not.mp fun h => hlen (hfail.mpr h))

/-- A wrapper that returns is `Ok` just if its operation succeeded. It does return while the
heap lasts, if all that it handles fits. -/
structure Tells (x : FileAct W H (Result β Str)) (m : Machine W H) (r : Except String α × W) (fits : Prop) : Prop where
  ok : ∀ result m', x m = (.ok result, m') → (result.isOk = true ↔ ∃ a, r.1 = .ok a)
  returns : fits → TextFits ((failure r.1).getD "") → Ends x m fun _ _ => True

theorem fs_check_ends {r : Except String α × W} {m₁ : Machine W H} (value : β) (hm : SameHost (m.after r) m₁)
    (hfits : TextFits ((failure r.1).getD "")) : Ends (fs_check alloc value) m₁ fun _ _ => True := by
  have hreason : m₁.fileError = (failure r.1).getD "" := hm.2
  refine (file_error_ends (hreason ▸ hfits)).bind fun why m₂ _ => ?_
  split
  · exact (reserve_ends alloc 2).bind fun _ _ _ => .pure trivial
  · exact (reserve_ends alloc 2).bind fun _ _ _ => .pure trivial

theorem fs_read_tells (hio : Honest io) (path : Str) : Tells (fs_read io alloc path) m (io.readFile (pathOf path) m.io)
    ((contentBytes (io.readFile (pathOf path) m.io).1).length ≤ 0x7FFF) where
  ok result m' hrun := by
    obtain ⟨s, m₁, hread, hcheck⟩ := of_bind_ok hrun
    rw [file_read, bind_ok (readBytes_ok hio (pathOf path) m)] at hread
    exact fs_check_tells (hio.read (pathOf path) m.io) (allocString_ok hread).2 hcheck
  returns hfits hreason := (file_read_ends hio hfits).bind fun s _ h => fs_check_ends s h.2 hreason

theorem fs_read_bytes_tells (hio : Honest io) (path : Str) : Tells (fs_read_bytes io alloc path) m (io.readFile (pathOf path) m.io)
    ((contentBytes (io.readFile (pathOf path) m.io).1).length ≤ 0x7FFF) where
  ok result m' hrun := by
    obtain ⟨elements, m₁, hread, hcheck⟩ := of_bind_ok hrun
    rw [file_read_bytes, bind_ok (readBytes_ok hio (pathOf path) m)] at hread
    split at hread
    · cases hread
    · obtain ⟨u, m₂, hreserve, hend⟩ := of_bind_ok hread
      cases hend
      exact fs_check_tells (hio.read (pathOf path) m.io) (reserve_ok hreserve) hcheck
  returns hfits hreason := (file_read_bytes_ends hio hfits).bind fun elements _ h => fs_check_ends elements h.2 hreason

theorem writeBytes_tells (hio : Honest io) (append : Bool) (path : String) (data : List UInt8) (value : β) :
    Tells (writeBytes io append path data >>= fun _ => fs_check alloc value) m (io.writeFile path data append m.io) True where
  ok result m' hrun := by
    rw [bind_ok (writeBytes_ok ..)] at hrun
    exact fs_check_tells (hio.write path data append m.io) ⟨rfl, rfl⟩ hrun
  returns _ hreason := (Ends.of_ok (P := fun _ m' => SameHost (m.after (io.writeFile path data append m.io)) m')
    (writeBytes_ok ..) ⟨rfl, rfl⟩).bind fun _ _ hm => fs_check_ends value hm hreason

/-- With an element that is no byte there is no operation, and the wrapper does not return. -/
theorem fs_write_bytes_tells (hio : Honest io) (path : Str) (data : List UInt16) :
    Tells (fs_write_bytes io alloc path data) m (io.writeFile (pathOf path) (data.map UInt16.toUInt8) false m.io)
      (∀ w ∈ data, w.toNat ≤ 0xFF) where
  ok result m' hrun := by
    obtain ⟨ok, m₁, hwrite, hcheck⟩ := of_bind_ok hrun
    obtain ⟨bytes, m₂, hbytes, hwrite'⟩ := of_bind_ok hwrite
    by_cases hdata : ∀ w ∈ data, w.toNat ≤ 0xFF
    · rw [arrayBytes_ok hdata 0] at hbytes
      cases hbytes
      rw [writeBytes_ok] at hwrite'
      cases hwrite'
      exact fs_check_tells (hio.write (pathOf path) _ false m.io) ⟨rfl, rfl⟩ hcheck
    · obtain ⟨i, w, -, -, hrefused⟩ := arrayBytes_refuses (m := m) hdata 0
      rw [hrefused] at hbytes
      cases hbytes
  returns hdata hreason := by
    have hwrite : file_write_bytes io path data m = _ := (bind_ok (arrayBytes_ok hdata 0)).trans (writeBytes_ok ..)
    exact (Ends.of_ok (P := fun _ m' => SameHost (m.after (io.writeFile (pathOf path) (data.map UInt16.toUInt8) false m.io)) m')
      hwrite ⟨rfl, rfl⟩).bind fun _ _ hm => fs_check_ends _ hm hreason

theorem fs_delete_tells (hio : Honest io) (path : Str) :
    Tells (fs_delete io alloc path) m (io.deleteFile (pathOf path) m.io) True := by
  have hdelete : file_delete io path m =
      (.ok (io.deleteFile (pathOf path) m.io).1.toOption.isSome, m.after (io.deleteFile (pathOf path) m.io)) := bind_ok (fileOp_eq ..)
  constructor
  · intro result m' hrun
    rw [fs_delete, bind_ok hdelete] at hrun
    exact fs_check_tells (hio.delete (pathOf path) m.io) ⟨rfl, rfl⟩ hrun
  · intro _ hreason
    exact (Ends.of_ok (P := fun _ m' => SameHost (m.after (io.deleteFile (pathOf path) m.io)) m') hdelete ⟨rfl, rfl⟩).bind
      fun _ _ hm => fs_check_ends _ hm hreason

end Runs

section Captured

/-- `FileNotFoundError(f"No such file: {path}")` -/
def noSuchFile (path : String) : OSError := ⟨s!"No such file: {path}", "FileNotFoundError", by decide⟩

/-- `CaptureIO` -/
def captureIo : ProgramIO Capture where
  write text w := .ok { w with chunks := w.chunks ++ [text] }
  readLine w := .ok (captureReadLine w)
  readFile path w :=
    match w.files.lookup path with
    | none => (.error (noSuchFile path).reason, w)
    | some data => (.ok (.bytes data), w)
  writeFile path data append w :=
    (.ok (), { w with files := Dict.assign w.files path (if append then (w.files.lookup path).getD [] ++ data else data) })
  fileExists path w := (.ok (w.files.lookup path).isSome, w)
  deleteFile path w :=
    match w.files.lookup path with
    | none => (.error (noSuchFile path).reason, w)
    | some _ => (.ok (), { w with files := w.files.filter fun e => e.1 ≠ path })

/-- The operations on a map from paths to bytes. -/
def mapIo : ProgramIO (String → Option (List UInt8)) where
  write _ files := .ok files
  readLine files := .ok ("", files)
  readFile path files :=
    match files path with
    | none => (.error (noSuchFile path).reason, files)
    | some data => (.ok (.bytes data), files)
  writeFile path data append files :=
    (.ok (), Function.update files path (some (if append then (files path).getD [] ++ data else data)))
  fileExists path files := (.ok (files path).isSome, files)
  deleteFile path files :=
    match files path with
    | none => (.error (noSuchFile path).reason, files)
    | some _ => (.ok (), Function.update files path none)

/-- The map that a capture's files are. -/
def fileMap (w : Capture) : String → Option (List UInt8) := fun path => w.files.lookup path

theorem captureIo_honest : Honest captureIo where
  bytes path w content h := by
    simp only [captureIo] at h
    split at h
    · cases h
    · exact ⟨_, (Except.ok.inj h).symm⟩
  read path w reason h := by
    simp only [captureIo] at h
    split at h
    · exact ⟨noSuchFile path, (Except.error.inj h).symm⟩
    · cases h
  write path data append w reason h := by cases h
  present path w reason h := by cases h
  delete path w reason h := by
    simp only [captureIo] at h
    split at h
    · exact ⟨noSuchFile path, (Except.error.inj h).symm⟩
    · cases h

variable (w : Capture)

theorem fileMap_assign (path : String) (data : List UInt8) :
    fileMap { w with files := Dict.assign w.files path data } = Function.update (fileMap w) path (some data) := by
  funext path'
  rw [fileMap, Dict.lookup_assign, Function.update_apply]
  rfl

theorem fileMap_erase (path : String) :
    fileMap { w with files := w.files.filter fun e => e.1 ≠ path } = Function.update (fileMap w) path none := by
  funext path'
  rw [Function.update_apply]
  simp only [fileMap]
  induction w.files with
  | nil => simp
  | cons e files ih =>
    by_cases he : e.1 = path
    · rw [List.filter_cons_of_neg (by simpa using he), ih, Dict.lookup_cons]
      split
      · rfl
      · next hpath => rw [if_neg fun h => hpath (h.trans he)]
    · rw [List.filter_cons_of_pos (by simpa using he), Dict.lookup_cons, Dict.lookup_cons, ih]
      split
      · next hpath => rw [if_neg fun h => he (hpath.symm.trans h)]
      · rfl

theorem read_capture (path : String) : mapIo.readFile path (fileMap w) = ((captureIo.readFile path w).1, fileMap (captureIo.readFile path w).2) := by
  simp only [mapIo, captureIo, fileMap]
  cases w.files.lookup path <;> rfl

theorem write_capture (path : String) (data : List UInt8) (append : Bool) : mapIo.writeFile path data append (fileMap w) =
    ((captureIo.writeFile path data append w).1, fileMap (captureIo.writeFile path data append w).2) :=
  congrArg (Prod.mk _) (fileMap_assign w path _).symm

theorem delete_capture (path : String) : mapIo.deleteFile path (fileMap w) =
    ((captureIo.deleteFile path w).1, fileMap (captureIo.deleteFile path w).2) := by
  have herase := fileMap_erase w path
  simp only [mapIo, captureIo, ← herase]
  change (match w.files.lookup path with
    | none => _
    | some _ => _) = _
  cases w.files.lookup path <;> rfl

theorem meaning_capture (last : Option String) (call : FileCall) :
    call.meaning mapIo (fileMap w) last =
      ((call.meaning captureIo w last).1, fileMap (call.meaning captureIo w last).2.1, (call.meaning captureIo w last).2.2) := by
  cases call with
  | read path => simp only [FileCall.meaning, read_capture]
  | readBytes path => simp only [FileCall.meaning, read_capture]
  | write path contents => simp only [FileCall.meaning, write_capture]
  | append path contents => simp only [FileCall.meaning, write_capture]
  | writeBytes path data => simp only [FileCall.meaning, write_capture]
  | exists_ path => rfl
  | delete path => simp only [FileCall.meaning, delete_capture]
  | error => rfl

theorem meanings_capture (last : Option String) (calls : List FileCall) :
    meanings mapIo (fileMap w) last calls =
      ((meanings captureIo w last calls).1, fileMap (meanings captureIo w last calls).2.1, (meanings captureIo w last calls).2.2) := by
  induction calls generalizing w last with
  | nil => rfl
  | cons call calls ih =>
    simp only [meanings, meaning_capture]
    rw [ih]

end Captured

section Whole

variable {W H : Type} {io : ProgramIO W}

/-- No run of calls from the start faults for another reason than the heap or an element
just if all its calls fit. What is returned is what the calls are for, with the failure of
the last operation; the wrappers tell success from failure; and captured files are a map. -/
theorem files_exact (hio : Honest io) (alloc : H → ℕ → Option H) (w : W) (heap : H) (calls : List FileCall) :
    ((∀ e m, runCalls io alloc calls ⟨w, heap, ""⟩ = (.error e, m) → ∃ call ∈ calls, call.Expected e) ↔
      AllFit io alloc calls ⟨w, heap, ""⟩) ∧
    (∀ answers m, runCalls io alloc calls ⟨w, heap, ""⟩ = (.ok answers, m) →
      ∃ last, meanings io w none calls = (answers, m.io, last) ∧ (m.fileError = "" ↔ last = none)) ∧
    (∀ (m : Machine W H) (path contents : Str) (data : List UInt16),
      Tells (fs_read io alloc path) m (io.readFile (pathOf path) m.io)
        ((contentBytes (io.readFile (pathOf path) m.io).1).length ≤ 0x7FFF) ∧
      Tells (fs_read_bytes io alloc path) m (io.readFile (pathOf path) m.io)
        ((contentBytes (io.readFile (pathOf path) m.io).1).length ≤ 0x7FFF) ∧
      Tells (fs_write io alloc path contents) m (io.writeFile (pathOf path) contents.bytes false m.io) True ∧
      Tells (fs_append io alloc path contents) m (io.writeFile (pathOf path) contents.bytes true m.io) True ∧
      Tells (fs_write_bytes io alloc path data) m (io.writeFile (pathOf path) (data.map UInt16.toUInt8) false m.io)
        (∀ w ∈ data, w.toNat ≤ 0xFF) ∧
      Tells (fs_delete io alloc path) m (io.deleteFile (pathOf path) m.io) True) ∧
    ∀ (c : Capture) answers m, runCalls captureIo alloc calls ⟨c, heap, ""⟩ = (.ok answers, m) →
      ∃ last, meanings mapIo (fileMap c) none calls = (answers, fileMap m.io, last) := by
  have hstart : ∀ {W : Type} (w : W), Machine.Holds (⟨w, heap, ""⟩ : Machine W H) none := fun _ => ⟨rfl, by simp⟩
  refine ⟨⟨fun hall => ?_, fun hfit e m hrun => run_expected hio hfit hrun⟩, fun answers m hrun => ?_, ?_, ?_⟩
  · by_contra hfit
    obtain ⟨e, m, hrun, hunexpected⟩ := run_refused hio hfit
    obtain ⟨call, -, hexpected⟩ := hall e m hrun
    exact hunexpected call hexpected
  · obtain ⟨last, hmeanings, hlast⟩ := run_answers hio (hstart w) hrun
    exact ⟨last, hmeanings, hlast.error_iff⟩
  · intro m path contents data
    exact ⟨fs_read_tells hio path, fs_read_bytes_tells hio path, writeBytes_tells hio false (pathOf path) contents.bytes _,
      writeBytes_tells hio true (pathOf path) contents.bytes _, fs_write_bytes_tells hio path data, fs_delete_tells hio path⟩
  · intro c answers m hrun
    obtain ⟨last, hmeanings, -⟩ := run_answers captureIo_honest (hstart c) hrun
    refine ⟨last, ?_⟩
    rw [meanings_capture, hmeanings]

/-- Two files, one read back and deleted, and a read that fails. -/
def fileCalls : List FileCall :=
  [.write ⟨[97], by decide⟩ ⟨[120], by decide⟩, .append ⟨[97], by decide⟩ ⟨[121], by decide⟩, .writeBytes ⟨[98], by decide⟩ [255],
    .read ⟨[97], by decide⟩, .delete ⟨[97], by decide⟩, .readBytes ⟨[97], by decide⟩, .exists_ ⟨[98], by decide⟩]

theorem fileCalls_map : ∃ m last, runCalls captureIo (fun _ _ => some ()) fileCalls ⟨{}, (), ""⟩ =
      (.ok [.bool true, .bool true, .bool true, .str [120, 121], .bool true, .array [], .bool true], m) ∧
    meanings mapIo (fileMap {}) none fileCalls =
      ([.bool true, .bool true, .bool true, .str [120, 121], .bool true, .array [], .bool true], fileMap m.io, last) := by
  have hanswers : (runCalls captureIo (fun _ _ => some ()) fileCalls ⟨{}, (), ""⟩).1 =
      .ok [.bool true, .bool true, .bool true, .str [120, 121], .bool true, .array [], .bool true] := by decide +kernel
  have hrun : runCalls captureIo (fun _ _ => some ()) fileCalls ⟨{}, (), ""⟩ =
      (.ok [.bool true, .bool true, .bool true, .str [120, 121], .bool true, .array [], .bool true],
        (runCalls captureIo (fun _ _ => some ()) fileCalls ⟨{}, (), ""⟩).2) := Prod.ext hanswers rfl
  obtain ⟨last, hmap⟩ := (files_exact captureIo_honest (fun _ _ => some ()) {} () fileCalls).2.2.2 {} _ _ hrun
  exact ⟨_, last, hrun, hmap⟩

theorem length_noSuchFile (path : String) : (noSuchFile path).reason.length = 14 + path.length := by
  have htext : (noSuchFile path).text.length = 14 + path.length := by
    change ("No such file: " ++ path).length = _
    rw [String.length_append]
    rfl
  rw [OSError.reason, if_neg, htext]
  intro hnil
  rw [hnil, String.length_empty] at htext
  omega

/-- A path as long as a string can be. -/
def longPath : Str := ⟨List.replicate 0x7FFF 97, by rw [List.length_replicate]⟩

/-- The reason that a file with such a name cannot be read is too long for a string, and asking
for it faults. -/
theorem file_error_faults : ¬ ∀ e m, runCalls captureIo (fun _ _ => some ()) [.read longPath, .error] ⟨{}, (), ""⟩ = (.error e, m) →
    ∃ call ∈ [FileCall.read longPath, FileCall.error], call.Expected e := by
  intro hall
  have hread : FileCall.run captureIo (fun _ _ => some ()) (.read longPath) ⟨{}, (), ""⟩ =
      (.ok (.str []), ⟨{}, (), (noSuchFile (pathOf longPath)).reason⟩) := rfl
  have hlen : ¬FileCall.Fits captureIo (⟨{}, (), (noSuchFile (pathOf longPath)).reason⟩ : Machine Capture Unit) .error := by
    intro hfits
    have hlong : (noSuchFile (pathOf longPath)).reason.length ≤ 0x7FFF := hfits.2
    have hpath : (pathOf longPath).length = 0x7FFF := by
      rw [pathOf, ofLatin1, String.length_ofList, List.length_map]
      exact List.length_replicate
    rw [length_noSuchFile, hpath] at hlong
    omega
  obtain ⟨e, m, hrun, hunexpected⟩ := call_refused (fun _ _ => some ()) captureIo_honest hlen
  obtain ⟨call, -, hexpected⟩ := hall e m ((bind_ok hread).trans (bind_error (bind_error hrun)))
  exact hunexpected call hexpected

end Whole

end QuinLang.Std.Files
