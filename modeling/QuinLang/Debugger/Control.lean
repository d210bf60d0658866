import QuinLang.Debugger.Inspection
import QuinLang.Runtime.Run

/-! Breakpoints, stepping, and a run with a debugger attached. -/

namespace QuinLang.Debugger

/-- What the hook does at the next instruction. -/
inductive Mode
  | run
  | entry
  | stepIn
  | stepOver
  | finish
  deriving DecidableEq

inductive StopReason
  | entry
  | breakpoint
  | step
  | pause
  | fault
  deriving DecidableEq

structure Breakpoint where
  id : ℕ
  pc : ℕ
  function : String
  file : String
  line : ℕ
  enabled : Bool := true
  hits : ℕ := 0

/-- Why execution paused, and where. -/
structure Stop where
  reason : StopReason
  frame : FrameView
  breakpoint : Option Breakpoint := none
  error : Option String := none

/-- The debugger between two instructions. `breakpoints` are those of both its tables,
which key the same objects by id and by pc. -/
structure State where
  breakpoints : List Breakpoint := []
  nextId : ℕ := 1
  mode : Option Mode := some .entry
  fromLine : Option ℕ := none
  fromDepth : ℤ := 0

section Layout

variable (P : CompiledProgram)

/-- Function indices in the order of their code. -/
def ordered (indices : List ℕ) : List ℕ :=
  indices.mergeSort fun i j =>
    ((P.functions[i]?).map FunctionInfo.entryPc).getD 0 ≤ ((P.functions[j]?).map FunctionInfo.entryPc).getD 0

/-- The half-open pc range a function occupies: up to where the next one starts. -/
def functionRange (index : ℕ) : ℕ × ℕ :=
  let order := ordered P (List.range P.functions.length)
  let entryOf (i : ℕ) := ((P.functions[i]?).map FunctionInfo.entryPc).getD 0
  let following := order[order.idxOf index + 1]?
  (entryOf index, (following.map entryOf).getD P.code.length)

/-- The file the user compiled. -/
def entryFile : String :=
  match P.functions.find? fun fn => fn.name = "main" with
  | some fn => fn.sourceFile
  | none => ((P.functions.head?).map FunctionInfo.sourceFile).getD ""

/-- A path spelled the way an include is, `sep` being the host's own separator. -/
def slashed (sep : Char) (path : String) : String := path.map fun c => if c = sep then '/' else c

/-- Every function declared in the file, matched by path suffix. -/
def functionsInFile (sep : Char) (wanted : String) : List ℕ :=
  let wanted := slashed sep wanted
  let suffix := "/" ++ String.ofList (wanted.toList.dropWhile fun c => c = '.' || c = '/')
  (List.range P.functions.length).filter fun i =>
    let path := slashed sep (((P.functions[i]?).map FunctionInfo.sourceFile).getD "")
    path = wanted ∨ path.endsWith suffix

/-- The lines carrying code in `[start, stop)`. -/
def linesIn (start stop : ℕ) : List ℕ :=
  (P.sourceMap.markers.filter fun m => start ≤ m.1 ∧ m.1 < stop).map fun m => m.2.line

/-- The lowest pc in `[start, stop)` attributed to the line. -/
def firstPcOnLine (line start stop : ℕ) : Option ℕ :=
  ((P.sourceMap.markers.filter fun m => m.2.line = line ∧ start ≤ m.1 ∧ m.1 < stop).map Prod.fst).min?

end Layout

section Breakpoints

variable (P : CompiledProgram)

def State.add (d : State) (pc fnIndex line : ℕ) : Breakpoint × State :=
  match d.breakpoints.find? fun bp => bp.pc = pc with
  | some existing => (existing, d)
  | none =>
    let bp : Breakpoint := {
      id := d.nextId
      pc := pc
      function := ((P.functions[fnIndex]?).map FunctionInfo.name).getD ""
      file := ((P.functions[fnIndex]?).map FunctionInfo.sourceFile).getD ""
      line := line }
    (bp, { d with breakpoints := d.breakpoints ++ [bp], nextId := d.nextId + 1 })

def State.breakAtFunction (d : State) (name : String) : Except String Breakpoint × State :=
  match P.functions.findIdx? fun fn => fn.name = name with
  | none => (.error s!"no function named '{name}'", d)
  | some i =>
    let entry := ((P.functions[i]?).map FunctionInfo.entryPc).getD 0
    let (bp, d) := d.add P entry i (((P.sourceMap.lookup entry).map Pos.line).getD 0)
    (.ok bp, d)

/-- The first of the functions with code on the line, and the pc. -/
def pcOnLine (indices : List ℕ) (line : ℕ) : Option (ℕ × ℕ) :=
  (ordered P indices).findSome? fun index =>
    (firstPcOnLine P line (functionRange P index).1 (functionRange P index).2).map fun pc => (index, pc)

/-- A line with no code of its own moves forward to the next one that has some. -/
def State.breakAtLine (d : State) (sep : Char) (line : ℕ) (file : String) : Except String Breakpoint × State :=
  let wanted := if file = "" then entryFile P else file
  let indices := functionsInFile P sep wanted
  if indices = [] then (.error s!"no source file matching '{wanted}'", d)
  else
    let candidates := indices.flatMap fun index =>
      (linesIn P (functionRange P index).1 (functionRange P index).2).filter fun l => line < l
    let found := match pcOnLine P indices line with
      | some (index, pc) => some (index, pc, line)
      | none => candidates.min?.bind fun next => (pcOnLine P indices next).map fun at' => (at'.1, at'.2, next)
    match found with
    | none => (.error s!"no code at or after line {line} in {wanted}", d)
    | some (index, pc, line) =>
      let (bp, d) := d.add P pc index line
      (.ok bp, d)

def State.clearBreakpoints (d : State) : State := { d with breakpoints := [] }

def State.remove (d : State) (id : ℕ) : Except String Unit × State :=
  if d.breakpoints.any fun bp => bp.id = id then
    (.ok (), { d with breakpoints := d.breakpoints.filter fun bp => bp.id ≠ id })
  else (.error s!"no breakpoint {id}", d)

def State.update (d : State) (id : ℕ) (f : Breakpoint → Breakpoint) : State :=
  { d with breakpoints := d.breakpoints.map fun bp => if bp.id = id then f bp else bp }

def State.setEnabled (d : State) (id : ℕ) (enabled : Bool) : Except String Breakpoint × State :=
  match d.breakpoints.find? fun bp => bp.id = id with
  | none => (.error s!"no breakpoint {id}", d)
  | some bp => (.ok { bp with enabled := enabled }, d.update id fun bp => { bp with enabled := enabled })

end Breakpoints

/-! What a front end can do while the program is stopped. -/

inductive Command : Type → Type
  | resume (mode : Mode) (frameDepth : ℤ) : Command Unit
  | breakAtFunction (name : String) : Command (Except String Breakpoint)
  | breakAtLine (line : ℕ) (file : String) : Command (Except String Breakpoint)
  | clearBreakpoints : Command Unit
  | remove (id : ℕ) : Command (Except String Unit)
  | setEnabled (id : ℕ) (enabled : Bool) : Command (Except String Breakpoint)
  | frames : Command (List FrameView)
  | lookupName (frame : FrameView) (name : String) : Command (List LocalInfo)
  | describeLocal (frame : FrameView) (info : LocalInfo) : Command (Except Fault Value)
  | childrenOf (value : Value) : Command (Except Fault (List (String × Value)))
  | formatLocal (frame : FrameView) (info : LocalInfo) : Command (Except Fault String)

/-- One stop as a dialogue with the debugger: it ends by returning, by quitting, or with an
exception that the front end does not catch. -/
inductive Session (σ : Type) : Type 1
  | returned (memory : σ)
  | quit
  | raised (exception : Fault)
  | command {β : Type} (c : Command β) (next : β → Session σ)

/-- Why a run under the debugger is given up. -/
inductive Abort
  | quit
  | resumeNotChosen
  | raised (exception : Fault)

/-- `σ` is what a front end remembers from stop to stop. -/
abbrev FrontEnd (W σ : Type) := σ → State → VM W → Stop → Session σ

section Running

variable {W σ : Type} (P : CompiledProgram) (F : FloatOps) (io : ProgramIO W) (sep : Char)

def State.resume (d : State) (mode : Mode) (s : VM W) (frameDepth : ℤ) : State :=
  { d with
    mode := some mode
    fromDepth := s.callStack.length - frameDepth
    fromLine := (P.sourceMap.lookup s.pc).map Pos.line }

/-- An inspection reads through the accessors of the machine itself, and what it raises is
the front end's to catch. -/
def inspect {β : Type} (x : Exec W β) (d : State) (s : VM W) : Except Fault β × State × VM W :=
  match x s with
  | .ok (v, s) => (.ok v, d, s)
  | .error e => (.error e, d, s)

def Command.run {β : Type} (c : Command β) (d : State) (s : VM W) : β × State × VM W :=
  match c with
  | resume mode frameDepth => ((), d.resume P mode s frameDepth, s)
  | breakAtFunction name => ((d.breakAtFunction P name).1, (d.breakAtFunction P name).2, s)
  | breakAtLine line file => ((d.breakAtLine P sep line file).1, (d.breakAtLine P sep line file).2, s)
  | clearBreakpoints => ((), d.clearBreakpoints, s)
  | remove id => ((d.remove id).1, (d.remove id).2, s)
  | setEnabled id enabled => ((d.setEnabled id enabled).1, (d.setEnabled id enabled).2, s)
  | frames => (framesOf P s, d, s)
  | lookupName frame name => (Debugger.lookupName P frame name, d, s)
  | describeLocal frame info => inspect (Debugger.describeLocal P F frame info) d s
  | childrenOf value => inspect (Debugger.childrenOf P F value) d s
  | formatLocal frame info => inspect (Debugger.formatLocal P F frame info) d s

def Session.run : Session σ → State → VM W → Except Abort (σ × State × VM W)
  | returned memory, d, s => .ok (memory, d, s)
  | quit, _, _ => .error .quit
  | raised e, _, _ => .error (.raised e)
  | command c next, d, s =>
    let (v, d, s) := c.run P F sep d s
    Session.run (next v) d s

/-- A stop of a run: the machine, the debugger, and what the front end does there. -/
structure Stopped (W σ : Type) where
  vm : VM W
  debugger : State
  session : Session σ

/-- `_stop`: the front end must choose how to go on. -/
def Stopped.run (stopped : Stopped W σ) : Except Abort (σ × State × VM W) :=
  match stopped.session.run P F sep stopped.debugger stopped.vm with
  | .error e => .error e
  | .ok (memory, d, s) => if d.mode = none then .error .resumeNotChosen else .ok (memory, d, s)

def innermost (s : VM W) : FrameView := frameView P s.currentFn s.pc s.locals 0

/-- Whether a step ends here. -/
def State.stepEnds (d : State) (s : VM W) : Mode → Bool
  | .run => false
  | .entry => true
  | .finish => s.callStack.length < d.fromDepth
  | .stepOver =>
    s.callStack.length < d.fromDepth ||
      (s.callStack.length = d.fromDepth && (P.sourceMap.lookup s.pc).map Pos.line ≠ d.fromLine)
  | .stepIn => s.callStack.length ≠ d.fromDepth || (P.sourceMap.lookup s.pc).map Pos.line ≠ d.fromLine

/-- Why the hook stops before an instruction, if it does, and the breakpoint hit. -/
def State.stopAt (d : State) (pause : Bool) (s : VM W) : Option Stop × State :=
  if pause then (some { reason := .pause, frame := innermost P s }, d)
  else
    match d.breakpoints.find? fun bp => bp.pc = s.pc && bp.enabled with
    | some bp =>
      let hit := { bp with hits := bp.hits + 1 }
      (some { reason := .breakpoint, frame := innermost P s, breakpoint := some hit },
        d.update bp.id fun bp => { bp with hits := bp.hits + 1 })
    | none =>
      let mode := d.mode.getD .stepIn
      if d.stepEnds P s mode then
        (some { reason := if mode = .entry then .entry else .step, frame := innermost P s }, d)
      else (none, d)

/-- How a run ended, `running` while it has not. -/
inductive Ending (W : Type)
  | running (s : VM W)
  | exited (code : ℤ) (s : VM W)
  | faulted (e : Fault)
  | abandoned (why : Abort)

/-- What there is to see of a run: the machine each time round the loop, the stops, the
end, and whether the hook is set. -/
structure Log (W σ : Type) where
  visited : List (VM W)
  stops : List (Stopped W σ) := []
  ending : Ending W
  hooked : Bool := true

def Ending.isRunning : Ending W → Bool
  | running _ => true
  | _ => false

/-- The `finally` of `run`: whatever ends the run, the hook is taken away. -/
def Log.unhooked (log : Log W σ) : Log W σ :=
  match log.ending with
  | .running _ => log
  | _ => { log with hooked := false }

/-- `n` turns of the loop with no debugger attached. -/
def plainLoop : ℕ → VM W → List (VM W) × Ending W
  | 0, s => ([], .running s)
  | n + 1, s =>
    match s.step P F io with
    | .error e => ([s], .faulted e)
    | .ok (.exited code s') => ([s], .exited code s')
    | .ok (.running s') => (s :: (plainLoop n s').1, (plainLoop n s').2)

def plainRun (args : List String) (w : W) (n : ℕ) : List (VM W) × Ending W :=
  match VM.start P args w with
  | .error e => ([], .faulted e)
  | .ok s => plainLoop P F io n s

variable (front : FrontEnd W σ)

def stopped (memory : σ) (d : State) (s : VM W) (stop : Stop) : Stopped W σ :=
  ⟨s, { d with mode := none }, front memory { d with mode := none } s stop⟩

/-- A `VMError` stops once more before it leaves, at the machine as it was left. -/
def faultStop (e : Fault) (left : VM W) (memory : σ) (d : State) : Log W σ :=
  match e with
  | .host _ => { visited := [], ending := .faulted e }
  | .vmError message =>
    let last := stopped front memory d left { reason := .fault, frame := innermost P left, error := some message }
    match last.run P F sep with
    | .error why => { visited := [], stops := [last], ending := .abandoned why }
    | .ok _ => { visited := [], stops := [last], ending := .faulted e }

/-- The hook: the stop it makes, if any, and what it hands back to the loop. -/
def onInstruction (pause : Bool) (memory : σ) (d : State) (s : VM W) :
    List (Stopped W σ) × Except Abort (σ × State × VM W) :=
  match d.stopAt P pause s with
  | (none, d) => ([], .ok (memory, d, s))
  | (some stop, d) =>
    let here := stopped front memory d s stop
    ([here], here.run P F sep)

/-- `n` turns of the loop with the hook set. `pauses k` is whether a pause was asked for
before the hook's call `k`, and `left s` the machine as an instruction that fails in `s`
leaves it. -/
def debugLoop (pauses : ℕ → Bool) (left : VM W → VM W) : ℕ → ℕ → σ → State → VM W → Log W σ
  | 0, _, _, _, s => { visited := [], ending := .running s }
  | n + 1, k, memory, d, s =>
    let hook := if s.pc < P.code.length then onInstruction P F sep front (pauses k) memory d s
      else ([], .ok (memory, d, s))
    match hook.2 with
    | .error why => { visited := [s], stops := hook.1, ending := .abandoned why }
    | .ok (memory, d, t) =>
      match t.step P F io with
      | .error e =>
        let final := faultStop P F sep front e (left t) memory d
        { visited := [s], stops := hook.1 ++ final.stops, ending := final.ending }
      | .ok (.exited code s') => { visited := [s], stops := hook.1, ending := .exited code s' }
      | .ok (.running s') =>
        let rest := debugLoop pauses left n (k + 1) memory d s'
        { visited := s :: rest.visited, stops := hook.1 ++ rest.stops, ending := rest.ending }

/-- `run`, followed for `n` turns of the loop, with the hook set. -/
def debugRun (pauses : ℕ → Bool) (left : VM W → VM W) (args : List String) (w : W) (memory : σ) (d : State) (n : ℕ) :
    Log W σ :=
  let log := match VM.start P args w with
    | .error e => faultStop P F sep front e (left { args := args, io := w }) memory d
    | .ok s => debugLoop P F io sep front pauses left n 0 memory d s
  log.unhooked

end Running

end QuinLang.Debugger
