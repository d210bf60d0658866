import QuinLang.Debugger.Control
import QuinLang.Lib.Dict

/-! The breakpoints of a session: what the client asked for, and where it landed. -/

namespace QuinLang.Dap

open Debugger (Breakpoint)
open Dict

section Records

/-- The DAP `Breakpoint`. A source is its path here, which its name is taken from. -/
structure BreakpointBody where
  id : ℕ
  verified : Bool
  message : Option String := none
  source : Option String := none
  line : Option ℕ := none
  deriving DecidableEq

/-- One breakpoint as the client asked for it, and where it landed: `function` names a
function breakpoint, and otherwise it is a line in a file. -/
structure ClientBreakpoint where
  id : ℕ
  function : Option String := none
  clientPath : String := ""
  path : String := ""
  line : ℕ := 0
  resolvedFile : String := ""
  resolvedLine : Option ℕ := none
  message : String := ""
  reported : Option BreakpointBody := none

variable (P : CompiledProgram) (sep : Char)

/-- Where the debugger puts it. -/
def ClientBreakpoint.place (r : ClientBreakpoint) (d : Debugger.State) : Except String Breakpoint × Debugger.State :=
  match r.function with
  | some name => d.breakAtFunction P name
  | none => d.breakAtLine P sep r.line r.path

def ClientBreakpoint.resolve (r : ClientBreakpoint) (d : Debugger.State) :
    Option Breakpoint × ClientBreakpoint × Debugger.State :=
  match r.place P sep d with
  | (.ok bp, d) => (some bp, { r with resolvedFile := bp.file, resolvedLine := some bp.line, message := "" }, d)
  | (.error e, d) => (none, { r with resolvedFile := "", resolvedLine := none, message := e }, d)

def ClientBreakpoint.body (source : String → String) (r : ClientBreakpoint) : BreakpointBody :=
  let message := if r.message = "" then none else some r.message
  match r.function, r.resolvedLine with
  | some _, some line =>
    { id := r.id, verified := true, message := message, source := some (source r.resolvedFile), line := some line }
  | some _, none => { id := r.id, verified := false, message := message }
  | none, resolved =>
    { id := r.id, verified := resolved.isSome, message := message, source := some r.clientPath, line := some (resolved.getD r.line) }

end Records

/-- What a session keeps of breakpoints. `debugger` is there from the first launch that
compiled, with the program it is for. -/
structure Breakpoints where
  debugger : Option (CompiledProgram × Debugger.State) := none
  sourceBreakpoints : List (String × List ClientBreakpoint) := []
  functionBreakpoints : List ClientBreakpoint := []
  nextBreakpointId : ℕ := 1
  hitIds : List (ℕ × List ℕ) := []
  clientPaths : List (String × String) := []

section Rebuilding

variable (P : CompiledProgram) (sep : Char)

/-- The debugger while its breakpoints are made again, and the ids by breakpoint. -/
abbrev Rebuilt := Debugger.State × List (ℕ × List ℕ)

def resolveTurn (acc : Rebuilt) (r : ClientBreakpoint) : ClientBreakpoint × Rebuilt :=
  match r.resolve P sep acc.1 with
  | (some bp, r, d) => (r, d, assign acc.2 bp.id ((acc.2.lookup bp.id).getD [] ++ [r.id]))
  | (none, r, d) => (r, d, acc.2)

def resolveRecords : Rebuilt → List ClientBreakpoint → List ClientBreakpoint × Rebuilt
  | acc, [] => ([], acc)
  | acc, r :: rs =>
    let (r, acc) := resolveTurn P sep acc r
    let (rs, acc) := resolveRecords acc rs
    (r :: rs, acc)

def resolveFiles : Rebuilt → List (String × List ClientBreakpoint) → List (String × List ClientBreakpoint) × Rebuilt
  | acc, [] => ([], acc)
  | acc, (path, rs) :: files =>
    let (rs, acc) := resolveRecords P sep acc rs
    let (files, acc) := resolveFiles acc files
    ((path, rs) :: files, acc)

/-- `_breakpoint_records`. -/
def Breakpoints.records (s : Breakpoints) : List ClientBreakpoint :=
  s.functionBreakpoints ++ s.sourceBreakpoints.flatMap Prod.snd

/-- `_source`: a file named the way the client names it. -/
def Breakpoints.source (s : Breakpoints) (path : String) : String := (s.clientPaths.lookup path).getD path

/-- The client has been told of the breakpoint as it is. -/
def ClientBreakpoint.report (source : String → String) (r : ClientBreakpoint) : ClientBreakpoint :=
  { r with reported := some (r.body source) }

/-- Only news is worth an event, and only for one the client knows of. -/
def ClientBreakpoint.news (source : String → String) (r : ClientBreakpoint) : Option BreakpointBody :=
  if r.reported.isSome ∧ r.reported ≠ some (r.body source) then some (r.body source) else none

/-- The first half of `_rebuild_breakpoints`: every breakpoint is resolved from empty. -/
def Breakpoints.resolveAll (s : Breakpoints) : Breakpoints :=
  match s.debugger with
  | none => s
  | some (P, d) =>
    let functions := resolveRecords P sep (d.clearBreakpoints, []) s.functionBreakpoints
    let files := resolveFiles P sep functions.2 s.sourceBreakpoints
    { s with
      debugger := some (P, files.2.1)
      hitIds := files.2.2
      functionBreakpoints := functions.1
      sourceBreakpoints := files.1 }

/-- The second half: what the client has to be told. -/
def Breakpoints.reportAll (s : Breakpoints) : Breakpoints × List BreakpointBody :=
  ({ s with
      functionBreakpoints := s.functionBreakpoints.map fun r => r.report s.source
      sourceBreakpoints := s.sourceBreakpoints.map fun e => (e.1, e.2.map fun r => r.report s.source) },
    s.records.filterMap fun r => r.news s.source)

def Breakpoints.rebuild (s : Breakpoints) : Breakpoints × List BreakpointBody := (s.resolveAll sep).reportAll

end Rebuilding

section Requests

/-- The requests that change breakpoints. A launch is one that compiled. -/
inductive BreakpointRequest
  | setBreakpoints (clientPath : String) (lines : List ℕ)
  | setFunctionBreakpoints (names : List String)
  | launch (programPath : String) (P : CompiledProgram)

/-- The events sent, and the breakpoints of the response, if it has any. -/
structure Answer where
  events : List BreakpointBody := []
  breakpoints : List BreakpointBody := []

/-- `resolved` is `resolved_path`. -/
def Breakpoints.rememberPath (resolved : String → String) (s : Breakpoints) (clientPath : String) : Breakpoints :=
  { s with clientPaths := assign s.clientPaths (resolved clientPath) clientPath }

variable (resolved : String → String) (sep : Char)

def Breakpoints.onSetBreakpoints (s : Breakpoints) (clientPath : String) (lines : List ℕ) : Breakpoints × Answer :=
  if clientPath = "" then (s, {})
  else
    let s := s.rememberPath resolved clientPath
    let path := resolved clientPath
    let records := lines.mapIdx fun i line =>
      { id := s.nextBreakpointId + i, clientPath := clientPath, path := path, line := line : ClientBreakpoint }
    let s := { s with
      nextBreakpointId := s.nextBreakpointId + lines.length
      sourceBreakpoints := assign s.sourceBreakpoints path records }
    let (s, events) := s.rebuild sep
    (s, { events := events, breakpoints := ((s.sourceBreakpoints.lookup path).getD []).map fun r => r.body s.source })

def Breakpoints.onSetFunctionBreakpoints (s : Breakpoints) (names : List String) : Breakpoints × Answer :=
  let records := names.mapIdx fun i name => { id := s.nextBreakpointId + i, function := some name : ClientBreakpoint }
  let s := { s with nextBreakpointId := s.nextBreakpointId + names.length, functionBreakpoints := records }
  let (s, events) := s.rebuild sep
  (s, { events := events, breakpoints := s.functionBreakpoints.map fun r => r.body s.source })

def Breakpoints.onLaunch (s : Breakpoints) (programPath : String) (P : CompiledProgram) : Breakpoints × Answer :=
  let s := s.rememberPath resolved programPath
  let (s, events) := { s with debugger := some (P, {}) : Breakpoints }.rebuild sep
  (s, { events := events })

def BreakpointRequest.handle (s : Breakpoints) : BreakpointRequest → Breakpoints × Answer
  | setBreakpoints clientPath lines => s.onSetBreakpoints resolved sep clientPath lines
  | setFunctionBreakpoints names => s.onSetFunctionBreakpoints sep names
  | launch programPath P => s.onLaunch resolved sep programPath P

/-- What happens to the breakpoints of a session: requests, and, of the program being
debugged, the hook before an instruction and going on after a stop. -/
inductive BreakpointStep (W : Type)
  | request (r : BreakpointRequest)
  | hook (pause : Bool) (vm : VM W)
  | resume (mode : Debugger.Mode) (vm : VM W)

variable {W : Type}

/-- The hook before an instruction, and its stop if it makes one. -/
def Breakpoints.hook (s : Breakpoints) (pause : Bool) (vm : VM W) : Breakpoints × Option Debugger.Stop :=
  match s.debugger with
  | none => (s, none)
  | some (P, d) =>
    match d.stopAt P pause vm with
    | (none, d) => ({ s with debugger := some (P, d) }, none)
    | (some stop, d) => ({ s with debugger := some (P, { d with mode := none }) }, some stop)

def Breakpoints.resume (s : Breakpoints) (mode : Debugger.Mode) (vm : VM W) : Breakpoints :=
  { s with debugger := s.debugger.map fun e => (e.1, e.2.resume e.1 mode vm 0) }

def BreakpointStep.run (s : Breakpoints) : BreakpointStep W → Breakpoints × Answer
  | .request r => r.handle resolved sep s
  | .hook pause vm => ((s.hook pause vm).1, {})
  | .resume mode vm => (s.resume mode vm, {})

/-- A session in the order things happen, and the answers. -/
def runSteps : Breakpoints → List (BreakpointStep W) → Breakpoints × List Answer
  | s, [] => (s, [])
  | s, step :: steps =>
    let (s, answer) := step.run resolved sep s
    let (s, answers) := runSteps s steps
    (s, answer :: answers)

/-- `_stopped_body`: the client's ids for the breakpoint of a stop. -/
def Breakpoints.hitBreakpointIds (s : Breakpoints) (stop : Debugger.Stop) : Option (List ℕ) :=
  stop.breakpoint.map fun bp => (s.hitIds.lookup bp.id).getD []

end Requests

end QuinLang.Dap
