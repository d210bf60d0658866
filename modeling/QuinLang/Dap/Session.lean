import QuinLang.Debugger.Control

/-! One client connection: the request loop, the program's thread, and what they share.
Each thread is the list of what it does next, one entry for each block under the
session's condition, each message sent and each step that touches only its own fields;
a step of the session is one entry of either list. -/

namespace QuinLang.Dap

open Debugger (Mode StopReason)

/-- The exit code of a fault. -/
def EXIT_RUNTIME_ERROR : ℤ := 3

/-- `process_exit_code`: the 8 bits an exit status carries. -/
def processExitCode (value : ℤ) : ℤ := value % 256

inductive Command
  | initialize_
  | launch
  | configurationDone
  | stackTrace
  | scopes
  | variables_
  | evaluate
  | setBreakpoints
  | setFunctionBreakpoints
  | threads
  | continue_
  | next
  | stepIn
  | stepOut
  | pause
  | disconnect
  | terminate
  | unsupported
  deriving DecidableEq

/-- A message to the client, as far as the session's own course decides it. -/
inductive Outgoing
  | response (seq : ℕ) (command : Command) (success : Bool) (message : String)
  | initialized
  | output (category text : String)
  | stopped (reason : StopReason)
  | exited (code : ℤ)
  | terminated
  deriving DecidableEq

/-- The handoff between the two threads while the program is stopped. -/
structure Suspension where
  reason : StopReason
  resumeMode : Option Mode := none
  deriving DecidableEq

/-- What the request loop does next. -/
inductive Op
  | send (m : Outgoing)
  /-- the fields a launch that compiled fills in -/
  | load (stopOnEntry : Bool)
  | configured
  | startIfReady
  | refuseResume (seq : ℕ) (command : Command) (mode : Mode)
  | release (mode : Mode)
  /-- the guard of a request that reads the VM; `found` says whether what it asks about is there -/
  | requireSuspended (seq : ℕ) (command : Command) (found : Bool)
  | inspect
  | pauseIfAlive (seq : ℕ)
  | pause
  | killIfAlive
  | setDisconnecting
  | join
  | endIfStarted
  | end_ (code : Option ℤ)
  | leave
  | waitForProgram
  deriving DecidableEq

/-- What the program's thread does next while it is not running the program. -/
inductive VmOp
  | send (m : Outgoing)
  | setFaulted
  /-- the block that announces a stop, up to the wait -/
  | park (reason : StopReason)
  /-- the same block from a wake-up on -/
  | wait
  | resume (mode : Mode)
  | quit
  | end_ (code : Option ℤ)
  deriving DecidableEq

inductive VmThread
  | absent
  | running
  | busy (todo : List VmOp)
  | dead
  deriving DecidableEq

def VmThread.isAlive : VmThread → Bool
  | absent | dead => false
  | running | busy _ => true

/-- What has happened, for the record: messages sent, and what became of the program. -/
inductive Event
  | sent (m : Outgoing)
  | launched
  | configured
  | started
  | resumed (mode : Mode)
  | abandoned
  | returned (code : ℤ)
  deriving DecidableEq

structure Session where
  /-- a compiled program, set by launch -/
  program : Bool := false
  configurationDone : Bool := false
  started : Bool := false
  stopOnEntry : Bool := false
  suspension : Option Suspension := none
  disconnecting : Bool := false
  ended : Bool := false
  faulted : Bool := false
  running : Bool := true
  /-- the loop of `serve` is over -/
  closed : Bool := false
  todo : List Op := []
  vm : VmThread := .absent
  trace : List Event := []
  deriving DecidableEq

/-- What `launch` finds at the path it is given. -/
inductive Launched
  | failed (error : String)
  | compiled (warnings : List String) (stopOnEntry : Bool)
  deriving DecidableEq

inductive Request
  | initialize_
  /-- none without a program path -/
  | launch (target : Option Launched)
  | configurationDone
  | stackTrace
  | scopes (found : Bool)
  | variables_ (found : Bool)
  | evaluate (found : Bool)
  | setBreakpoints (hasPath : Bool)
  | setFunctionBreakpoints
  | threads
  | continue_
  | next
  | stepIn
  | stepOut
  | pause
  | disconnect
  | terminate
  | unsupported
  deriving DecidableEq

/-! The handlers. Breakpoints, and what an inspection answers, are not part of the state. -/

def reply (seq : ℕ) (command : Command) (success : Bool := true) (message : String := "") : Op :=
  .send (.response seq command success message)

def onInitialize (seq : ℕ) : List Op := [reply seq .initialize_, .send .initialized]

def onLaunch (seq : ℕ) : Option Launched → List Op
  | none => [reply seq .launch false "launch needs a 'program' path"]
  | some (.failed error) => [.send (.output "stderr" (error ++ "\n")), reply seq .launch false error, .end_ none]
  | some (.compiled warnings stopOnEntry) =>
    (warnings.map fun w => .send (.output "stderr" ("Warning: " ++ w ++ "\n")))
      ++ [.load stopOnEntry, reply seq .launch, .startIfReady]

def onConfigurationDone (seq : ℕ) : List Op := [.configured, reply seq .configurationDone, .startIfReady]

def onStackTrace (seq : ℕ) : List Op := [.requireSuspended seq .stackTrace true]
def onScopes (seq : ℕ) (found : Bool) : List Op := [.requireSuspended seq .scopes found]
def onVariables (seq : ℕ) (found : Bool) : List Op := [.requireSuspended seq .variables_ found]
def onEvaluate (seq : ℕ) (found : Bool) : List Op := [.requireSuspended seq .evaluate found]

def onSetBreakpoints (seq : ℕ) (hasPath : Bool) : List Op :=
  if hasPath then [reply seq .setBreakpoints]
  else [reply seq .setBreakpoints false "setBreakpoints needs a source path"]

def onSetFunctionBreakpoints (seq : ℕ) : List Op := [reply seq .setFunctionBreakpoints]

def onThreads (seq : ℕ) : List Op := [reply seq .threads]

def onContinue (seq : ℕ) : List Op := [.refuseResume seq .continue_ .run]
def onNext (seq : ℕ) : List Op := [.refuseResume seq .next .stepOver]
def onStepIn (seq : ℕ) : List Op := [.refuseResume seq .stepIn .stepIn]
def onStepOut (seq : ℕ) : List Op := [.refuseResume seq .stepOut .finish]

def onPause (seq : ℕ) : List Op := [.pauseIfAlive seq]

/-- `_end_session`. -/
def endSession : List Op := [.killIfAlive, .endIfStarted, .leave]

def onDisconnect (seq : ℕ) : List Op := reply seq .disconnect :: endSession
def onTerminate (seq : ℕ) : List Op := reply seq .terminate :: endSession

/-- `_dispatch`. -/
def dispatch (seq : ℕ) : Request → List Op
  | .initialize_ => onInitialize seq
  | .launch target => onLaunch seq target
  | .configurationDone => onConfigurationDone seq
  | .stackTrace => onStackTrace seq
  | .scopes found => onScopes seq found
  | .variables_ found => onVariables seq found
  | .evaluate found => onEvaluate seq found
  | .setBreakpoints hasPath => onSetBreakpoints seq hasPath
  | .setFunctionBreakpoints => onSetFunctionBreakpoints seq
  | .threads => onThreads seq
  | .continue_ => onContinue seq
  | .next => onNext seq
  | .stepIn => onStepIn seq
  | .stepOut => onStepOut seq
  | .pause => onPause seq
  | .disconnect => onDisconnect seq
  | .terminate => onTerminate seq
  | .unsupported => [reply seq .unsupported false "unsupported request"]

namespace Session

def record (s : Session) (e : Event) : Session := { s with trace := s.trace ++ [e] }

def send (s : Session) (m : Outgoing) : Session := s.record (.sent m)

/-- The block of `_end`, and what is sent after it. -/
def claimEnd (s : Session) (code : Option ℤ) : Session × List Outgoing :=
  if s.ended then (s, [])
  else ({ s with ended := true }, (code.map Outgoing.exited).toList ++ [.terminated])

def endCode (s : Session) : Option ℤ := if s.faulted then some EXIT_RUNTIME_ERROR else none

/-- One step of the request loop: what changes, and what it now does first. -/
def perform (s : Session) : Op → Session × List Op
  | .send m => (s.send m, [])
  | .load stopOnEntry => ({ s with program := true, stopOnEntry := stopOnEntry }.record .launched, [])
  | .configured => ({ s with configurationDone := true }.record .configured, [])
  | .startIfReady =>
    if s.started = true ∨ s.program = false ∨ s.configurationDone = false then (s, [])
    else ({ s with started := true, vm := .running }.record .started, [])
  | .refuseResume seq command mode =>
    match s.suspension with
    | none => (s, [reply seq command false "the program is not suspended"])
    | some suspension =>
      if suspension.reason = .fault then
        (s, [reply seq command false "the program has faulted and cannot continue"])
      else (s, [reply seq command, .release mode])
  | .release mode =>
    match s.suspension with
    | none => (s, [])
    | some suspension => ({ s with suspension := some { suspension with resumeMode := some mode } }, [])
  | .requireSuspended seq command found =>
    if s.suspension.isSome then (s, [.inspect, reply seq command found])
    else (s, [reply seq command false "the program is not suspended"])
  | .inspect => (s, [])
  | .pauseIfAlive seq =>
    if s.vm.isAlive then (s, [reply seq .pause, .pause])
    else (s, [reply seq .pause false "no program is running"])
  -- the stop it asks for is one that the program may come to at any time
  | .pause => (s, [])
  | .killIfAlive => if s.vm.isAlive then (s, [.setDisconnecting, .pause, .join]) else (s, [])
  | .setDisconnecting => ({ s with disconnecting := true }, [])
  -- over once the thread is, or once the time is up
  | .join => (s, [])
  | .endIfStarted => if s.started then (s, [.end_ s.endCode]) else (s, [])
  | .end_ code => ((s.claimEnd code).1, (s.claimEnd code).2.map .send)
  | .leave => ({ s with running := false }, [])
  | .waitForProgram =>
    if s.vm = .absent then (s, [])
    else if s.suspension.isSome then (s, [.killIfAlive])
    else (s, [.join, .killIfAlive])

/-- One step of the program's thread, none while it has to wait. -/
def performVm (s : Session) (rest : List VmOp) : VmOp → Option Session
  | .send m => some { s.send m with vm := .busy rest }
  | .setFaulted => some { s with faulted := true, vm := .busy rest }
  | .park reason =>
    if s.disconnecting then some { s with vm := .busy (.quit :: rest) }
    else some { s.send (.stopped reason) with suspension := some ⟨reason, none⟩, vm := .busy (.wait :: rest) }
  | .wait =>
    match s.suspension with
    | none => none
    | some suspension =>
      if s.disconnecting then some { s with suspension := none, vm := .busy (.quit :: rest) }
      else suspension.resumeMode.map fun mode =>
        { s with suspension := none, vm := .busy (.resume mode :: rest) }
  | .resume mode => some { s.record (.resumed mode) with vm := .running }
  | .quit => some { s.record .abandoned with vm := .busy (.end_ s.endCode :: rest) }
  | .end_ code =>
    some { (s.claimEnd code).1 with vm := .busy ((s.claimEnd code).2.map .send ++ rest) }

/-- `_on_stop`, for a stop that is not passed over. -/
def onStop (reason : StopReason) : List VmOp :=
  if reason = .fault then [.setFaulted, .send (.output "stderr" "Runtime error"), .park reason] else [.park reason]

end Session

/-- How `Debugger.run` leaves `_run_program`, other than by `Quit`. -/
inductive Outcome
  | returned (value : ℤ)
  | vmError
  | exception
  deriving DecidableEq

/-- What `_run_program` does about it. -/
def Outcome.ops : Outcome → List VmOp
  | returned value =>
    [.send (.output "console" (s!"Program exited with code {processExitCode value}\n")),
      .end_ (some (processExitCode value))]
  | vmError => [.send (.output "stderr" "Runtime error"), .end_ (some EXIT_RUNTIME_ERROR)]
  | exception => [.send (.output "stderr" "Adapter error"), .end_ none]

/-- What may happen next in a session. -/
inductive Action
  | request (seq : ℕ) (r : Request)
  /-- the stream ends, or is not DAP -/
  | hangUp (desynchronised : Bool)
  /-- `serve` is done after a disconnect -/
  | close
  | loop
  | vm
  | stops (reason : StopReason)
  | finishes (outcome : Outcome)
  deriving DecidableEq

namespace Session

/-- The session after what happens next, none where it cannot happen. -/
def step (s : Session) : Action → Option Session
  | .request seq r =>
    if s.todo = [] ∧ s.running = true ∧ s.closed = false then some { s with todo := dispatch seq r } else none
  | .hangUp desynchronised =>
    if s.todo = [] ∧ s.running = true ∧ s.closed = false then
      some { s with
        closed := true
        todo := (if desynchronised then [.send (.output "stderr" "Protocol error")] else []) ++ [.waitForProgram] }
    else none
  | .close =>
    if s.todo = [] ∧ s.running = false ∧ s.closed = false then
      some { s with closed := true, todo := [.waitForProgram] }
    else none
  | .loop =>
    match s.todo with
    | [] => none
    | op :: rest => some { (s.perform op).1 with todo := (s.perform op).2 ++ rest }
  | .vm =>
    match s.vm with
    | .busy [] => some { s with vm := .dead }
    | .busy (op :: rest) => s.performVm rest op
    | _ => none
  | .stops reason =>
    if s.vm = .running then
      if reason = .entry ∧ s.stopOnEntry = false then some s
      else some { s with vm := .busy (onStop reason) }
    else none
  | .finishes outcome =>
    if s.vm = .running then
      match outcome with
      | .returned value => some { s.record (.returned (processExitCode value)) with vm := .busy outcome.ops }
      | _ => some { s with vm := .busy outcome.ops }
    else none

/-- The sessions that steps with `ok` lead to. -/
inductive Run (ok : Session → Action → Bool) : Session → Prop
  | init : Run ok {}
  | step {s s' : Session} {a : Action} (h : Run ok s) (hok : ok s a = true) (hs : s.step a = some s') : Run ok s'

/-- Every session there can be. -/
abbrev Reachable : Session → Prop := Run fun _ _ => true

/-- The session after a list of actions, none where one of them cannot happen or is not `ok`. -/
def after (ok : Session → Action → Bool) (s : Session) : List Action → Option Session
  | [] => some s
  | a :: as => if ok s a then (s.step a).bind fun s => s.after ok as else none

theorem Run.of_after {ok : Session → Action → Bool} {as : List Action} {s s' : Session} (hr : Run ok s)
    (h : s.after ok as = some s') : Run ok s' := by
  induction as generalizing s with
  | nil =>
    obtain rfl : s = s' := by simpa [after] using h
    exact hr
  | cons a as ih =>
    rw [after] at h
    split at h
    case isFalse => cases h
    case isTrue hok =>
      obtain ⟨s₁, hs, h⟩ := Option.bind_eq_some_iff.mp h
      exact ih (hr.step hok hs) h

end Session

end QuinLang.Dap
