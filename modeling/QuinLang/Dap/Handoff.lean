import QuinLang.Dap.Session

/-! What holds of the two threads in every run: which step either may be at, and that a
program is suspended exactly while its thread waits. -/

namespace QuinLang.Dap

open Debugger (Mode StopReason)

/-- The mode a request asks the program to run on in. -/
def Command.mode? : Command → Option Mode
  | continue_ => some .run
  | next => some .stepOver
  | stepIn => some .stepIn
  | stepOut => some .finish
  | _ => none

/-- What the two threads say to one another about stops. -/
inductive Exchange
  | stopped (reason : StopReason)
  | answered (seq : ℕ) (mode : Mode)
  | resumed (mode : Mode)
  | abandoned
  deriving DecidableEq

def Outgoing.exchange? : Outgoing → Option Exchange
  | stopped reason => some (.stopped reason)
  | response seq command true _ => command.mode?.map (.answered seq)
  | _ => none

def Event.exchange? : Event → Option Exchange
  | sent m => m.exchange?
  | resumed mode => some (.resumed mode)
  | abandoned => some .abandoned
  | launched | configured | started | returned _ => none

def Session.exchanges (s : Session) : List Exchange := s.trace.filterMap Event.exchange?

@[simp]
theorem exchanges_record (s : Session) (e : Event) :
    (s.record e).exchanges = s.exchanges ++ e.exchange?.toList := by
  cases h : e.exchange? <;> simp [Session.record, Session.exchanges, List.filterMap_append, h]

theorem exchanges_send {s : Session} {m : Outgoing} (h : m.exchange? = none) :
    (s.send m).exchanges = s.exchanges := by
  rw [Session.send, exchanges_record, Event.exchange?, h, Option.toList_none, List.append_nil]

/-- Steps of the request loop outside the handling of a resume or an inspection. -/
def Op.isQuiet : Op → Bool
  | send m => m.exchange?.isNone
  | refuseResume _ _ _ | release _ | requireSuspended _ _ _ | inspect => false
  | _ => true

/-- Steps after which the program's thread may be told to give up. -/
def Op.kills : Op → Bool
  | killIfAlive | setDisconnecting | waitForProgram => true
  | _ => false

/-- Where the request loop may be. -/
inductive Doing : List Op → Prop
  | quiet {todo : List Op} (h : ∀ op ∈ todo, op.isQuiet = true) : Doing todo
  | resume {seq : ℕ} {command : Command} {mode : Mode} (h : command.mode? = some mode) :
      Doing [.refuseResume seq command mode]
  | answer {seq : ℕ} {command : Command} {mode : Mode} (h : command.mode? = some mode) :
      Doing [reply seq command, .release mode]
  | release {mode : Mode} : Doing [.release mode]
  | look {seq : ℕ} {command : Command} {found : Bool} (h : command.mode? = none) :
      Doing [.requireSuspended seq command found]
  | inspect {seq : ℕ} {command : Command} {found : Bool} (h : command.mode? = none) :
      Doing [.inspect, reply seq command found]

/-- What is left to do once the program is over. -/
def Ending (todo : List VmOp) : Prop :=
  ∀ op ∈ todo, (∃ code, op = .end_ code) ∨ ∃ m, op = .send m ∧ m.exchange? = none

theorem Ending.ne {todo : List VmOp} (h : Ending todo) {op : VmOp} (hop : op = .wait ∨ op = .quit) : todo ≠ [op] := by
  rintro rfl
  rcases h op List.mem_cons_self with ⟨code, rfl⟩ | ⟨m, rfl, -⟩
  · simp at hop
  · simp at hop

/-- Where the program's thread may be while it is not running the program. -/
inductive VmDoing : List VmOp → Prop
  | stopping {before : List VmOp} {reason : StopReason}
      (h : ∀ op ∈ before, op = .setFaulted ∨ ∃ c t, op = .send (.output c t)) : VmDoing (before ++ [.park reason])
  | wait : VmDoing [.wait]
  | resume {mode : Mode} : VmDoing [.resume mode]
  | quit : VmDoing [.quit]
  | ending {todo : List VmOp} (h : Ending todo) : VmDoing todo

/-- A handler starts with a check of the suspension, or has nothing to do with one. -/
theorem dispatch_cases (seq : ℕ) (r : Request) :
    (∀ op ∈ dispatch seq r, op.isQuiet = true) ∨
      (∃ command mode, command.mode? = some mode ∧ dispatch seq r = [.refuseResume seq command mode]) ∨
      ∃ command found, command.mode? = none ∧ dispatch seq r = [.requireSuspended seq command found] := by
  cases r with
  | continue_ | next | stepIn | stepOut => exact Or.inr (Or.inl ⟨_, _, rfl, rfl⟩)
  | stackTrace | scopes | variables_ | evaluate => exact Or.inr (Or.inr ⟨_, _, rfl, rfl⟩)
  | launch target =>
    refine Or.inl fun op hop => ?_
    rcases target with _ | error | ⟨warnings, stopOnEntry⟩
    · obtain rfl : op = _ := List.mem_singleton.mp hop
      rfl
    · simp only [dispatch, onLaunch, List.mem_cons, List.not_mem_nil, or_false] at hop
      rcases hop with rfl | rfl | rfl <;> rfl
    · simp only [dispatch, onLaunch, List.mem_append, List.mem_map, List.mem_cons, List.not_mem_nil, or_false] at hop
      rcases hop with ⟨w, -, rfl⟩ | rfl | rfl | rfl <;> rfl
  | setBreakpoints hasPath =>
    refine Or.inl fun op hop => ?_
    cases hasPath <;> obtain rfl : op = _ := List.mem_singleton.mp hop <;> rfl
  | _ => exact Or.inl (by simp [dispatch, onInitialize, onConfigurationDone, onSetFunctionBreakpoints, onThreads, onPause,
      onDisconnect, onTerminate, endSession, reply, Op.isQuiet, Outgoing.exchange?, Command.mode?])

theorem dispatch_doing (seq : ℕ) (r : Request) : Doing (dispatch seq r) := by
  rcases dispatch_cases seq r with hq | ⟨command, mode, hm, h⟩ | ⟨command, found, hm, h⟩
  · exact .quiet hq
  · exact h ▸ .resume hm
  · exact h ▸ .look hm

/-- Steps that only follow a check. -/
def Op.follows : Op → Bool
  | release _ | inspect => true
  | _ => false

theorem dispatch_not_follows {seq : ℕ} {r : Request} (op : Op) (hop : op ∈ dispatch seq r) : op.follows = false := by
  rcases dispatch_cases seq r with hq | ⟨command, mode, -, h⟩ | ⟨command, found, -, h⟩
  · have := hq op hop
    cases op with
    | release | inspect => cases this
    | _ => rfl
  · obtain rfl := List.mem_singleton.mp (h ▸ hop)
    rfl
  · obtain rfl := List.mem_singleton.mp (h ▸ hop)
    rfl

/-- A request that can lead to a disconnect also leaves the loop. -/
theorem dispatch_leaves {seq : ℕ} {r : Request} (h : ∃ op ∈ dispatch seq r, op.kills = true) :
    .leave ∈ dispatch seq r := by
  obtain ⟨op, hop, hk⟩ := h
  cases r with
  | disconnect => simp [dispatch, onDisconnect, endSession]
  | terminate => simp [dispatch, onTerminate, endSession]
  | launch target =>
    exfalso
    rcases target with _ | _ | ⟨warnings, stopOnEntry⟩
    · obtain rfl : op = _ := List.mem_singleton.mp hop
      cases hk
    · simp only [dispatch, onLaunch, List.mem_cons, List.not_mem_nil, or_false] at hop
      rcases hop with rfl | rfl | rfl <;> cases hk
    · simp only [dispatch, onLaunch, List.mem_append, List.mem_map, List.mem_cons, List.not_mem_nil, or_false] at hop
      rcases hop with ⟨w, -, rfl⟩ | rfl | rfl | rfl <;> cases hk
  | setBreakpoints hasPath =>
    exfalso
    cases hasPath <;> obtain rfl : op = _ := List.mem_singleton.mp hop <;> cases hk
  | _ =>
    exfalso
    simp only [dispatch, onInitialize, onConfigurationDone, onSetFunctionBreakpoints, onThreads, onPause, onStackTrace,
      onScopes, onVariables, onEvaluate, onContinue, onNext, onStepIn, onStepOut,
      List.mem_cons, List.not_mem_nil, or_false] at hop
    rcases hop with rfl | rfl | rfl <;> cases hk

namespace Session

/-- What either thread's step leaves for the other. -/
structure Inv (s : Session) : Prop where
  doing : Doing s.todo
  /-- a request is handled only by a loop that goes on -/
  attending : (∃ op ∈ s.todo, op.isQuiet = false) → s.running = true ∧ s.closed = false
  leaving : (s.disconnecting = true ∨ ∃ op ∈ s.todo, op.kills = true) →
    s.closed = true ∨ s.running = false ∨ .leave ∈ s.todo
  absent : s.started = false → s.vm = .absent
  thread : ∀ todo, s.vm = .busy todo → VmDoing todo
  suspended : s.suspension.isSome = true ↔ s.vm = .busy [.wait]
  quitting : s.vm = .busy [.quit] → s.disconnecting = true

/-- The program is stopped, nothing has told it to run on, and nothing is about to. -/
def Parked (s : Session) : Prop := ∃ reason, s.suspension = some ⟨reason, none⟩ ∧ s.disconnecting = false

theorem Inv.init : Inv {} where
  doing := .quiet (by simp)
  attending := by simp
  leaving := by simp
  absent _ := rfl
  thread := by simp
  suspended := by simp
  quitting := by simp

/-- What a quiet step of the request loop may change. -/
structure QuietStep (s : Session) (op : Op) (s' : Session) (more : List Op) : Prop where
  quiet : ∀ op' ∈ more, op'.isQuiet = true
  kills : (∃ op' ∈ more, op'.kills = true) → op.kills = true
  suspension : s'.suspension = s.suspension
  closed : s'.closed = s.closed
  exchanges : s'.exchanges = s.exchanges
  disconnecting : s'.disconnecting = true → s.disconnecting = true ∨ op.kills = true
  keeps : s.disconnecting = true → s'.disconnecting = true
  running : s'.running = false ∨ s'.running = s.running ∧ op ≠ .leave
  vm : (s'.vm = s.vm ∧ s'.started = s.started) ∨ (s.started = false ∧ s'.vm = .running ∧ s'.started = true)

theorem claimEnd_frame (s : Session) (code : Option ℤ) :
    (s.claimEnd code).1 = { s with ended := true } ∧ ∀ m ∈ (s.claimEnd code).2, m.exchange? = none := by
  rw [claimEnd]
  split
  case isTrue h =>
    refine ⟨?_, by simp⟩
    rw [← h]
  case isFalse =>
    refine ⟨rfl, fun m hm => ?_⟩
    rcases List.mem_append.mp hm with hm | hm
    · obtain ⟨c, -, rfl⟩ := Option.map_eq_some_iff.mp (Option.mem_toList.mp hm)
      rfl
    · obtain rfl := List.mem_singleton.mp hm
      rfl

theorem claimEnd_ending (s : Session) (code : Option ℤ) {rest : List VmOp} (hrest : Ending rest) :
    Ending ((s.claimEnd code).2.map .send ++ rest) := by
  intro op hop
  rcases List.mem_append.mp hop with hop | hop
  · obtain ⟨m, hm, rfl⟩ := List.mem_map.mp hop
    exact Or.inr ⟨m, rfl, (s.claimEnd_frame code).2 m hm⟩
  · exact hrest op hop

theorem perform_quiet (s : Session) {op : Op} (h : op.isQuiet = true) :
    QuietStep s op (s.perform op).1 (s.perform op).2 := by
  have hsame (op : Op) (hop : op ≠ .leave) (more : List Op) (hq : ∀ op' ∈ more, op'.isQuiet = true)
      (hk : (∃ op' ∈ more, op'.kills = true) → op.kills = true) : QuietStep s op s more :=
    ⟨hq, hk, rfl, rfl, rfl, Or.inl, id, Or.inr ⟨rfl, hop⟩, Or.inl ⟨rfl, rfl⟩⟩
  cases op with
  | refuseResume | release | requireSuspended | inspect => cases h
  | send m =>
    have hm : m.exchange? = none := by simpa [Op.isQuiet] using h
    exact ⟨by simp [perform], by simp [perform], rfl, rfl, exchanges_send hm, Or.inl, id, Or.inr ⟨rfl, by simp⟩, Or.inl ⟨rfl, rfl⟩⟩
  | load | configured =>
    refine ⟨by simp [perform], by simp [perform], rfl, rfl, ?_, Or.inl, id, Or.inr ⟨rfl, by simp⟩, Or.inl ⟨rfl, rfl⟩⟩
    rw [perform, exchanges_record]
    exact List.append_nil _
  | startIfReady =>
    rw [perform]
    split
    · exact hsame _ (by simp) _ (by simp) (by simp)
    case isFalse hst =>
      simp only [not_or, Bool.not_eq_true] at hst
      refine ⟨by simp, by simp, rfl, rfl, ?_, Or.inl, id, Or.inr ⟨rfl, by simp⟩, Or.inr ⟨hst.1, rfl, rfl⟩⟩
      rw [exchanges_record]
      exact List.append_nil _
  | pauseIfAlive seq =>
    rw [perform]
    split
    · exact hsame _ (by simp) _ (by simp [reply, Op.isQuiet, Outgoing.exchange?, Command.mode?]) (by simp [reply, Op.kills])
    · exact hsame _ (by simp) _ (by simp [reply, Op.isQuiet, Outgoing.exchange?]) (by simp [reply, Op.kills])
  | pause | join => exact hsame _ (by simp) _ (by simp [perform]) (by simp [perform])
  | killIfAlive =>
    rw [perform]
    split
    · exact hsame _ (by simp) _ (by simp [Op.isQuiet]) fun _ => rfl
    · exact hsame _ (by simp) _ (by simp) fun _ => rfl
  | setDisconnecting =>
    exact ⟨by simp [perform], by simp [perform], rfl, rfl, rfl, fun _ => Or.inr rfl, fun _ => rfl, Or.inr ⟨rfl, by simp⟩,
      Or.inl ⟨rfl, rfl⟩⟩
  | endIfStarted =>
    rw [perform]
    split
    · exact hsame _ (by simp) _ (by simp [Op.isQuiet]) (by simp [Op.kills])
    · exact hsame _ (by simp) _ (by simp) (by simp)
  | end_ code =>
    obtain ⟨hs, hms⟩ := s.claimEnd_frame code
    rw [perform, hs]
    refine ⟨fun op' hop => ?_, fun ⟨op', hop, hk⟩ => ?_, rfl, rfl, rfl, Or.inl, id, Or.inr ⟨rfl, by simp⟩, Or.inl ⟨rfl, rfl⟩⟩
    · obtain ⟨m, hm, rfl⟩ := List.mem_map.mp hop
      simp [Op.isQuiet, hms m hm]
    · obtain ⟨m, -, rfl⟩ := List.mem_map.mp hop
      cases hk
  | leave =>
    exact ⟨by simp [perform], by simp [perform], rfl, rfl, rfl, Or.inl, id, Or.inl rfl, Or.inl ⟨rfl, rfl⟩⟩
  | waitForProgram =>
    rw [perform]
    split
    · exact hsame _ (by simp) _ (by simp) fun _ => rfl
    · split
      · exact hsame _ (by simp) _ (by simp [Op.isQuiet]) fun _ => rfl
      · exact hsame _ (by simp) _ (by simp [Op.isQuiet]) fun _ => rfl

theorem quiet_todo {s : Session} {op : Op} {rest : List Op} (hquiet : ∀ op' ∈ op :: rest, op'.isQuiet = true) :
    ∀ op' ∈ (s.perform op).2 ++ rest, op'.isQuiet = true := by
  intro op' hop
  rcases List.mem_append.mp hop with hop | hop
  · exact (s.perform_quiet (hquiet op List.mem_cons_self)).quiet op' hop
  · exact hquiet op' (List.mem_cons_of_mem _ hop)

/-- A quiet step leads to a state like the one before it. -/
theorem Inv.quiet {s : Session} {op : Op} {rest : List Op} (h : s.Inv) (htodo : s.todo = op :: rest)
    (hquiet : ∀ op' ∈ op :: rest, op'.isQuiet = true) :
    Inv { (s.perform op).1 with todo := (s.perform op).2 ++ rest } := by
  have hq := s.perform_quiet (hquiet op List.mem_cons_self)
  have hall := quiet_todo (s := s) hquiet
  constructor
  case doing => exact .quiet hall
  case attending =>
    rintro ⟨op', hop, hnot⟩
    rw [hall op' hop] at hnot
    cases hnot
  case leaving =>
    intro hd
    have hbefore : s.disconnecting = true ∨ ∃ op ∈ s.todo, op.kills = true := by
      rw [htodo]
      rcases hd with hd | ⟨op', hop, hk⟩
      · exact (hq.disconnecting hd).imp id fun hk => ⟨op, List.mem_cons_self, hk⟩
      · rcases List.mem_append.mp hop with hop | hop
        · exact Or.inr ⟨op, List.mem_cons_self, hq.kills ⟨op', hop, hk⟩⟩
        · exact Or.inr ⟨op', List.mem_cons_of_mem _ hop, hk⟩
    rcases h.leaving hbefore with hc | hr | hl
    · exact Or.inl (hq.closed.trans hc)
    · exact Or.inr (Or.inl (hq.running.elim id fun hsame => hsame.1.trans hr))
    · rcases hq.running with hr | ⟨-, hne⟩
      · exact Or.inr (Or.inl hr)
      · rw [htodo] at hl
        rcases List.mem_cons.mp hl with rfl | hl
        · exact absurd rfl hne
        · exact Or.inr (Or.inr (List.mem_append_right _ hl))
  case absent =>
    intro hs
    rcases hq.vm with ⟨hvm, hst⟩ | ⟨-, -, hst⟩
    · exact hvm.trans (h.absent (hst ▸ hs))
    · simp [hst] at hs
  case thread =>
    intro todo hb
    rcases hq.vm with ⟨hvm, -⟩ | ⟨-, hvm, -⟩
    · exact h.thread todo (hvm ▸ hb)
    · simp [hvm] at hb
  case suspended =>
    rw [hq.suspension, h.suspended]
    rcases hq.vm with ⟨hvm, -⟩ | ⟨hst, hvm, -⟩
    · rw [hvm]
    · simp [hvm, h.absent hst]
  case quitting =>
    intro hb
    rcases hq.vm with ⟨hvm, -⟩ | ⟨-, hvm, -⟩
    · exact hq.keeps (h.quitting (hvm ▸ hb))
    · simp [hvm] at hb

/-- The states a step of the request loop that handles a resume or an inspection leads to. -/
theorem Inv.handled {s s' : Session} (h : s.Inv) (hdoing : Doing s'.todo)
    (hopen : s.running = true ∧ s.closed = false) (hrun : s'.running = s.running) (hclosed : s'.closed = s.closed)
    (hdisc : s'.disconnecting = s.disconnecting) (hnot : s.disconnecting = false)
    (hkills : ¬∃ op ∈ s'.todo, op.kills = true) (hstarted : s'.started = s.started) (hvm : s'.vm = s.vm)
    (hsusp : s'.suspension.isSome = s.suspension.isSome) : Inv s' where
  doing := hdoing
  attending _ := ⟨hrun.trans hopen.1, hclosed.trans hopen.2⟩
  leaving hd := by
    rcases hd with hd | hd
    · simp [hdisc, hnot] at hd
    · exact absurd hd hkills
  absent hs := hvm.trans (h.absent (hstarted ▸ hs))
  thread todo hb := h.thread todo (hvm ▸ hb)
  suspended := by rw [hsusp, hvm, h.suspended]
  quitting hb := hdisc.trans (h.quitting (hvm ▸ hb))

/-- A resume request is refused, or answered on a suspension and then carried out. -/
theorem perform_refuseResume (s : Session) (seq : ℕ) (command : Command) (mode : Mode) :
    (s.perform (.refuseResume seq command mode)).1 = s ∧
      ((∃ message, (s.perform (.refuseResume seq command mode)).2 = [reply seq command false message]) ∨
        ((∃ suspension, s.suspension = some suspension) ∧
          (s.perform (.refuseResume seq command mode)).2 = [reply seq command, .release mode])) := by
  rw [perform]
  cases hsusp : s.suspension with
  | none => exact ⟨rfl, Or.inl ⟨_, rfl⟩⟩
  | some suspension =>
    by_cases hf : suspension.reason = .fault
    · dsimp only
      rw [if_pos hf]
      exact ⟨rfl, Or.inl ⟨_, rfl⟩⟩
    · dsimp only
      rw [if_neg hf]
      exact ⟨rfl, Or.inr ⟨⟨suspension, rfl⟩, rfl⟩⟩

theorem Inv.connected {s : Session} (h : s.Inv) (hnot : ∃ op ∈ s.todo, op.isQuiet = false) (hleave : .leave ∉ s.todo) :
    s.disconnecting = false := by
  obtain ⟨hr, hc⟩ := h.attending hnot
  by_contra hd
  rcases h.leaving (Or.inl (Bool.not_eq_false _ ▸ hd)) with h | h | h
  · simp [hc] at h
  · simp [hr] at h
  · exact hleave h

theorem Inv.loop {s s' : Session} (h : s.Inv) (hs : s.step .loop = some s') : s'.Inv := by
  rw [step] at hs
  cases htodo : s.todo with
  | nil => simp [htodo] at hs
  | cons op rest =>
    simp only [htodo, Option.some.injEq] at hs
    subst hs
    have hdoing := h.doing
    rw [htodo] at hdoing
    generalize hop : op :: rest = todo at hdoing
    cases hdoing with
    | quiet hq =>
      subst hop
      exact h.quiet htodo hq
    | resume hm =>
      obtain ⟨rfl, rfl⟩ := List.cons_eq_cons.mp hop
      have hnot : ∃ op ∈ s.todo, op.isQuiet = false := ⟨_, by rw [htodo]; exact List.mem_cons_self, rfl⟩
      have hd := h.connected hnot (by rw [htodo]; simp)
      obtain ⟨hfst, ⟨message, hsnd⟩ | ⟨-, hsnd⟩⟩ := s.perform_refuseResume _ _ _
      · rw [hfst, hsnd]
        refine h.handled (.quiet ?_) (h.attending hnot) rfl rfl rfl hd ?_ rfl rfl rfl
        · simp [reply, Op.isQuiet, Outgoing.exchange?]
        · simp [reply, Op.kills]
      · rw [hfst, hsnd]
        exact h.handled (.answer hm) (h.attending hnot) rfl rfl rfl hd (by simp [reply, Op.kills]) rfl rfl rfl
    | answer hm =>
      obtain ⟨rfl, rfl⟩ := List.cons_eq_cons.mp hop
      have hnot : ∃ op ∈ s.todo, op.isQuiet = false := ⟨_, by rw [htodo]; exact List.mem_cons_of_mem _ List.mem_cons_self, rfl⟩
      exact h.handled .release (h.attending hnot) rfl rfl rfl (h.connected hnot (by rw [htodo]; simp [reply]))
        (by simp [perform, reply, Op.kills]) rfl rfl rfl
    | release =>
      obtain ⟨rfl, rfl⟩ := List.cons_eq_cons.mp hop
      have hnot : ∃ op ∈ s.todo, op.isQuiet = false := ⟨_, by rw [htodo]; exact List.mem_cons_self, rfl⟩
      have hd := h.connected hnot (by rw [htodo]; simp)
      cases hsusp : s.suspension with
      | none =>
        simp only [perform, hsusp]
        exact h.handled (.quiet (by simp)) (h.attending hnot) rfl rfl rfl hd (by simp) rfl rfl (by simp [hsusp])
      | some suspension =>
        simp only [perform, hsusp]
        exact h.handled (.quiet (by simp)) (h.attending hnot) rfl rfl rfl hd (by simp) rfl rfl (by simp [hsusp])
    | look hm =>
      obtain ⟨rfl, rfl⟩ := List.cons_eq_cons.mp hop
      have hnot : ∃ op ∈ s.todo, op.isQuiet = false := ⟨_, by rw [htodo]; exact List.mem_cons_self, rfl⟩
      have hd := h.connected hnot (by rw [htodo]; simp)
      simp only [perform]
      split
      · exact h.handled (.inspect hm) (h.attending hnot) rfl rfl rfl hd (by simp [reply, Op.kills]) rfl rfl rfl
      · refine h.handled (.quiet ?_) (h.attending hnot) rfl rfl rfl hd ?_ rfl rfl rfl
        · simp [reply, Op.isQuiet, Outgoing.exchange?]
        · simp [reply, Op.kills]
    | @inspect seq command found hm =>
      obtain ⟨rfl, rfl⟩ := List.cons_eq_cons.mp hop
      have hnot : ∃ op ∈ s.todo, op.isQuiet = false := ⟨.inspect, by rw [htodo]; simp, rfl⟩
      refine h.handled (.quiet ?_) (h.attending hnot) rfl rfl rfl (h.connected hnot (by rw [htodo]; simp [reply]))
        (by simp [perform, reply, Op.kills]) rfl rfl rfl
      intro op' hop'
      obtain rfl := List.mem_singleton.mp hop'
      cases found <;> simp [reply, Op.isQuiet, Outgoing.exchange?, hm]

/-- A step of the program's thread that leaves the request loop's own fields alone. -/
theorem Inv.vmStep {s s' : Session} (h : s.Inv) (htodo : s'.todo = s.todo) (hrun : s'.running = s.running)
    (hclosed : s'.closed = s.closed) (hdisc : s'.disconnecting = s.disconnecting) (hstarted : s'.started = s.started)
    (halive : s.vm ≠ .absent) (hthread : ∀ todo, s'.vm = .busy todo → VmDoing todo)
    (hsusp : s'.suspension.isSome = true ↔ s'.vm = .busy [.wait])
    (hquit : s'.vm = .busy [.quit] → s.disconnecting = true) : Inv s' where
  doing := htodo ▸ h.doing
  attending := by rw [htodo, hrun, hclosed]; exact h.attending
  leaving := by rw [htodo, hrun, hclosed, hdisc]; exact h.leaving
  absent hs := absurd (h.absent (hstarted ▸ hs)) halive
  thread := hthread
  suspended := hsusp
  quitting hb := hdisc.trans (hquit hb)

theorem Inv.not_suspended {s : Session} (h : s.Inv) (hvm : s.vm ≠ .busy [.wait]) : s.suspension = none := by
  rw [← Option.not_isSome_iff_eq_none, h.suspended]
  exact hvm

theorem Inv.vm {s s' : Session} (h : s.Inv) (hs : s.step .vm = some s') : s'.Inv := by
  cases hvm : s.vm with
  | absent | running | dead => simp [step, hvm] at hs
  | busy todo =>
    have halive : s.vm ≠ .absent := by simp [hvm]
    have hdoing := h.thread todo hvm
    cases hdoing with
    | @stopping before reason hbefore =>
      have hnone : s.suspension = none := by
        apply h.not_suspended
        rw [hvm]
        rintro heq
        have := congrArg List.getLast? (VmThread.busy.inj heq)
        simp at this
      cases before with
      | nil =>
        simp only [step, hvm, List.nil_append, performVm] at hs
        cases hd : s.disconnecting with
        | true =>
          simp only [hd, if_true, Option.some.injEq] at hs
          subst hs
          refine h.vmStep rfl rfl rfl hd.symm rfl halive ?_ (by simp [hnone]) fun _ => hd
          rintro todo ⟨rfl⟩
          exact .quit
        | false =>
          simp only [hd, Bool.false_eq_true, if_false, Option.some.injEq] at hs
          subst hs
          refine h.vmStep rfl rfl rfl rfl rfl halive ?_ (by simp) (by simp)
          rintro todo ⟨rfl⟩
          exact .wait
      | cons op before =>
        have hrest : VmDoing (before ++ [.park reason]) := .stopping fun op hop => hbefore op (List.mem_cons_of_mem _ hop)
        have hne : before ++ [VmOp.park reason] ≠ [.wait] ∧ before ++ [VmOp.park reason] ≠ [.quit] := by
          constructor <;> intro heq <;> simpa using congrArg List.getLast? heq
        rcases hbefore op List.mem_cons_self with rfl | ⟨c, t, rfl⟩
        all_goals
          simp only [step, hvm, List.cons_append, performVm, Option.some.injEq] at hs
          subst hs
          refine h.vmStep rfl rfl rfl rfl rfl halive ?_ (by simp [hnone, send, record, hne.1]) (by simp [hne.2])
          rintro todo ⟨rfl⟩
          exact hrest
    | wait =>
      simp only [step, hvm, performVm] at hs
      cases hsusp : s.suspension with
      | none => simp [hsusp] at hs
      | some suspension =>
        cases hd : s.disconnecting with
        | true =>
          simp only [hsusp, hd, if_true, Option.some.injEq] at hs
          subst hs
          refine h.vmStep rfl rfl rfl hd.symm rfl halive ?_ (by simp) fun _ => hd
          rintro todo ⟨rfl⟩
          exact .quit
        | false =>
          simp only [hsusp, hd, Bool.false_eq_true, if_false, Option.map_eq_some_iff] at hs
          obtain ⟨mode, -, rfl⟩ := hs
          refine h.vmStep rfl rfl rfl hd.symm rfl halive ?_ (by simp) (by simp)
          rintro todo ⟨rfl⟩
          exact .resume
    | resume =>
      have hnone := h.not_suspended (by simp [hvm])
      simp only [step, hvm, performVm, Option.some.injEq] at hs
      subst hs
      exact h.vmStep rfl rfl rfl rfl rfl halive (by simp) (by simp [record, hnone]) (by simp)
    | quit =>
      have hnone := h.not_suspended (by simp [hvm])
      simp only [step, hvm, performVm, Option.some.injEq] at hs
      subst hs
      refine h.vmStep rfl rfl rfl rfl rfl halive ?_ (by simp [record, hnone]) (by simp)
      rintro todo ⟨rfl⟩
      exact .ending fun op hop => Or.inl ⟨_, List.mem_singleton.mp hop⟩
    | ending hend =>
      have hnone := h.not_suspended (by rw [hvm]; exact fun heq => hend.ne (Or.inl rfl) (VmThread.busy.inj heq))
      cases todo with
      | nil =>
        simp only [step, hvm, Option.some.injEq] at hs
        subst hs
        exact h.vmStep rfl rfl rfl rfl rfl halive (by simp) (by simp [hnone]) (by simp)
      | cons op rest =>
        have hrest : Ending rest := fun op hop => hend op (List.mem_cons_of_mem _ hop)
        rcases hend op List.mem_cons_self with ⟨code, rfl⟩ | ⟨m, rfl, hm⟩
        · have hclaim := (s.claimEnd_frame code).1
          have hrest' := s.claimEnd_ending code hrest
          simp only [step, hvm, performVm, hclaim, Option.some.injEq] at hs
          subst hs
          refine h.vmStep rfl rfl rfl rfl rfl halive ?_ ?_ ?_
          · rintro todo ⟨rfl⟩
            exact .ending hrest'
          · simp [hnone, hrest'.ne (Or.inl rfl)]
          · simp [hrest'.ne (Or.inr rfl)]
        · simp only [step, hvm, performVm, Option.some.injEq] at hs
          subst hs
          refine h.vmStep rfl rfl rfl rfl rfl halive ?_ ?_ ?_
          · rintro todo ⟨rfl⟩
            exact .ending hrest
          · simp [hnone, send, record, hrest.ne (Or.inl rfl)]
          · simp [hrest.ne (Or.inr rfl)]

theorem outcome_ending (outcome : Outcome) : Ending outcome.ops := by
  intro op hop
  cases outcome <;>
  · simp only [Outcome.ops, List.mem_cons, List.not_mem_nil, or_false] at hop
    rcases hop with rfl | rfl
    · exact Or.inr ⟨_, rfl, rfl⟩
    · exact Or.inl ⟨_, rfl⟩

theorem onStop_doing (reason : StopReason) : VmDoing (onStop reason) ∧ onStop reason ≠ [.wait] ∧ onStop reason ≠ [.quit] := by
  rw [onStop]
  split
  · refine ⟨@VmDoing.stopping [.setFaulted, .send (.output "stderr" "Runtime error")] reason ?_, by simp, by simp⟩
    simp
  · exact ⟨@VmDoing.stopping [] reason (by simp), by simp, by simp⟩

theorem Inv.step {s s' : Session} {a : Action} (h : s.Inv) (hs : s.step a = some s') : s'.Inv := by
  cases a with
  | loop => exact h.loop hs
  | vm => exact h.vm hs
  | request seq r =>
    simp only [Session.step] at hs
    split at hs
    case isFalse => cases hs
    case isTrue hopen =>
      obtain ⟨htodo, hr, hc⟩ := hopen
      simp only [Option.some.injEq] at hs
      subst hs
      refine ⟨dispatch_doing seq r, fun _ => ⟨hr, hc⟩, ?_, h.absent, h.thread, h.suspended, h.quitting⟩
      rintro (hd | hk)
      · simpa [htodo, hr, hc] using h.leaving (Or.inl hd)
      · exact Or.inr (Or.inr (dispatch_leaves hk))
  | hangUp desynchronised =>
    simp only [Session.step] at hs
    split at hs
    case isFalse => cases hs
    case isTrue =>
      simp only [Option.some.injEq] at hs
      subst hs
      have hq : ∀ op ∈ (if desynchronised then [Op.send (.output "stderr" "Protocol error")] else []) ++
          [.waitForProgram], op.isQuiet = true := by
        cases desynchronised <;> simp [Op.isQuiet, Outgoing.exchange?]
      refine ⟨.quiet hq, ?_, fun _ => Or.inl rfl, h.absent, h.thread, h.suspended, h.quitting⟩
      rintro ⟨op, hop, hnot⟩
      simp [hq op hop] at hnot
  | close =>
    simp only [Session.step] at hs
    split at hs
    case isFalse => cases hs
    case isTrue =>
      simp only [Option.some.injEq] at hs
      subst hs
      refine ⟨.quiet ?_, ?_, fun _ => Or.inl rfl, h.absent, h.thread, h.suspended, h.quitting⟩
      · simp [Op.isQuiet]
      · simp [Op.isQuiet]
  | stops reason =>
    simp only [Session.step] at hs
    split at hs
    case isFalse => cases hs
    case isTrue hvm =>
      split at hs
      · simp only [Option.some.injEq] at hs
        exact hs ▸ h
      · simp only [Option.some.injEq] at hs
        subst hs
        obtain ⟨hdoing, hwait, hquit⟩ := onStop_doing reason
        have hnone := h.not_suspended (by simp [hvm])
        refine h.vmStep rfl rfl rfl rfl rfl (by simp [hvm]) ?_ (by simp [hnone, hwait]) (by simp [hquit])
        rintro todo ⟨rfl⟩
        exact hdoing
  | finishes outcome =>
    simp only [Session.step] at hs
    split at hs
    case isFalse => cases hs
    case isTrue hvm =>
      have hnone := h.not_suspended (by simp [hvm])
      have hend := outcome_ending outcome
      cases outcome with
      | returned value | vmError | exception =>
        simp only [Option.some.injEq] at hs
        subst hs
        refine h.vmStep rfl rfl rfl rfl rfl (by simp [hvm]) ?_ ?_ ?_
        · rintro todo ⟨rfl⟩
          exact .ending hend
        · simp [record, hnone, hend.ne (Or.inl rfl)]
        · simp [hend.ne (Or.inr rfl)]

theorem Run.inv {ok : Session → Action → Bool} {s : Session} (h : Run ok s) : s.Inv := by
  induction h with
  | init => exact .init
  | step _ _ hs ih => exact ih.step hs

/-- The program's thread leaves the request loop where it is. -/
theorem step_todo {s s' : Session} {a : Action} (hs : s.step a = some s')
    (ha : a = .vm ∨ (∃ r, a = .stops r) ∨ ∃ o, a = .finishes o) : s'.todo = s.todo := by
  rcases ha with rfl | ⟨reason, rfl⟩ | ⟨outcome, rfl⟩
  · simp only [Session.step] at hs
    split at hs
    · simp only [Option.some.injEq] at hs
      subst hs
      rfl
    case h_2 op rest _ =>
      cases op with
      | wait =>
        simp only [performVm] at hs
        split at hs
        · cases hs
        · split at hs
          · simp only [Option.some.injEq] at hs
            subst hs
            rfl
          · obtain ⟨mode, -, rfl⟩ := Option.map_eq_some_iff.mp hs
            rfl
      | park reason =>
        simp only [performVm] at hs
        split at hs <;>
        · simp only [Option.some.injEq] at hs
          subst hs
          rfl
      | end_ code =>
        simp only [performVm, (s.claimEnd_frame code).1, Option.some.injEq] at hs
        subst hs
        rfl
      | _ =>
        simp only [performVm, Option.some.injEq] at hs
        subst hs
        rfl
    · cases hs
  · simp only [Session.step] at hs
    split at hs
    · split at hs <;>
      · simp only [Option.some.injEq] at hs
        subst hs
        rfl
    · cases hs
  · simp only [Session.step] at hs
    split at hs
    · cases outcome <;>
      · simp only [Option.some.injEq] at hs
        subst hs
        rfl
    · cases hs

/-- Nothing but the request loop moves a parked session. -/
theorem Inv.parked_step {s s' : Session} {a : Action} (h : s.Inv) (hp : s.Parked) (htodo : s.todo ≠ [])
    (hs : s.step a = some s') : a = .loop := by
  obtain ⟨reason, hsusp, hd⟩ := hp
  have hvm : s.vm = .busy [.wait] := h.suspended.mp (by rw [hsusp]; rfl)
  cases a with
  | loop => rfl
  | _ => simp [Session.step, htodo, hvm, performVm, hsusp, hd] at hs

end Session

end QuinLang.Dap
