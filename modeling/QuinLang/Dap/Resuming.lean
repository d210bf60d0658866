import QuinLang.Dap.Handoff

/-! Stops, resume requests and inspections: what they do to one another as long as none of
them finds a suspension that has been released and not yet taken up. -/

namespace QuinLang.Dap

open Debugger (Mode StopReason)

/-- How far the talk about a stop has come. -/
inductive Phase
  | running
  | parked
  | answered (mode : Mode)
  | closed
  deriving DecidableEq

/-- Stop, answer and resume in turn, until one side gives up. -/
inductive Talk : List Exchange → Phase → Prop
  | start : Talk [] .running
  | stopped {xs : List Exchange} {reason : StopReason} (h : Talk xs .running) : Talk (xs ++ [.stopped reason]) .parked
  | answered {xs : List Exchange} {seq : ℕ} {mode : Mode} (h : Talk xs .parked) :
      Talk (xs ++ [.answered seq mode]) (.answered mode)
  | resumed {xs : List Exchange} {mode : Mode} (h : Talk xs (.answered mode)) : Talk (xs ++ [.resumed mode]) .running
  | abandoned {xs : List Exchange} {p : Phase} (h : Talk xs p) (hp : p ≠ .closed) : Talk (xs ++ [.abandoned]) .closed

/-- A stop and the one request that ended it. -/
structure Round where
  reason : StopReason
  seq : ℕ
  mode : Mode

def Round.exchanges (r : Round) : List Exchange := [.stopped r.reason, .answered r.seq r.mode, .resumed r.mode]

/-- What is said of a stop that no request has ended, or of none. -/
def Phase.Said : Phase → List Exchange → Prop
  | running, xs => xs = []
  | parked, xs => ∃ reason, xs = [.stopped reason]
  | answered mode, xs => ∃ reason seq, xs = [.stopped reason, .answered seq mode]
  | closed, xs => ∃ ys, xs = ys ++ [.abandoned] ∧
      (ys = [] ∨ (∃ reason, ys = [.stopped reason]) ∨ ∃ reason seq mode, ys = [.stopped reason, .answered seq mode])

theorem Talk.rounds {xs : List Exchange} {p : Phase} (h : Talk xs p) :
    ∃ (rounds : List Round) (rest : List Exchange), xs = rounds.flatMap Round.exchanges ++ rest ∧ p.Said rest := by
  induction h with
  | start => exact ⟨[], [], rfl, rfl⟩
  | @stopped xs reason _ ih =>
    obtain ⟨rounds, rest, rfl, rfl⟩ := ih
    exact ⟨rounds, [.stopped reason], by rw [List.append_nil], reason, rfl⟩
  | @answered xs seq mode _ ih =>
    obtain ⟨rounds, rest, rfl, reason, rfl⟩ := ih
    exact ⟨rounds, [.stopped reason, .answered seq mode], by rw [List.append_assoc]; rfl, reason, seq, rfl⟩
  | @resumed xs mode _ ih =>
    obtain ⟨rounds, rest, rfl, reason, seq, rfl⟩ := ih
    refine ⟨rounds ++ [⟨reason, seq, mode⟩], [], ?_, rfl⟩
    simp [Round.exchanges]
  | @abandoned xs p _ hp ih =>
    obtain ⟨rounds, rest, rfl, hrest⟩ := ih
    refine ⟨rounds, rest ++ [.abandoned], by rw [List.append_assoc], rest, rfl, ?_⟩
    cases p with
    | running => exact Or.inl hrest
    | parked => exact Or.inr (Or.inl hrest)
    | answered mode =>
      obtain ⟨reason, seq, rfl⟩ := hrest
      exact Or.inr (Or.inr ⟨reason, seq, mode, rfl⟩)
    | closed => exact absurd rfl hp

namespace Session

/-- Whether the loop has answered a resume request that it is about to carry out. -/
def Releasing (s : Session) (mode : Mode) : Prop := s.todo = [.release mode]

/-- How far the talk is, told from where the threads are. -/
def InPhase (s : Session) (p : Phase) : Prop :=
  match s.vm with
  | .absent | .running => p = .running
  | .dead => p = .running ∨ p = .closed
  | .busy todo =>
    match todo.getLast? with
    | some (.park _) => p = .running
    | some .wait =>
      (∃ mode, (s.Releasing mode ∨ ∃ reason, s.suspension = some ⟨reason, some mode⟩) ∧ p = .answered mode) ∨
        ((∀ mode, ¬s.Releasing mode) ∧ (∃ reason, s.suspension = some ⟨reason, none⟩) ∧ p = .parked)
    | some (.resume mode) => p = .answered mode
    | some .quit => p ≠ .closed
    | _ => p = .running ∨ p = .closed

theorem InPhase.congr {s s' : Session} {p : Phase} (h : s.InPhase p) (hvm : s'.vm = s.vm)
    (hsusp : s'.suspension = s.suspension) (hnot : ∀ mode, ¬s.Releasing mode) (hnot' : ∀ mode, ¬s'.Releasing mode) :
    s'.InPhase p := by
  simp only [InPhase, hvm, hsusp, hnot, hnot', false_or] at h ⊢
  exact h

theorem inPhase_ending {s : Session} {p : Phase} {todo : List VmOp} (hvm : s.vm = .busy todo) (hend : Ending todo) :
    s.InPhase p ↔ p = .running ∨ p = .closed := by
  simp only [InPhase, hvm]
  cases hlast : todo.getLast? with
  | none => rfl
  | some op =>
    rcases hend op (List.mem_of_getLast? hlast) with ⟨code, rfl⟩ | ⟨m, rfl, -⟩ <;> rfl

/-- No resume request is checked while the suspension it finds is released already. -/
def promptResumes (s : Session) (a : Action) : Bool :=
  match a, s.todo, s.suspension with
  | .loop, .refuseResume _ _ _ :: _, some suspension => suspension.resumeMode = none
  | _, _, _ => true

structure Told (s : Session) (p : Phase) : Prop where
  talk : Talk s.exchanges p
  phase : s.InPhase p
  closed : p = .closed → s.disconnecting = true
  handling : ∀ mode, .release mode ∈ s.todo → s.Parked

theorem Told.not_releasing {s : Session} {p : Phase} (h : s.Told p) (hp : ¬s.Parked) (mode : Mode) :
    ¬s.Releasing mode :=
  fun hr => hp (h.handling mode (by rw [hr]; exact List.mem_cons_self))

/-- The talk is where it was after a step that says nothing and moves no suspension. -/
theorem Told.same {s s' : Session} {p : Phase} (h : s.Told p) (hx : s'.exchanges = s.exchanges)
    (hp : s'.InPhase p) (hdisc : s.disconnecting = true → s'.disconnecting = true)
    (hhandling : ∀ mode, .release mode ∈ s'.todo → s'.Parked) : s'.Told p where
  talk := hx ▸ h.talk
  phase := hp
  closed hc := hdisc (h.closed hc)
  handling := hhandling

theorem not_mem_quiet {todo : List Op} (h : ∀ op ∈ todo, op.isQuiet = true) (mode : Mode) : .release mode ∉ todo :=
  fun hm => by simpa [Op.isQuiet] using h _ hm

theorem not_releasing_of_not_mem {s : Session} {mode : Mode} (h : .release mode ∉ s.todo) : ¬s.Releasing mode :=
  fun hr => h (by rw [hr]; exact List.mem_cons_self)

theorem Told.loop {s s' : Session} {p : Phase} (hi : s.Inv) (h : s.Told p) (hok : s.promptResumes .loop = true)
    (hs : s.step .loop = some s') : ∃ p, s'.Told p := by
  rw [step] at hs
  cases htodo : s.todo with
  | nil => simp [htodo] at hs
  | cons op rest =>
    simp only [htodo, Option.some.injEq] at hs
    subst hs
    have hdoing := hi.doing
    rw [htodo] at hdoing
    generalize hop : op :: rest = todo at hdoing
    cases hdoing with
    | quiet hq =>
      subst hop
      have hstep := s.perform_quiet (hq op List.mem_cons_self)
      have hnot : ∀ mode, ¬s.Releasing mode := fun mode =>
        not_releasing_of_not_mem (by rw [htodo]; exact not_mem_quiet hq mode)
      have hmem := not_mem_quiet (quiet_todo (s := s) hq)
      refine ⟨p, h.same hstep.exchanges ?_ hstep.keeps fun mode hr => absurd hr (hmem mode)⟩
      rcases hstep.vm with ⟨hvm, -⟩ | ⟨hst, hvm, -⟩
      · exact h.phase.congr hvm hstep.suspension hnot fun mode => not_releasing_of_not_mem (hmem mode)
      · have hphase := h.phase
        simp only [InPhase, hi.absent hst] at hphase
        simp only [InPhase, hvm, hphase]
    | @resume seq command mode hm =>
      obtain ⟨rfl, rfl⟩ := List.cons_eq_cons.mp hop
      have hnot : ∀ mode, ¬s.Releasing mode := fun mode => by simp [Releasing, htodo]
      obtain ⟨hfst, ⟨message, hsnd⟩ | ⟨⟨suspension, hsusp⟩, hsnd⟩⟩ := s.perform_refuseResume seq command mode
      · rw [hfst, hsnd]
        exact ⟨p, h.same rfl (h.phase.congr rfl rfl hnot (by simp [Releasing, reply])) id (by simp [reply])⟩
      · rw [hfst, hsnd]
        have hd := hi.connected ⟨_, by rw [htodo]; exact List.mem_cons_self, rfl⟩ (by simp [htodo])
        refine ⟨p, h.same rfl (h.phase.congr rfl rfl hnot (by simp [Releasing, reply])) id fun _ _ => ?_⟩
        obtain ⟨reason, resumeMode⟩ := suspension
        obtain rfl : resumeMode = none := by simpa [promptResumes, htodo, hsusp] using hok
        exact ⟨reason, hsusp, hd⟩
    | @answer seq command mode hm =>
      obtain ⟨rfl, rfl⟩ := List.cons_eq_cons.mp hop
      obtain ⟨reason, hsusp, hd⟩ := h.handling mode (by rw [htodo]; exact List.mem_cons_of_mem _ List.mem_cons_self)
      have hvm := hi.suspended.mp (by rw [hsusp]; rfl)
      have hphase := h.phase
      simp only [InPhase, hvm, List.getLast?_singleton, Releasing, htodo, hsusp] at hphase
      obtain rfl : p = .parked := by simpa using hphase
      refine ⟨.answered mode, ⟨?_, ?_, by simp, fun _ _ => ⟨reason, hsusp, hd⟩⟩⟩
      · have hx : (s.send (.response seq command true "")).exchanges = s.exchanges ++ [.answered seq mode] := by
          simp [send, Event.exchange?, Outgoing.exchange?, hm]
        exact hx ▸ h.talk.answered
      · simp only [InPhase, perform, reply, send, record, hvm, List.getLast?_singleton]
        exact Or.inl ⟨mode, Or.inl rfl, rfl⟩
    | @release mode =>
      obtain ⟨rfl, rfl⟩ := List.cons_eq_cons.mp hop
      obtain ⟨reason, hsusp, hd⟩ := h.handling mode (by rw [htodo]; exact List.mem_cons_self)
      have hvm := hi.suspended.mp (by rw [hsusp]; rfl)
      have hphase := h.phase
      simp only [InPhase, hvm, List.getLast?_singleton, Releasing, htodo, hsusp] at hphase
      obtain rfl : p = .answered mode := by
        rcases hphase with ⟨mode', hr, hp⟩ | ⟨hr, -⟩
        · obtain rfl : mode = mode' := by simpa using hr
          exact hp
        · exact absurd rfl (hr mode)
      refine ⟨.answered mode, h.same ?_ ?_ ?_ ?_⟩
      · simp [perform, hsusp, exchanges]
      · simp only [InPhase, perform, hsusp, hvm, List.getLast?_singleton]
        exact Or.inl ⟨mode, Or.inr ⟨reason, rfl⟩, rfl⟩
      · simp [perform, hsusp]
      · simp [perform, hsusp]
    | look hm =>
      obtain ⟨rfl, rfl⟩ := List.cons_eq_cons.mp hop
      have hnot : ∀ mode, ¬s.Releasing mode := fun mode => by simp [Releasing, htodo]
      simp only [perform]
      split
      · exact ⟨p, h.same rfl (h.phase.congr rfl rfl hnot (by simp [Releasing])) id (by simp [reply])⟩
      · exact ⟨p, h.same rfl (h.phase.congr rfl rfl hnot (by simp [Releasing, reply])) id (by simp [reply])⟩
    | inspect hm =>
      obtain ⟨rfl, rfl⟩ := List.cons_eq_cons.mp hop
      have hnot : ∀ mode, ¬s.Releasing mode := fun mode => by simp [Releasing, htodo]
      exact ⟨p, h.same rfl (h.phase.congr rfl rfl hnot (by simp [Releasing, reply, perform])) id (by simp [reply, perform])⟩

theorem Told.not_releases {s : Session} {p : Phase} (hi : s.Inv) (h : s.Told p) (hvm : s.vm ≠ .busy [.wait])
    (mode : Mode) : .release mode ∉ s.todo := by
  intro hm
  obtain ⟨reason, hsusp, -⟩ := h.handling mode hm
  exact hvm (hi.suspended.mp (by rw [hsusp]; rfl))

/-- A step of a thread that is not waiting, and that leaves the loop alone. -/
theorem Told.moved {s s' : Session} {p p' : Phase} (hi : s.Inv) (h : s.Told p) (hvm : s.vm ≠ .busy [.wait])
    (htodo : s'.todo = s.todo) (htalk : Talk s'.exchanges p') (hp : s'.InPhase p')
    (hclosed : p' = .closed → s'.disconnecting = true) : s'.Told p' where
  talk := htalk
  phase := hp
  closed := hclosed
  handling mode hm := absurd (htodo ▸ hm) (h.not_releases hi hvm mode)

/-- The loop takes up something new. -/
theorem Told.asked {s : Session} {p : Phase} {todo : List Op} {closed : Bool} (h : s.Told p) (htodo : s.todo = [])
    (hmem : ∀ mode, .release mode ∉ todo) : Told { s with todo := todo, closed := closed } p := by
  refine h.same rfl (h.phase.congr rfl rfl ?_ ?_) id fun mode hm => absurd hm (hmem mode)
  · exact fun mode => not_releasing_of_not_mem (by simp [htodo])
  · exact fun mode => not_releasing_of_not_mem (hmem mode)

theorem Told.vm {s s' : Session} {p : Phase} (hi : s.Inv) (h : s.Told p) (hs : s.step .vm = some s') :
    ∃ p, s'.Told p := by
  cases hvm : s.vm with
  | absent | running | dead => simp [step, hvm] at hs
  | busy todo =>
    have hdoing := hi.thread todo hvm
    have hphase := h.phase
    cases hdoing with
    | @stopping before reason hbefore =>
      have hwait : s.vm ≠ .busy [.wait] := by
        rw [hvm]
        intro heq
        simpa using congrArg List.getLast? (VmThread.busy.inj heq)
      simp only [InPhase, hvm, List.getLast?_append, List.getLast?_singleton, Option.some_or] at hphase
      subst hphase
      cases before with
      | nil =>
        simp only [step, hvm, List.nil_append, performVm] at hs
        cases hd : s.disconnecting with
        | true =>
          simp only [hd, if_true, Option.some.injEq] at hs
          subst hs
          exact ⟨.running, h.moved hi hwait rfl h.talk (by simp [InPhase]) (by simp)⟩
        | false =>
          simp only [hd, Bool.false_eq_true, if_false, Option.some.injEq] at hs
          subst hs
          have hx : (s.send (.stopped reason)).exchanges = s.exchanges ++ [.stopped reason] := by
            simp [send, Event.exchange?, Outgoing.exchange?]
          refine ⟨.parked, h.moved hi hwait rfl (hx ▸ h.talk.stopped) ?_ (by simp)⟩
          simp only [InPhase, List.getLast?_singleton]
          exact Or.inr ⟨fun mode => not_releasing_of_not_mem (h.not_releases hi hwait mode), ⟨reason, rfl⟩, trivial⟩
      | cons op before =>
        rcases hbefore op List.mem_cons_self with rfl | ⟨c, t, rfl⟩
        · simp only [step, hvm, List.cons_append, performVm, Option.some.injEq] at hs
          subst hs
          exact ⟨.running, h.moved hi hwait rfl h.talk (by simp [InPhase]) (by simp)⟩
        · simp only [step, hvm, List.cons_append, performVm, Option.some.injEq] at hs
          subst hs
          have hx : (s.send (.output c t)).exchanges = s.exchanges := exchanges_send rfl
          exact ⟨.running, h.moved hi hwait rfl (hx ▸ h.talk) (by simp [InPhase]) (by simp)⟩
    | wait =>
      simp only [step, hvm, performVm] at hs
      simp only [InPhase, hvm, List.getLast?_singleton] at hphase
      cases hsusp : s.suspension with
      | none => simp [hsusp] at hs
      | some suspension =>
        obtain ⟨reason, resumeMode⟩ := suspension
        have hne : p ≠ .closed := by
          rcases hphase with ⟨mode, -, rfl⟩ | ⟨-, -, rfl⟩ <;> simp
        cases hd : s.disconnecting with
        | true =>
          simp only [hsusp, hd, if_true, Option.some.injEq] at hs
          subst hs
          refine ⟨p, h.same rfl (by simpa [InPhase] using hne) (fun _ => rfl) fun mode hm => ?_⟩
          obtain ⟨-, -, hd'⟩ := h.handling mode hm
          simp [hd] at hd'
        | false =>
          simp only [hsusp, hd, Bool.false_eq_true, if_false, Option.map_eq_some_iff] at hs
          obtain ⟨mode, hmode, rfl⟩ := hs
          obtain rfl : resumeMode = some mode := hmode
          have hnot : ¬s.Parked := by
            rintro ⟨_, hsusp', -⟩
            simp [hsusp] at hsusp'
          have hp : p = .answered mode := by
            rcases hphase with ⟨mode', hr | ⟨reason', hsusp'⟩, hp⟩ | ⟨-, ⟨reason', hsusp'⟩, -⟩
            · exact absurd hr (h.not_releasing hnot mode')
            · simp only [hsusp, Option.some.injEq, Suspension.mk.injEq] at hsusp'
              exact hsusp'.2 ▸ hp
            · simp [hsusp] at hsusp'
          refine ⟨p, h.same rfl (by simpa [InPhase] using hp) (by simp [hd]) fun mode hm => ?_⟩
          exact absurd (h.handling mode hm) hnot
    | @resume mode =>
      simp only [InPhase, hvm, List.getLast?_singleton] at hphase
      subst hphase
      simp only [step, hvm, performVm, Option.some.injEq] at hs
      subst hs
      have hx : (s.record (.resumed mode)).exchanges = s.exchanges ++ [.resumed mode] := by simp [Event.exchange?]
      exact ⟨.running, h.moved hi (by simp [hvm]) rfl (hx ▸ h.talk.resumed) (by simp [InPhase]) (by simp)⟩
    | quit =>
      simp only [InPhase, hvm, List.getLast?_singleton] at hphase
      simp only [step, hvm, performVm, Option.some.injEq] at hs
      subst hs
      have hx : (s.record .abandoned).exchanges = s.exchanges ++ [.abandoned] := by simp [Event.exchange?]
      exact ⟨.closed, h.moved hi (by simp [hvm]) rfl (hx ▸ h.talk.abandoned hphase) (by simp [InPhase])
        fun _ => hi.quitting hvm⟩
    | ending hend =>
      have hwait : s.vm ≠ .busy [.wait] := by
        rw [hvm]
        exact fun heq => hend.ne (Or.inl rfl) (VmThread.busy.inj heq)
      rw [inPhase_ending hvm hend] at hphase
      cases todo with
      | nil =>
        simp only [step, hvm, Option.some.injEq] at hs
        subst hs
        exact ⟨p, h.moved hi hwait rfl h.talk (by simpa [InPhase] using hphase) h.closed⟩
      | cons op rest =>
        have hrest : Ending rest := fun op hop => hend op (List.mem_cons_of_mem _ hop)
        rcases hend op List.mem_cons_self with ⟨code, rfl⟩ | ⟨m, rfl, hm⟩
        · obtain ⟨hclaim, hms⟩ := s.claimEnd_frame code
          simp only [step, hvm, performVm, hclaim, Option.some.injEq] at hs
          subst hs
          refine ⟨p, h.moved hi hwait rfl h.talk ((inPhase_ending rfl ?_).mpr hphase) h.closed⟩
          exact claimEnd_ending s code hrest
        · simp only [step, hvm, performVm, Option.some.injEq] at hs
          subst hs
          have hx : (s.send m).exchanges = s.exchanges := exchanges_send hm
          exact ⟨p, h.moved hi hwait rfl (hx ▸ h.talk) ((inPhase_ending rfl hrest).mpr hphase) h.closed⟩

theorem Told.step {s s' : Session} {p : Phase} {a : Action} (hi : s.Inv) (h : s.Told p) (hok : s.promptResumes a = true)
    (hs : s.step a = some s') : ∃ p, s'.Told p := by
  cases a with
  | loop => exact h.loop hi hok hs
  | vm => exact h.vm hi hs
  | request seq r =>
    simp only [Session.step] at hs
    split at hs
    case isFalse => cases hs
    case isTrue hopen =>
      simp only [Option.some.injEq] at hs
      subst hs
      exact ⟨p, h.asked hopen.1 fun mode hm => by simpa [Op.follows] using dispatch_not_follows _ hm⟩
  | hangUp desynchronised =>
    simp only [Session.step] at hs
    split at hs
    case isFalse => cases hs
    case isTrue hopen =>
      simp only [Option.some.injEq] at hs
      subst hs
      refine ⟨p, h.asked hopen.1 fun mode hm => ?_⟩
      cases desynchronised <;> simp at hm
  | close =>
    simp only [Session.step] at hs
    split at hs
    case isFalse => cases hs
    case isTrue hopen =>
      simp only [Option.some.injEq] at hs
      subst hs
      exact ⟨p, h.asked hopen.1 fun mode hm => by simp at hm⟩
  | stops reason =>
    simp only [Session.step] at hs
    split at hs
    case isFalse => cases hs
    case isTrue hvm =>
      have hphase := h.phase
      simp only [InPhase, hvm] at hphase
      split at hs
      · simp only [Option.some.injEq] at hs
        exact ⟨p, hs ▸ h⟩
      · simp only [Option.some.injEq] at hs
        subst hs
        refine ⟨p, h.moved hi (by simp [hvm]) rfl h.talk ?_ h.closed⟩
        rw [onStop]
        split <;> simpa [InPhase] using hphase
  | finishes outcome =>
    simp only [Session.step] at hs
    split at hs
    case isFalse => cases hs
    case isTrue hvm =>
      have hphase := h.phase
      simp only [InPhase, hvm] at hphase
      have hend := outcome_ending outcome
      cases outcome with
      | returned value =>
        simp only [Option.some.injEq] at hs
        subst hs
        have hx : (s.record (.returned (processExitCode value))).exchanges = s.exchanges := by simp [Event.exchange?]
        exact ⟨p, h.moved hi (by simp [hvm]) rfl (hx ▸ h.talk) ((inPhase_ending rfl hend).mpr (Or.inl hphase)) h.closed⟩
      | vmError | exception =>
        simp only [Option.some.injEq] at hs
        subst hs
        exact ⟨p, h.moved hi (by simp [hvm]) rfl h.talk ((inPhase_ending rfl hend).mpr (Or.inl hphase)) h.closed⟩

theorem Run.told {s : Session} (h : Run promptResumes s) : ∃ p, s.Told p := by
  induction h with
  | init => exact ⟨.running, .start, rfl, by simp, by simp⟩
  | step hr hok hs ih =>
    obtain ⟨p, h⟩ := ih
    exact h.step hr.inv hok hs

/-- The program's thread is about to run on in a mode, or to give up. -/
def Resuming (s : Session) (mode : Mode) : Prop :=
  s.todo = [.release mode] ∨ (∃ reason, s.suspension = some ⟨reason, some mode⟩) ∨ s.vm = .busy [.resume mode] ∨
    (s.vm = .busy [.quit] ∧ s.disconnecting = true)

/-- Every stop is followed by one answered resume request and by the program running on in
that request's mode before it stops again; the last of them may be under way, or given up
for a disconnect. -/
def OneToOne (s : Session) : Prop :=
  ∃ (rounds : List Round) (p : Phase) (rest : List Exchange),
    s.exchanges = rounds.flatMap Round.exchanges ++ rest ∧ p.Said rest ∧
      (∀ mode, p = .answered mode → s.Resuming mode) ∧ (p = .closed → s.disconnecting = true)

theorem Told.resuming {s : Session} {mode : Mode} (hi : s.Inv) (h : s.Told (.answered mode)) : s.Resuming mode := by
  have hphase := h.phase
  cases hvm : s.vm with
  | absent | running | dead => simp [InPhase, hvm] at hphase
  | busy todo =>
    cases hi.thread todo hvm with
    | stopping => simp [InPhase, hvm] at hphase
    | wait =>
      simp only [InPhase, hvm, List.getLast?_singleton] at hphase
      rcases hphase with ⟨mode', hr, hp⟩ | ⟨-, -, hp⟩
      · cases hp
        exact hr.imp id Or.inl
      · cases hp
    | resume =>
      simp only [InPhase, hvm, List.getLast?_singleton, Phase.answered.injEq] at hphase
      subst hphase
      exact Or.inr (Or.inr (Or.inl hvm))
    | quit => exact Or.inr (Or.inr (Or.inr ⟨hvm, hi.quitting hvm⟩))
    | ending hend =>
      rw [inPhase_ending hvm hend] at hphase
      simp at hphase

/-- Resume requests and stops correspond one to one in a run in which no resume request is
checked between the release of a suspension and the thread that takes it up. -/
theorem resumes_one_to_one {s : Session} (h : Run promptResumes s) : s.OneToOne := by
  obtain ⟨p, ht⟩ := h.told
  obtain ⟨rounds, rest, hx, hsaid⟩ := ht.talk.rounds
  refine ⟨rounds, p, rest, hx, hsaid, ?_, ht.closed⟩
  rintro mode rfl
  exact ht.resuming h.inv

/-- A program that is launched, configured and stopped at its entry. -/
def launchedAndStopped : List Action :=
  [.request 1 (.launch (some (.compiled [] true))), .loop, .loop, .loop,
    .request 2 .configurationDone, .loop, .loop, .loop, .stops .entry, .vm]

/-- A second request checked before the first one's release is taken up. -/
def overtaken : List Action :=
  launchedAndStopped ++ [.request 3 .continue_, .loop, .loop, .loop, .request 4 .next, .loop, .loop, .loop, .vm, .vm]

theorem overtaken_not_one_to_one : ¬∀ s, Reachable s → s.OneToOne := by
  intro h
  obtain ⟨s, hs, hx⟩ : ∃ s, Session.after (fun _ _ => true) {} overtaken = some s ∧ s.exchanges =
      [.stopped .entry, .answered 3 .run, .answered 4 .stepOver, .resumed .stepOver] := ⟨_, rfl, rfl⟩
  obtain ⟨rounds, p, rest, heq, hsaid, -⟩ := h s (Run.init.of_after hs)
  rw [hx] at heq
  cases rounds with
  | nil =>
    simp only [List.flatMap_nil, List.nil_append] at heq
    subst heq
    cases p with
    | running | parked | answered => simp [Phase.Said] at hsaid
    | closed =>
      obtain ⟨ys, hys, -⟩ := hsaid
      simpa using congrArg List.getLast? hys
  | cons r rounds => simp [Round.exchanges] at heq

theorem launchedAndStopped_one_to_one :
    ∃ s, Session.after promptResumes {} (launchedAndStopped ++ [.request 3 .continue_, .loop, .loop, .loop, .vm, .vm]) = some s ∧
      s.OneToOne := by
  obtain ⟨s, hs⟩ : ∃ s, Session.after promptResumes {}
      (launchedAndStopped ++ [.request 3 .continue_, .loop, .loop, .loop, .vm, .vm]) = some s := ⟨_, rfl⟩
  exact ⟨s, hs, resumes_one_to_one (Run.init.of_after hs)⟩

/-! Inspection. -/

/-- No inspection is checked while the suspension it finds is released already. -/
def promptLooks (s : Session) (a : Action) : Bool :=
  match a, s.todo, s.suspension with
  | .loop, .requireSuspended _ _ _ :: _, some suspension => suspension.resumeMode = none
  | _, _, _ => true

/-- The VM is read only while its thread waits at a stop that no request and no
disconnect has released. -/
def ReadsParked (s : Session) : Prop := .inspect ∈ s.todo → s.vm = .busy [.wait] ∧ s.Parked

theorem parked_of_look {s s' : Session} {a : Action} (hi : s.Inv) (h : .inspect ∈ s.todo → s.Parked)
    (hok : s.promptLooks a = true) (hs : s.step a = some s') (hin : .inspect ∈ s'.todo) : s'.Parked := by
  have hvm (ha : a = .vm ∨ (∃ r, a = .stops r) ∨ ∃ o, a = .finishes o) : s'.Parked := by
    rw [step_todo hs ha] at hin
    have := hi.parked_step (h hin) (List.ne_nil_of_mem hin) hs
    rcases ha with rfl | ⟨r, rfl⟩ | ⟨o, rfl⟩ <;> cases this
  cases a with
  | vm => exact hvm (Or.inl rfl)
  | stops r => exact hvm (Or.inr (Or.inl ⟨r, rfl⟩))
  | finishes o => exact hvm (Or.inr (Or.inr ⟨o, rfl⟩))
  | request seq r =>
    simp only [Session.step] at hs
    split at hs
    case isFalse => cases hs
    case isTrue =>
      simp only [Option.some.injEq] at hs
      subst hs
      cases dispatch_not_follows _ hin
  | hangUp desynchronised =>
    simp only [Session.step] at hs
    split at hs
    case isFalse => cases hs
    case isTrue =>
      simp only [Option.some.injEq] at hs
      subst hs
      cases desynchronised <;> simp at hin
  | close =>
    simp only [Session.step] at hs
    split at hs
    case isFalse => cases hs
    case isTrue =>
      simp only [Option.some.injEq] at hs
      subst hs
      simp at hin
  | loop =>
    rw [step] at hs
    cases htodo : s.todo with
    | nil => simp [htodo] at hs
    | cons op rest =>
      simp only [htodo, Option.some.injEq] at hs
      subst hs
      have hdoing := hi.doing
      rw [htodo] at hdoing
      generalize hop : op :: rest = todo at hdoing
      cases hdoing with
      | quiet hq =>
        subst hop
        cases quiet_todo (s := s) hq _ hin
      | @resume seq command mode hm =>
        obtain ⟨rfl, rfl⟩ := List.cons_eq_cons.mp hop
        have hin : .inspect ∈ (s.perform (.refuseResume seq command mode)).2 ++ [] := hin
        obtain ⟨-, ⟨message, hsnd⟩ | ⟨-, hsnd⟩⟩ := s.perform_refuseResume seq command mode
        · simp [hsnd, reply] at hin
        · simp [hsnd, reply] at hin
      | answer hm =>
        obtain ⟨rfl, rfl⟩ := List.cons_eq_cons.mp hop
        simp [perform, reply] at hin
      | @release mode =>
        obtain ⟨rfl, rfl⟩ := List.cons_eq_cons.mp hop
        have hin : .inspect ∈ (s.perform (.release mode)).2 ++ [] := hin
        cases hsusp : s.suspension <;> simp [perform, hsusp] at hin
      | @look seq command found hm =>
        obtain ⟨rfl, rfl⟩ := List.cons_eq_cons.mp hop
        have hd := hi.connected ⟨_, by rw [htodo]; exact List.mem_cons_self, rfl⟩ (by simp [htodo])
        have hin : .inspect ∈ (s.perform (.requireSuspended seq command found)).2 ++ [] := hin
        cases hsusp : s.suspension with
        | none => simp [perform, hsusp, reply] at hin
        | some suspension =>
          obtain ⟨reason, resumeMode⟩ := suspension
          obtain rfl : resumeMode = none := by simpa [promptLooks, htodo, hsusp] using hok
          refine ⟨reason, ?_, ?_⟩
          · simp [perform, hsusp]
          · simp [perform, hsusp, hd]
      | inspect hm =>
        obtain ⟨rfl, rfl⟩ := List.cons_eq_cons.mp hop
        simp [perform, reply] at hin

/-- A stopped program is read in its own thread's absence in a run in which no inspection is
checked between the release of a suspension and the thread that takes it up. -/
theorem inspects_parked {s : Session} (h : Run promptLooks s) : s.ReadsParked := by
  have hparked : .inspect ∈ s.todo → s.Parked := by
    induction h with
    | init => simp
    | step hr hok hs ih => exact parked_of_look hr.inv ih hok hs
  intro hin
  obtain ⟨reason, hsusp, hd⟩ := hparked hin
  exact ⟨h.inv.suspended.mp (by rw [hsusp]; rfl), reason, hsusp, hd⟩

/-- An inspection checked before a release is taken up, and the program running on under it. -/
def lookedLate : List Action :=
  launchedAndStopped ++ [.request 3 .continue_, .loop, .loop, .loop, .request 4 .stackTrace, .loop, .vm, .vm]

theorem lookedLate_not_parked : ¬∀ s, Reachable s → s.ReadsParked := by
  intro h
  obtain ⟨s, hs, htodo, hvm⟩ : ∃ s, Session.after (fun _ _ => true) {} lookedLate = some s ∧
      s.todo = [.inspect, reply 4 .stackTrace] ∧ s.vm = .running := ⟨_, rfl, rfl, rfl⟩
  obtain ⟨hwait, -⟩ := h s (Run.init.of_after hs) (by simp [htodo])
  rw [hvm] at hwait
  cases hwait

theorem launchedAndStopped_reads_parked :
    ∃ s, Session.after promptLooks {} (launchedAndStopped ++ [.request 3 .stackTrace, .loop]) = some s ∧
      s.todo = [.inspect, reply 3 .stackTrace] ∧ s.ReadsParked := by
  obtain ⟨s, hs, htodo⟩ : ∃ s, Session.after promptLooks {} (launchedAndStopped ++ [.request 3 .stackTrace, .loop]) = some s ∧
      s.todo = [.inspect, reply 3 .stackTrace] := ⟨_, rfl, rfl⟩
  exact ⟨s, hs, htodo, inspects_parked (Run.init.of_after hs)⟩

end Session

end QuinLang.Dap
