import QuinLang.Dap.Handoff

/-! How a session starts its program and how it reports that it is over. -/

namespace QuinLang.Dap

open Debugger (StopReason)

namespace Session

/-! Starting. -/

/-- What a step adds to the record, and what that says of the launch. -/
inductive Recorded (s s' : Session) : Prop
  | other (es : List Event) (hes : .started ∉ es) (htrace : s'.trace = s.trace ++ es) (hstarted : s'.started = s.started)
      (hprogram : s'.program = true → s.program = true ∨ .launched ∈ es)
      (hconfigured : s'.configurationDone = true → s.configurationDone = true ∨ .configured ∈ es)
  | started (hbefore : s.started = false) (hprogram : s.program = true) (hconfigured : s.configurationDone = true)
      (htrace : s'.trace = s.trace ++ [.started]) (hstarted : s'.started = true)

theorem Recorded.same {s s' : Session} (es : List Event) (hes : .started ∉ es) (htrace : s'.trace = s.trace ++ es)
    (hstarted : s'.started = s.started) (hprogram : s'.program = s.program)
    (hconfigured : s'.configurationDone = s.configurationDone) : Recorded s s' :=
  .other es hes htrace hstarted (fun h => Or.inl (hprogram ▸ h)) fun h => Or.inl (hconfigured ▸ h)

theorem perform_recorded (s : Session) (op : Op) : Recorded s (s.perform op).1 := by
  have hsame : Recorded s s := .same [] (by simp) (List.append_nil _).symm rfl rfl rfl
  cases op with
  | send m => exact .same [.sent m] (by simp) rfl rfl rfl rfl
  | load b => exact .other [.launched] (by simp) rfl rfl (fun _ => Or.inr (by simp)) Or.inl
  | configured => exact .other [.configured] (by simp) rfl rfl Or.inl fun _ => Or.inr (by simp)
  | startIfReady =>
    rw [perform]
    split
    · exact hsame
    case isFalse h =>
      simp only [not_or, Bool.not_eq_true, Bool.not_eq_false] at h
      exact .started h.1 h.2.1 h.2.2 rfl rfl
  | refuseResume seq command mode => exact (s.perform_refuseResume seq command mode).1.symm ▸ hsame
  | release mode =>
    rw [perform]
    split
    · exact hsame
    · exact .same [] (by simp) (List.append_nil _).symm rfl rfl rfl
  | end_ code =>
    rw [perform, (s.claimEnd_frame code).1]
    exact .same [] (by simp) (List.append_nil _).symm rfl rfl rfl
  | setDisconnecting | leave => exact .same [] (by simp) (List.append_nil _).symm rfl rfl rfl
  | inspect | pause | join => exact hsame
  | requireSuspended | pauseIfAlive | killIfAlive | endIfStarted =>
    rw [perform]
    split <;> exact hsame
  | waitForProgram =>
    rw [perform]
    split
    · exact hsame
    · split <;> exact hsame

theorem performVm_recorded {s s' : Session} {rest : List VmOp} {op : VmOp} (hs : s.performVm rest op = some s') :
    Recorded s s' := by
  cases op with
  | wait =>
    simp only [performVm] at hs
    split at hs
    · cases hs
    · split at hs
      · simp only [Option.some.injEq] at hs
        subst hs
        exact .same [] (by simp) (List.append_nil _).symm rfl rfl rfl
      · obtain ⟨mode, -, rfl⟩ := Option.map_eq_some_iff.mp hs
        exact .same [] (by simp) (List.append_nil _).symm rfl rfl rfl
  | park reason =>
    simp only [performVm] at hs
    split at hs
    · simp only [Option.some.injEq] at hs
      subst hs
      exact .same [] (by simp) (List.append_nil _).symm rfl rfl rfl
    · simp only [Option.some.injEq] at hs
      subst hs
      exact .same [.sent (.stopped reason)] (by simp) rfl rfl rfl rfl
  | end_ code =>
    simp only [performVm, (s.claimEnd_frame code).1, Option.some.injEq] at hs
    subst hs
    exact .same [] (by simp) (List.append_nil _).symm rfl rfl rfl
  | setFaulted =>
    simp only [performVm, Option.some.injEq] at hs
    subst hs
    exact .same [] (by simp) (List.append_nil _).symm rfl rfl rfl
  | send m =>
    simp only [performVm, Option.some.injEq] at hs
    subst hs
    exact .same [.sent m] (by simp) rfl rfl rfl rfl
  | resume mode =>
    simp only [performVm, Option.some.injEq] at hs
    subst hs
    exact .same [.resumed mode] (by simp) rfl rfl rfl rfl
  | quit =>
    simp only [performVm, Option.some.injEq] at hs
    subst hs
    exact .same [.abandoned] (by simp) rfl rfl rfl rfl

/-- The states a step can lead to, told by which thread it belongs to. -/
theorem step_recorded {s s' : Session} {a : Action} (hs : s.step a = some s') : Recorded s s' := by
  cases a with
  | request | hangUp | close =>
    simp only [step] at hs
    split at hs
    case isFalse => cases hs
    case isTrue =>
      simp only [Option.some.injEq] at hs
      subst hs
      exact .same [] (by simp) (List.append_nil _).symm rfl rfl rfl
  | loop =>
    simp only [step] at hs
    split at hs
    · cases hs
    case h_2 op rest _ =>
      simp only [Option.some.injEq] at hs
      subst hs
      rcases s.perform_recorded op with ⟨es, hes, ht, hst, hp, hc⟩ | ⟨hb, hp, hc, ht, hst⟩
      · exact .other es hes ht hst hp hc
      · exact .started hb hp hc ht hst
  | vm =>
    simp only [step] at hs
    split at hs
    · simp only [Option.some.injEq] at hs
      subst hs
      exact .same [] (by simp) (List.append_nil _).symm rfl rfl rfl
    · exact performVm_recorded hs
    · cases hs
  | stops reason =>
    simp only [step] at hs
    split at hs
    · split at hs <;>
      · simp only [Option.some.injEq] at hs
        subst hs
        exact .same [] (by simp) (List.append_nil _).symm rfl rfl rfl
    · cases hs
  | finishes outcome =>
    simp only [step] at hs
    split at hs
    · cases outcome with
      | returned value =>
        simp only [Option.some.injEq] at hs
        subst hs
        exact .same [.returned _] (by simp) rfl rfl rfl rfl
      | vmError | exception =>
        simp only [Option.some.injEq] at hs
        subst hs
        exact .same [] (by simp) (List.append_nil _).symm rfl rfl rfl
    · cases hs

/-- The program is started at most once, and only after a launch that compiled and a
configurationDone. -/
structure Started (s : Session) : Prop where
  once : s.trace.count .started = if s.started then 1 else 0
  launched : s.program = true → .launched ∈ s.trace
  configured : s.configurationDone = true → .configured ∈ s.trace
  after : ∀ before, before ++ [.started] <+: s.trace → .launched ∈ before ∧ .configured ∈ before

theorem Started.step {s s' : Session} {a : Action} (h : s.Started) (hs : s.step a = some s') : s'.Started := by
  rcases step_recorded hs with ⟨es, hes, ht, hst, hp, hc⟩ | ⟨hb, hp, hc, ht, hst⟩
  · refine ⟨?_, fun hprog => ?_, fun hconf => ?_, fun before hpre => ?_⟩
    · rw [ht, List.count_append, h.once, hst, List.count_eq_zero_of_not_mem hes, Nat.add_zero]
    · rw [ht]
      exact (hp hprog).elim (fun hp => List.mem_append_left _ (h.launched hp)) (List.mem_append_right _)
    · rw [ht]
      exact (hc hconf).elim (fun hc => List.mem_append_left _ (h.configured hc)) (List.mem_append_right _)
    · rw [ht] at hpre
      rcases List.prefix_or_prefix_of_prefix hpre (List.prefix_append s.trace es) with hpre | ⟨more, hmore⟩
      · exact h.after before hpre
      · cases more using List.reverseRecOn with
        | nil => exact h.after before (by rw [List.append_nil] at hmore; exact hmore ▸ List.prefix_rfl)
        | append_singleton more e =>
          rw [← List.append_assoc] at hmore
          obtain ⟨-, he⟩ := List.append_inj' hmore rfl
          obtain rfl : e = .started := by simpa using he
          rw [← hmore, List.append_assoc, List.prefix_append_right_inj] at hpre
          exact absurd (hpre.subset (by simp)) hes
  · refine ⟨?_, fun _ => ?_, fun _ => ?_, fun before hpre => ?_⟩
    · rw [ht, List.count_append, h.once, hb, hst]
      rfl
    · rw [ht]
      exact List.mem_append_left _ (h.launched hp)
    · rw [ht]
      exact List.mem_append_left _ (h.configured hc)
    · rw [ht] at hpre
      rcases List.prefix_concat_iff.mp hpre with heq | hpre
      · obtain ⟨rfl, -⟩ := List.append_inj' heq rfl
        exact ⟨h.launched hp, h.configured hc⟩
      · exact h.after before hpre

theorem Run.started {ok : Session → Action → Bool} {s : Session} (h : Run ok s) : s.Started := by
  induction h with
  | init => exact ⟨rfl, by simp, by simp, by simp⟩
  | step _ _ hs ih => exact ih.step hs

/-! The order of a handler's steps. -/

end Session

/-- Steps that may report the end of the program. -/
def Op.ends : Op → Bool
  | endIfStarted | end_ _ => true
  | _ => false

/-- What may stand before what in a handler: a start comes last, and once the end is being
reported nothing is killed any more. -/
def Op.Before (a b : Op) : Prop := a ≠ .startIfReady ∧ (a.ends = true → b.kills = false ∧ b ≠ .startIfReady)

theorem dispatch_order (seq : ℕ) (r : Request) : (dispatch seq r).Pairwise Op.Before := by
  cases r with
  | launch target =>
    rcases target with _ | error | ⟨warnings, stopOnEntry⟩
    · simp [dispatch, onLaunch]
    · simp [dispatch, onLaunch, Op.Before, reply, Op.ends]
    · simp [dispatch, onLaunch, Op.Before, reply, Op.ends, List.pairwise_append, List.pairwise_map]
      exact List.pairwise_of_forall fun _ _ => trivial
  | setBreakpoints hasPath => cases hasPath <;> simp [dispatch, onSetBreakpoints]
  | _ => simp [dispatch, onInitialize, onConfigurationDone, onSetFunctionBreakpoints, onThreads, onPause, onStackTrace,
      onScopes, onVariables, onEvaluate, onContinue, onNext, onStepIn, onStepOut, onDisconnect, onTerminate, endSession,
      Op.Before, reply, Op.ends, Op.kills]

/-- The order in which the program's thread ends: nothing comes after the report. -/
def VmOp.Before (a _ : VmOp) : Prop := ∀ code, a ≠ .end_ code

namespace Session

theorem perform_order {s : Session} {op : Op} {rest : List Op} (h : (op :: rest).Pairwise Op.Before) :
    ((s.perform op).2 ++ rest).Pairwise Op.Before := by
  obtain ⟨hop, hrest⟩ := List.pairwise_cons.mp h
  have hadd (more : List Op) (hmore : more.Pairwise Op.Before)
      (hnot : ∀ a ∈ more, a ≠ .startIfReady ∧ (a.ends = true → op.ends = true)) : (more ++ rest).Pairwise Op.Before :=
    List.pairwise_append.mpr ⟨hmore, hrest, fun a ha b hb =>
      ⟨(hnot a ha).1, fun he => (hop b hb).2 ((hnot a ha).2 he)⟩⟩
  cases op with
  | send | load | configured | setDisconnecting | leave | inspect | pause | join => exact hrest
  | startIfReady =>
    rw [perform]
    split <;> exact hrest
  | release mode =>
    rw [perform]
    split <;> exact hrest
  | refuseResume seq command mode =>
    obtain ⟨-, ⟨message, hsnd⟩ | ⟨-, hsnd⟩⟩ := s.perform_refuseResume seq command mode
    · exact hsnd ▸ hadd _ (by simp) (by simp [reply, Op.ends])
    · exact hsnd ▸ hadd _ (by simp [Op.Before, reply, Op.ends]) (by simp [reply, Op.ends])
  | requireSuspended | pauseIfAlive =>
    rw [perform]
    split
    · exact hadd _ (by simp [Op.Before, reply, Op.ends]) (by simp [reply, Op.ends])
    · exact hadd _ (by simp) (by simp [reply, Op.ends])
  | killIfAlive =>
    rw [perform]
    split
    · exact hadd _ (by simp [Op.Before, Op.ends]) (by simp [Op.ends])
    · exact hrest
  | endIfStarted =>
    rw [perform]
    split
    · exact hadd _ (by simp) (by simp [Op.ends])
    · exact hrest
  | end_ code =>
    refine hadd _ ?_ fun a ha => ?_
    · refine List.pairwise_map.mpr (List.pairwise_of_forall fun _ _ => ?_)
      simp [Op.Before, Op.ends]
    · obtain ⟨m, -, rfl⟩ := List.mem_map.mp ha
      simp [Op.ends]
  | waitForProgram =>
    rw [perform]
    split
    · exact hrest
    · split
      · exact hadd _ (by simp) (by simp [Op.ends])
      · exact hadd _ (by simp [Op.Before, Op.ends]) (by simp [Op.ends])

/-- Nothing makes the program's thread stop again: it is gone, or told to give up. -/
def Quelled (s : Session) : Prop := s.disconnecting = true ∨ s.vm.isAlive = false

/-- What the steps of the two threads still have before them. -/
structure Ordered (s : Session) : Prop where
  loop : s.todo.Pairwise Op.Before
  vm : ∀ todo, s.vm = .busy todo → todo.Pairwise VmOp.Before
  quelled : .endIfStarted ∈ s.todo → (∃ op ∈ s.todo, op.kills = true) ∨ s.Quelled

theorem perform_frame (s : Session) {op : Op} (h : op ≠ .startIfReady) :
    (s.perform op).1.vm = s.vm ∧ (s.perform op).1.started = s.started ∧
      (s.disconnecting = true → (s.perform op).1.disconnecting = true) := by
  cases op with
  | startIfReady => exact absurd rfl h
  | refuseResume seq command mode =>
    rw [(s.perform_refuseResume seq command mode).1]
    exact ⟨rfl, rfl, id⟩
  | end_ code =>
    rw [perform, (s.claimEnd_frame code).1]
    exact ⟨rfl, rfl, id⟩
  | setDisconnecting => exact ⟨rfl, rfl, fun _ => rfl⟩
  | release | requireSuspended | pauseIfAlive | killIfAlive | endIfStarted =>
    rw [perform]
    split <;> exact ⟨rfl, rfl, id⟩
  | waitForProgram =>
    rw [perform]
    split
    · exact ⟨rfl, rfl, id⟩
    · split <;> exact ⟨rfl, rfl, id⟩
  | _ => exact ⟨rfl, rfl, id⟩

theorem Quelled.perform {s : Session} {op : Op} (h : s.Quelled) (hop : op ≠ .startIfReady) : (s.perform op).1.Quelled := by
  obtain ⟨hvm, -, hd⟩ := s.perform_frame hop
  rcases h with h | h
  · exact Or.inl (hd h)
  · exact Or.inr (hvm ▸ h)

/-- The program's thread does not undo a disconnect. -/
theorem step_disconnecting {s s' : Session} {a : Action} (hs : s.step a = some s') (h : s.disconnecting = true) :
    s'.disconnecting = true := by
  cases a with
  | request | hangUp | close =>
    simp only [step] at hs
    split at hs
    case isFalse => cases hs
    case isTrue =>
      simp only [Option.some.injEq] at hs
      subst hs
      exact h
  | loop =>
    simp only [step] at hs
    split at hs
    · cases hs
    case h_2 op rest _ =>
      simp only [Option.some.injEq] at hs
      subst hs
      by_cases hop : op = .startIfReady
      · subst hop
        simp only [perform]
        split <;> exact h
      · exact (s.perform_frame hop).2.2 h
  | vm =>
    simp only [step] at hs
    split at hs
    · simp only [Option.some.injEq] at hs
      subst hs
      exact h
    case h_2 op rest _ =>
      cases op with
      | wait =>
        simp only [performVm, h, if_true] at hs
        split at hs
        · cases hs
        · simp only [Option.some.injEq] at hs
          subst hs
          rfl
      | park reason =>
        simp only [performVm, h, if_true, Option.some.injEq] at hs
        subst hs
        rfl
      | end_ code =>
        simp only [performVm, (s.claimEnd_frame code).1, Option.some.injEq] at hs
        subst hs
        exact h
      | _ =>
        simp only [performVm, Option.some.injEq] at hs
        subst hs
        exact h
    · cases hs
  | stops reason =>
    simp only [step] at hs
    split at hs
    · split at hs <;>
      · simp only [Option.some.injEq] at hs
        subst hs
        exact h
    · cases hs
  | finishes outcome =>
    simp only [step] at hs
    split at hs
    · cases outcome <;>
      · simp only [Option.some.injEq] at hs
        subst hs
        exact h
    · cases hs

theorem Quelled.vmStep {s s' : Session} {a : Action} (h : s.Quelled) (hs : s.step a = some s')
    (ha : a = .vm ∨ (∃ r, a = .stops r) ∨ ∃ o, a = .finishes o) : s'.Quelled := by
  rcases h with h | h
  · exact Or.inl (step_disconnecting hs h)
  · exfalso
    cases hvm : s.vm with
    | running | busy => simp [hvm, VmThread.isAlive] at h
    | absent | dead => rcases ha with rfl | ⟨r, rfl⟩ | ⟨o, rfl⟩ <;> simp [step, hvm] at hs

theorem not_ends_of_start {rest : List Op} (h : (Op.startIfReady :: rest).Pairwise Op.Before) : rest = [] := by
  cases rest with
  | nil => rfl
  | cons b rest => exact absurd rfl ((List.pairwise_cons.mp h).1 b List.mem_cons_self).1

theorem perform_not_endIfStarted (s : Session) (op : Op) : .endIfStarted ∉ (s.perform op).2 := by
  cases op with
  | refuseResume seq command mode =>
    obtain ⟨-, ⟨message, hsnd⟩ | ⟨-, hsnd⟩⟩ := s.perform_refuseResume seq command mode <;> simp [hsnd, reply]
  | end_ code => simp [perform]
  | startIfReady | release | requireSuspended | pauseIfAlive | killIfAlive | endIfStarted =>
    rw [perform]
    split <;> simp [reply]
  | waitForProgram =>
    rw [perform]
    split
    · simp
    · split <;> simp
  | _ => simp [perform]

/-- A step that may kill the program does, or finds nothing to kill, or comes to one that may. -/
theorem perform_kills {s : Session} {op : Op} (h : op.kills = true) :
    (∃ op' ∈ (s.perform op).2, op'.kills = true) ∨ (s.perform op).1.Quelled := by
  cases op with
  | killIfAlive =>
    rw [perform]
    split
    · exact Or.inl ⟨.setDisconnecting, by simp, rfl⟩
    case isFalse ha => exact Or.inr (Or.inr (by simpa using ha))
  | setDisconnecting => exact Or.inr (Or.inl rfl)
  | waitForProgram =>
    rw [perform]
    split
    case isTrue ha => exact Or.inr (Or.inr (by simp [ha, VmThread.isAlive]))
    · split <;> exact Or.inl ⟨.killIfAlive, by simp, rfl⟩
  | _ => cases h

theorem not_ending {op : VmOp} {rest : List VmOp} (hs : ∀ m, op ≠ .send m) (he : ∀ code, op ≠ .end_ code) :
    ¬Ending (op :: rest) := by
  intro h
  rcases h op List.mem_cons_self with ⟨code, rfl⟩ | ⟨m, rfl, -⟩
  · exact he code rfl
  · exact hs m rfl

/-- Only messages, the report and the mark of a fault have something after them. -/
theorem vmDoing_last {op : VmOp} {rest : List VmOp} (h : VmDoing (op :: rest)) (hf : op ≠ .setFaulted)
    (hs : ∀ m, op ≠ .send m) (he : ∀ code, op ≠ .end_ code) : rest = [] := by
  generalize htodo : op :: rest = todo at h
  cases h with
  | @stopping before reason hbefore =>
    cases before with
    | nil => exact (List.cons_eq_cons.mp htodo).2
    | cons op' before =>
      obtain ⟨rfl, -⟩ := List.cons_eq_cons.mp htodo
      rcases hbefore op List.mem_cons_self with h | ⟨c, t, h⟩
      · exact absurd h hf
      · exact absurd h (hs _)
  | wait | resume | quit => exact (List.cons_eq_cons.mp htodo).2
  | ending hend =>
    subst htodo
    exact absurd hend (not_ending hs he)

theorem nothing_after_end {code : Option ℤ} {rest : List VmOp} (h : (VmOp.end_ code :: rest).Pairwise VmOp.Before) :
    rest = [] := by
  cases rest with
  | nil => rfl
  | cons b rest => exact absurd rfl ((List.pairwise_cons.mp h).1 b List.mem_cons_self code)

theorem performVm_order {s s' : Session} {op : VmOp} {rest : List VmOp} (hd : VmDoing (op :: rest))
    (h : (op :: rest).Pairwise VmOp.Before) (hs : s.performVm rest op = some s') :
    ∀ todo, s'.vm = .busy todo → todo.Pairwise VmOp.Before := by
  have hrest := (List.pairwise_cons.mp h).2
  have hcons {a : VmOp} (ha : ∀ code, a ≠ .end_ code) : (a :: rest).Pairwise VmOp.Before :=
    List.pairwise_cons.mpr ⟨fun _ _ => ha, hrest⟩
  intro todo hb
  cases op with
  | send | setFaulted =>
    simp only [performVm, Option.some.injEq] at hs
    subst hs
    cases hb
    exact hrest
  | park reason =>
    simp only [performVm] at hs
    split at hs <;>
    · simp only [Option.some.injEq] at hs
      subst hs
      cases hb
      exact hcons (by simp)
  | wait =>
    simp only [performVm] at hs
    split at hs
    · cases hs
    · split at hs
      · simp only [Option.some.injEq] at hs
        subst hs
        cases hb
        exact hcons (by simp)
      · obtain ⟨mode, -, rfl⟩ := Option.map_eq_some_iff.mp hs
        cases hb
        exact hcons (by simp)
  | resume mode =>
    simp only [performVm, Option.some.injEq] at hs
    subst hs
    cases hb
  | quit =>
    obtain rfl := vmDoing_last hd (by simp) (by simp) (by simp)
    simp only [performVm, Option.some.injEq] at hs
    subst hs
    cases hb
    exact List.pairwise_singleton _ _
  | end_ code =>
    obtain rfl := nothing_after_end h
    simp only [performVm, List.append_nil, Option.some.injEq] at hs
    subst hs
    cases hb
    refine List.pairwise_map.mpr (List.pairwise_of_forall fun _ _ => ?_)
    simp [VmOp.Before]

theorem dispatch_quelled {seq : ℕ} {r : Request} (h : .endIfStarted ∈ dispatch seq r) :
    ∃ op ∈ dispatch seq r, op.kills = true := by
  cases r with
  | disconnect | terminate => exact ⟨.killIfAlive, by simp [dispatch, onDisconnect, onTerminate, endSession], rfl⟩
  | launch target =>
    exfalso
    rcases target with _ | error | ⟨warnings, stopOnEntry⟩ <;> simp [dispatch, onLaunch, reply] at h
  | setBreakpoints hasPath => exfalso; cases hasPath <;> simp [dispatch, onSetBreakpoints, reply] at h
  | _ =>
    exfalso
    simp [dispatch, onInitialize, onConfigurationDone, onSetFunctionBreakpoints, onThreads, onPause, onStackTrace,
      onScopes, onVariables, onEvaluate, onContinue, onNext, onStepIn, onStepOut, reply] at h

/-- A step that leaves the loop alone keeps the order of what it has to do. -/
theorem Ordered.vmStep {s s' : Session} {a : Action} (h : s.Ordered) (hs : s.step a = some s')
    (ha : a = .vm ∨ (∃ r, a = .stops r) ∨ ∃ o, a = .finishes o)
    (hvm : ∀ todo, s'.vm = .busy todo → todo.Pairwise VmOp.Before) : s'.Ordered where
  loop := (step_todo hs ha) ▸ h.loop
  vm := hvm
  quelled := by
    rw [step_todo hs ha]
    intro hin
    exact (h.quelled hin).imp id fun hq => hq.vmStep hs ha

theorem Ordered.step {s s' : Session} {a : Action} (hi : s.Inv) (h : s.Ordered) (hs : s.step a = some s') :
    s'.Ordered := by
  cases a with
  | request seq r =>
    simp only [Session.step] at hs
    split at hs
    case isFalse => cases hs
    case isTrue =>
      simp only [Option.some.injEq] at hs
      subst hs
      exact ⟨dispatch_order seq r, h.vm, fun hin => Or.inl (dispatch_quelled hin)⟩
  | hangUp desynchronised =>
    simp only [Session.step] at hs
    split at hs
    case isFalse => cases hs
    case isTrue =>
      simp only [Option.some.injEq] at hs
      subst hs
      refine ⟨?_, h.vm, fun hin => ?_⟩
      · cases desynchronised <;> simp [Op.Before, Op.ends]
      · cases desynchronised <;> simp at hin
  | close =>
    simp only [Session.step] at hs
    split at hs
    case isFalse => cases hs
    case isTrue =>
      simp only [Option.some.injEq] at hs
      subst hs
      exact ⟨by simp, h.vm, by simp⟩
  | loop =>
    simp only [Session.step] at hs
    split at hs
    · cases hs
    case h_2 op rest htodo =>
      simp only [Option.some.injEq] at hs
      subst hs
      have horder := h.loop
      rw [htodo] at horder
      refine ⟨perform_order horder, fun todo hb => ?_, fun hin => ?_⟩
      · by_cases hop : op = .startIfReady
        · subst hop
          by_cases hst : s.started = true ∨ s.program = false ∨ s.configurationDone = false
          · simp only [perform, if_pos hst] at hb
            exact h.vm todo hb
          · simp only [perform, if_neg hst, record] at hb
            cases hb
        · exact h.vm todo ((s.perform_frame hop).1 ▸ hb)
      · rcases List.mem_append.mp hin with hmem | hmem
        · exact absurd hmem (s.perform_not_endIfStarted op)
        · have hop : op ≠ .startIfReady := by
            rintro rfl
            obtain rfl := not_ends_of_start horder
            exact List.not_mem_nil hmem
          have hbefore := h.quelled (by rw [htodo]; exact List.mem_cons_of_mem _ hmem)
          rw [htodo] at hbefore
          rcases hbefore with ⟨op', hop', hk⟩ | hq
          · rcases List.mem_cons.mp hop' with rfl | hop'
            · rcases s.perform_kills hk with ⟨k, hk', hkk⟩ | hq
              · exact Or.inl ⟨k, List.mem_append_left _ hk', hkk⟩
              · exact Or.inr hq
            · exact Or.inl ⟨op', List.mem_append_right _ hop', hk⟩
          · exact Or.inr (hq.perform hop)
  | vm =>
    refine h.vmStep hs (Or.inl rfl) ?_
    simp only [Session.step] at hs
    split at hs
    · simp only [Option.some.injEq] at hs
      subst hs
      simp
    case h_2 op rest hvm => exact performVm_order (hi.thread _ hvm) (h.vm _ hvm) hs
    · cases hs
  | stops reason =>
    refine h.vmStep hs (Or.inr (Or.inl ⟨reason, rfl⟩)) ?_
    simp only [Session.step] at hs
    split at hs
    · split at hs
      · simp only [Option.some.injEq] at hs
        exact hs ▸ h.vm
      · simp only [Option.some.injEq] at hs
        subst hs
        rintro todo ⟨rfl⟩
        rw [onStop]
        split <;> simp [VmOp.Before]
    · cases hs
  | finishes outcome =>
    refine h.vmStep hs (Or.inr (Or.inr ⟨outcome, rfl⟩)) ?_
    simp only [Session.step] at hs
    split at hs
    · cases outcome <;>
      · simp only [Option.some.injEq] at hs
        subst hs
        rintro todo ⟨rfl⟩
        simp [Outcome.ops, VmOp.Before]
    · cases hs

theorem Run.ordered {ok : Session → Action → Bool} {s : Session} (h : Run ok s) : s.Ordered := by
  induction h with
  | init => exact ⟨.nil, by simp, by simp⟩
  | step hr _ hs ih => exact ih.step hr.inv hs

end Session

/-! Reporting the end. -/

/-- What a client is told of the end. -/
inductive Notice
  | exited (code : ℤ)
  | terminated
  deriving DecidableEq

def Outgoing.notice? : Outgoing → Option Notice
  | exited code => some (.exited code)
  | terminated => some .terminated
  | _ => none

def Event.notice? : Event → Option Notice
  | sent m => m.notice?
  | _ => none

def Op.notice? : Op → Option Notice
  | send m => m.notice?
  | _ => none

def VmOp.notice? : VmOp → Option Notice
  | send m => m.notice?
  | _ => none

/-- The whole report. -/
def farewell (code : Option ℤ) : List Notice := (code.map Notice.exited).toList ++ [.terminated]

/-- The notices that the program's thread is about to send. -/
def VmThread.pending : VmThread → List Notice
  | busy todo => todo.filterMap VmOp.notice?
  | _ => []

/-- A thread that will not stop the program any more. -/
def VmThread.Silent : VmThread → Prop
  | absent | dead => True
  | running => False
  | busy todo => ∀ op ∈ todo, ∃ m, op = .send m ∧ m.exchange? = none

theorem VmThread.silent_of_not_alive {vm : VmThread} (h : vm.isAlive = false) : vm.Silent := by
  cases vm with
  | absent | dead => trivial
  | running | busy => cases h

/-- Steps of the loop that change nothing that a report depends on. -/
def Op.isUnreported : Op → Bool
  | send _ | load _ | configured | startIfReady | setDisconnecting | end_ _ => false
  | _ => true

/-- A message that a client is not sent once it knows that the session is over. -/
def Event.isLate : Event → Bool
  | sent (.stopped _) | sent (.exited _) => true
  | _ => false

namespace Session

def notices (s : Session) : List Notice := s.trace.filterMap Event.notice?

def pending (s : Session) : List Notice := s.todo.filterMap Op.notice?

/-- The program ran to its end, and the report of it is made or under way. -/
def Finishing (s : Session) (code : ℤ) : Prop :=
  (s.ended = false ∧ ∃ before, (∀ op ∈ before, ∃ c t, op = VmOp.send (.output c t)) ∧
      s.vm = .busy (before ++ [.end_ (some code)])) ∨
    (s.ended = true ∧ s.pending = [] ∧ s.vm.Silent ∧ s.vm ≠ .absent ∧
      s.notices ++ s.vm.pending = farewell (some code))

/-- Where the report of the end stands. -/
structure Reported (s : Session) : Prop where
  /-- what has been sent of the one report, and what is still to be sent -/
  total : ∃ code, s.notices ++ s.pending ++ s.vm.pending = if s.ended then farewell code else []
  one : s.pending = [] ∨ s.vm.pending = []
  /-- a report from the request loop finds no program to stop again -/
  ending : (∃ code, .end_ code ∈ s.todo) → s.started = false ∨ s.ended = true ∨ s.Quelled
  silent : s.ended = true → s.vm.Silent ∨ s.disconnecting = true
  returned : ∀ code, .returned code ∈ s.trace → s.disconnecting = false → s.Finishing code
  last : s.trace.Pairwise fun a b => a = .sent .terminated → b.isLate = false

/-- No launch fails to compile while a started program has not been reported over, and no
program is started once a failed launch has been reported. -/
def orderly (s : Session) (a : Action) : Bool :=
  match a, s.todo with
  | .request _ (.launch (some (.failed _))), _ => !s.started || s.ended
  | .loop, .startIfReady :: _ => s.started || !s.program || !s.configurationDone || !s.ended
  | _, _ => true

theorem notices_record (s : Session) (e : Event) : (s.record e).notices = s.notices ++ e.notice?.toList := by
  cases h : e.notice? <;> simp [record, notices, List.filterMap_append, h]

theorem notices_send {s : Session} {m : Outgoing} (h : m.notice? = none) : (s.send m).notices = s.notices := by
  rw [send, notices_record, Event.notice?, h, Option.toList_none, List.append_nil]

theorem terminated_last {code : Option ℤ} {xs ys : List Notice} (h : xs ++ ys = farewell code) (hx : .terminated ∈ xs) :
    ys = [] := by
  cases code with
  | none =>
    cases xs with
    | nil => cases hx
    | cons x xs =>
      obtain ⟨-, h⟩ := List.cons_eq_cons.mp h
      exact (List.append_eq_nil_iff.mp h).2
  | some c =>
    rcases xs with _ | ⟨x, _ | ⟨y, xs⟩⟩
    · cases hx
    · obtain ⟨hx', -⟩ := List.cons_eq_cons.mp h
      rw [hx'] at hx
      simp at hx
    · obtain ⟨-, h⟩ := List.cons_eq_cons.mp h
      obtain ⟨-, h⟩ := List.cons_eq_cons.mp h
      exact (List.append_eq_nil_iff.mp h).2

/-- As long as a part of the report is still to be made, its end has not been sent. -/
theorem Reported.not_terminated {s : Session} (h : s.Reported)
    (hne : s.pending ≠ [] ∨ s.vm.pending ≠ [] ∨ s.ended = false) : Event.sent .terminated ∉ s.trace := by
  intro hmem
  have hn : Notice.terminated ∈ s.notices := List.mem_filterMap.mpr ⟨_, hmem, rfl⟩
  obtain ⟨code, htotal⟩ := h.total
  by_cases hended : s.ended = true
  · rw [if_pos hended, List.append_assoc] at htotal
    obtain ⟨hp, hv⟩ := List.append_eq_nil_iff.mp (terminated_last htotal hn)
    simp [hp, hv, hended] at hne
  · rw [if_neg hended, List.append_assoc] at htotal
    rw [(List.append_eq_nil_iff.mp htotal).1] at hn
    cases hn

theorem Reported.nothing {s : Session} (h : s.Reported) (hended : s.ended = false) :
    s.notices = [] ∧ s.pending = [] ∧ s.vm.pending = [] := by
  obtain ⟨code, htotal⟩ := h.total
  rw [hended] at htotal
  simpa [and_assoc] using htotal

theorem last_concat {trace : List Event} {e : Event}
    (h : trace.Pairwise fun a b => a = .sent .terminated → b.isLate = false)
    (he : .sent .terminated ∈ trace → e.isLate = false) :
    (trace ++ [e]).Pairwise fun a b => a = .sent .terminated → b.isLate = false := by
  refine List.pairwise_append.mpr ⟨h, List.pairwise_singleton _ _, fun a ha b hb hterm => ?_⟩
  obtain rfl := List.mem_singleton.mp hb
  exact he (hterm ▸ ha)

/-- The report stands where it stood. -/
theorem Reported.congr {s s' : Session} (h : s.Reported) (hended : s'.ended = s.ended) (hn : s'.notices = s.notices)
    (hp : s'.pending = s.pending) (hvm : s'.vm = s.vm) (hst : s'.started = s.started)
    (hd : s'.disconnecting = s.disconnecting)
    (hend : (∃ code, .end_ code ∈ s'.todo) → s.started = false ∨ s.ended = true ∨ s.Quelled)
    (hret : ∀ code, .returned code ∈ s'.trace → .returned code ∈ s.trace)
    (hlast : s'.trace.Pairwise fun a b => a = .sent .terminated → b.isLate = false) : s'.Reported where
  total := by rw [hended, hn, hp, hvm]; exact h.total
  one := by rw [hp, hvm]; exact h.one
  ending hex := by rw [Quelled, hst, hended, hd, hvm]; exact hend hex
  silent := by rw [hended, hvm, hd]; exact h.silent
  returned code hr hdisc := by
    rw [Finishing, hended, hn, hp, hvm]
    exact h.returned code (hret code hr) (hd ▸ hdisc)
  last := hlast

theorem Finishing.ending {s : Session} {code : ℤ} (h : s.Finishing code) :
    s.vm = .dead ∨ ∃ todo, s.vm = .busy todo ∧ Ending todo := by
  rcases h with ⟨-, before, hbefore, hvm⟩ | ⟨-, -, hs, hne, -⟩
  · refine Or.inr ⟨_, hvm, fun op hop => ?_⟩
    rcases List.mem_append.mp hop with hop | hop
    · obtain ⟨c, t, rfl⟩ := hbefore op hop
      exact Or.inr ⟨_, rfl, rfl⟩
    · exact Or.inl ⟨_, List.mem_singleton.mp hop⟩
  · cases hvm : s.vm with
    | absent => exact absurd hvm hne
    | dead => exact Or.inl rfl
    | running => simp [hvm, VmThread.Silent] at hs
    | busy todo =>
      rw [hvm] at hs
      exact Or.inr ⟨todo, rfl, fun op hop => Or.inr (hs op hop)⟩

/-- A program that is not over has no report that it returned. -/
theorem Reported.not_returned {s : Session} (h : s.Reported) (hd : s.disconnecting = false) (hdead : s.vm ≠ .dead)
    (hnot : ∀ todo, s.vm = .busy todo → ¬Ending todo) (code : ℤ) : .returned code ∉ s.trace := by
  intro hr
  rcases (h.returned code hr hd).ending with hvm | ⟨todo, hvm, hend⟩
  · exact hdead hvm
  · exact hnot todo hvm hend

theorem not_late_of_loop {s : Session} {m : Outgoing} (hi : s.Inv) (h : .send m ∈ s.todo) (hm : m.notice? = none) :
    (Event.sent m).isLate = false := by
  have hne : ∀ reason, m ≠ .stopped reason := by
    rintro reason rfl
    have hdoing := hi.doing
    generalize s.todo = todo at h hdoing
    cases hdoing with
    | quiet hq => cases hq _ h
    | resume | look | release => simp at h
    | answer | inspect => simp [reply] at h
  cases m with
  | stopped reason => exact absurd rfl (hne reason)
  | exited code => cases hm
  | _ => rfl

/-- What the request loop does next is no part of a report, unless it makes one. -/
theorem perform_pending (s : Session) {op : Op} (h : ∀ code, op ≠ .end_ code) :
    (s.perform op).2.filterMap Op.notice? = [] ∧ ((∃ code, .end_ code ∈ (s.perform op).2) → op = .endIfStarted) := by
  cases op with
  | refuseResume seq command mode =>
    obtain ⟨-, ⟨message, hsnd⟩ | ⟨-, hsnd⟩⟩ := s.perform_refuseResume seq command mode <;>
      simp [hsnd, reply, Op.notice?, Outgoing.notice?]
  | end_ code => exact absurd rfl (h code)
  | startIfReady | release | requireSuspended | pauseIfAlive | killIfAlive | endIfStarted =>
    rw [perform]
    split <;> simp [reply, Op.notice?, Outgoing.notice?]
  | waitForProgram =>
    rw [perform]
    split
    · simp
    · split <;> simp [Op.notice?]
  | _ => simp [perform]

theorem perform_unreported (s : Session) (op : Op) (h : op.isUnreported = true) :
    (s.perform op).1.ended = s.ended ∧ (s.perform op).1.trace = s.trace ∧ (s.perform op).1.vm = s.vm ∧
      (s.perform op).1.started = s.started ∧ (s.perform op).1.disconnecting = s.disconnecting := by
  cases op with
  | refuseResume seq command mode =>
    rw [(s.perform_refuseResume seq command mode).1]
    exact ⟨rfl, rfl, rfl, rfl, rfl⟩
  | send | load | configured | startIfReady | setDisconnecting | end_ => cases h
  | release | requireSuspended | pauseIfAlive | killIfAlive | endIfStarted =>
    rw [perform]
    split <;> exact ⟨rfl, rfl, rfl, rfl, rfl⟩
  | waitForProgram =>
    rw [perform]
    split
    · exact ⟨rfl, rfl, rfl, rfl, rfl⟩
    · split <;> exact ⟨rfl, rfl, rfl, rfl, rfl⟩
  | _ => exact ⟨rfl, rfl, rfl, rfl, rfl⟩

/-- A step that changes nothing a report depends on. -/
theorem Reported.unreported {s : Session} {op : Op} {rest : List Op} (h : s.Reported) (hop : op.isUnreported = true)
    (hp : ((s.perform op).2 ++ rest).filterMap Op.notice? = s.pending)
    (hend : (∃ code, .end_ code ∈ (s.perform op).2 ++ rest) → s.started = false ∨ s.ended = true ∨ s.Quelled) :
    Reported { (s.perform op).1 with todo := (s.perform op).2 ++ rest } := by
  obtain ⟨hended, htrace, hvm, hst, hd⟩ := s.perform_unreported op hop
  generalize hs : { (s.perform op).1 with todo := (s.perform op).2 ++ rest } = s'
  have hs' : s'.trace = (s.perform op).1.trace := by rw [← hs]
  refine h.congr (by rw [← hs]; exact hended) (congrArg (List.filterMap Event.notice?) (hs'.trans htrace))
    (by rw [← hs]; exact hp) (by rw [← hs]; exact hvm) (by rw [← hs]; exact hst) (by rw [← hs]; exact hd)
    (by rw [← hs]; exact hend) ?_ ?_
  · intro code hr
    exact hs'.trans htrace ▸ hr
  · rw [hs', htrace]
    exact h.last

theorem Inv.quelled {s : Session} (h : s.Inv) (hs : s.started = false ∨ s.Quelled) : s.Quelled := by
  rcases hs with hs | hs
  · exact Or.inr (by simp [h.absent hs, VmThread.isAlive])
  · exact hs

theorem map_farewell (code : Option ℤ) :
    (((code.map Outgoing.exited).toList ++ [Outgoing.terminated]).map Op.send).filterMap Op.notice? = farewell code := by
  cases code <;> rfl

/-- The request loop takes the report on itself. -/
theorem Reported.ends {s : Session} {code : Option ℤ} {rest : List Op} (h : s.Reported) (hended : s.ended = false)
    (hq : s.Quelled) (hpending : s.pending = rest.filterMap Op.notice?) :
    Reported { s with
      ended := true
      todo := ((code.map Outgoing.exited).toList ++ [Outgoing.terminated]).map Op.send ++ rest } := by
  obtain ⟨hn, hp, hv⟩ := h.nothing hended
  constructor
  case total =>
    refine ⟨code, ?_⟩
    change s.notices ++ (_ ++ rest).filterMap Op.notice? ++ s.vm.pending = farewell code
    rw [List.filterMap_append, map_farewell, ← hpending, hn, hp, hv]
    simp
  case one => exact Or.inr hv
  case ending => exact fun _ => Or.inr (Or.inl rfl)
  case silent => exact fun _ => hq.symm.imp VmThread.silent_of_not_alive id
  case returned =>
    intro code' hr hd
    exfalso
    have halive : s.vm.isAlive = false := hq.resolve_left (by simpa using hd)
    rcases h.returned code' hr hd with ⟨-, before, -, hvm⟩ | ⟨he, -⟩
    · simp [hvm, VmThread.isAlive] at halive
    · simp [hended] at he
  case last => exact h.last

theorem Reported.loop {s s' : Session} (hi : s.Inv) (ho : s.Ordered) (h : s.Reported) (hok : s.orderly .loop = true)
    (hs : s.step .loop = some s') : s'.Reported := by
  simp only [step] at hs
  split at hs
  · cases hs
  case h_2 op rest htodo =>
    simp only [Option.some.injEq] at hs
    subst hs
    have horder := ho.loop
    rw [htodo] at horder
    have hpending : s.pending = (op.notice?).toList ++ rest.filterMap Op.notice? := by
      rw [pending, htodo]
      cases hn : op.notice? <;> simp [hn]
    have hrestEnd : (∃ code, .end_ code ∈ rest) → s.started = false ∨ s.ended = true ∨ s.Quelled := by
      rintro ⟨code, hmem⟩
      exact h.ending ⟨code, by rw [htodo]; exact List.mem_cons_of_mem _ hmem⟩
    have hmore (hend : ∀ code, op ≠ .end_ code) (hn : op.notice? = none) :
        ((s.perform op).2 ++ rest).filterMap Op.notice? = s.pending := by
      rw [List.filterMap_append, (s.perform_pending hend).1, hpending, hn]
      rfl
    have hends (hend : ∀ code, op ≠ .end_ code) (hne : op ≠ .endIfStarted)
        (hex : ∃ code, .end_ code ∈ (s.perform op).2 ++ rest) :
        s.started = false ∨ s.ended = true ∨ s.Quelled := by
      obtain ⟨code, hmem⟩ := hex
      rcases List.mem_append.mp hmem with hmem | hmem
      · exact absurd ((s.perform_pending hend).2 ⟨code, hmem⟩) hne
      · exact hrestEnd ⟨code, hmem⟩
    cases op with
    | send m =>
      cases hn : m.notice? with
      | none =>
        refine h.congr rfl (notices_send hn) (hmore (by simp) hn) rfl rfl rfl (hends (by simp) (by simp)) ?_ ?_
        · intro code hr
          simpa [perform, send, record] using hr
        · exact last_concat h.last fun _ => not_late_of_loop hi (by rw [htodo]; exact List.mem_cons_self) hn
      | some n =>
        rw [Op.notice?, hn] at hpending
        have hvm : s.vm.pending = [] := h.one.resolve_left (by simp [hpending])
        have hnotices : (s.send m).notices = s.notices ++ [n] := by
          rw [send, notices_record, Event.notice?, hn]
          rfl
        refine ⟨?_, Or.inr hvm, hrestEnd, h.silent, fun code hr hd => ?_, ?_⟩
        · obtain ⟨code, htotal⟩ := h.total
          refine ⟨code, Eq.trans ?_ htotal⟩
          rw [hpending]
          change (s.send m).notices ++ rest.filterMap Op.notice? ++ s.vm.pending = _
          rw [hnotices]
          simp
        · exfalso
          have hr' : .returned code ∈ s.trace := by simpa [perform, send, record] using hr
          rcases h.returned code hr' hd with ⟨hended, -⟩ | ⟨-, hp, -⟩
          · simpa [hpending] using (h.nothing hended).2.1
          · simp [hpending] at hp
        · refine last_concat h.last fun hterm => ?_
          exact absurd hterm (h.not_terminated (Or.inl (by simp [hpending])))
    | startIfReady =>
      obtain rfl := not_ends_of_start horder
      rw [perform]
      split
      · exact h.congr rfl rfl (by rw [hpending]; rfl) rfl rfl rfl (by simp) (fun _ => id) h.last
      case isFalse hst =>
        simp only [not_or, Bool.not_eq_true, Bool.not_eq_false] at hst
        obtain ⟨hstarted, hprogram, hconf⟩ := hst
        have hended : s.ended = false := by simpa [orderly, htodo, hstarted, hprogram, hconf] using hok
        have habsent := hi.absent hstarted
        obtain ⟨hn, hp, hv⟩ := h.nothing hended
        have hnotices : ({ s with started := true, vm := .running }.record .started).notices = [] :=
          (notices_record _ _).trans ((List.append_nil _).trans hn)
        refine ⟨⟨none, ?_⟩, Or.inl rfl, by simp, ?_, fun code hr hd => ?_, last_concat h.last fun _ => rfl⟩
        · change ({ s with started := true, vm := .running }.record .started).notices ++ [] ++ [] =
            if s.ended then farewell none else []
          rw [hnotices, hended]
          rfl
        · intro he
          simp [record, hended] at he
        · exfalso
          have hr' : .returned code ∈ s.trace := by simpa [record] using hr
          refine h.not_returned hd ?_ ?_ code hr'
          · simp [habsent]
          · simp [habsent]
    | end_ code =>
      by_cases hended : s.ended = true
      · simp only [perform, claimEnd, if_pos hended, List.map_nil, List.nil_append]
        refine h.congr rfl rfl ?_ rfl rfl rfl (fun _ => Or.inr (Or.inl hended)) (fun _ => id) h.last
        exact hpending.symm
      · have hbefore := h.ending ⟨code, by rw [htodo]; exact List.mem_cons_self⟩
        simp only [perform, claimEnd, if_neg hended]
        exact h.ends (Bool.not_eq_true _ ▸ hended) (hi.quelled (by simpa [hended] using hbefore)) hpending
    | setDisconnecting =>
      refine ⟨?_, ?_, fun _ => Or.inr (Or.inr (Or.inl rfl)), fun _ => Or.inr rfl, by simp [perform], h.last⟩
      · obtain ⟨code, htotal⟩ := h.total
        rw [hpending] at htotal
        exact ⟨code, htotal⟩
      · exact h.one.imp (fun hp => hpending.symm.trans hp) id
    | endIfStarted =>
      refine h.unreported rfl (hmore (by simp) rfl) fun _ => Or.inr (Or.inr ?_)
      have hq := ho.quelled (by rw [htodo]; exact List.mem_cons_self)
      refine hq.resolve_left ?_
      rw [htodo]
      rintro ⟨op, hop, hk⟩
      rcases List.mem_cons.mp hop with rfl | hop
      · cases hk
      · simp [(((List.pairwise_cons.mp horder).1 op hop).2 rfl).1] at hk
    | load b | configured =>
      refine h.congr rfl ?_ (hmore (by simp) rfl) rfl rfl rfl (hends (by simp) (by simp)) ?_ (last_concat h.last fun _ => rfl)
      · exact (notices_record _ _).trans (List.append_nil _)
      · intro code hr
        simpa [perform, record] using hr
    | refuseResume | release | requireSuspended | inspect | pauseIfAlive | pause | killIfAlive | join | leave
    | waitForProgram => exact h.unreported rfl (hmore (by simp) rfl) (hends (by simp) (by simp))

theorem dispatch_unreported (seq : ℕ) (r : Request) :
    (dispatch seq r).filterMap Op.notice? = [] ∧
      ((∃ code, .end_ code ∈ dispatch seq r) → ∃ error, r = .launch (some (.failed error))) := by
  cases r with
  | launch target =>
    rcases target with _ | error | ⟨warnings, stopOnEntry⟩
    · simp [dispatch, onLaunch, reply, Op.notice?, Outgoing.notice?]
    · simp [dispatch, onLaunch, reply, Op.notice?, Outgoing.notice?]
    · simp [dispatch, onLaunch, reply, Op.notice?, Outgoing.notice?, List.filterMap_append]
  | setBreakpoints hasPath => cases hasPath <;> simp [dispatch, onSetBreakpoints, reply, Op.notice?, Outgoing.notice?]
  | _ => simp [dispatch, onInitialize, onConfigurationDone, onSetFunctionBreakpoints, onThreads, onPause, onStackTrace,
      onScopes, onVariables, onEvaluate, onContinue, onNext, onStepIn, onStepOut, onDisconnect, onTerminate, endSession,
      reply, Op.notice?, Outgoing.notice?]

/-- Nothing that the loop takes up is a report, and only a launch that fails comes to one by itself. -/
theorem Reported.asked {s s' : Session} {a : Action} (h : s.Reported) (hok : s.orderly a = true)
    (ha : (∃ seq r, a = .request seq r) ∨ (∃ b, a = .hangUp b) ∨ a = .close) (hs : s.step a = some s') : s'.Reported := by
  rcases ha with ⟨seq, r, rfl⟩ | ⟨desynchronised, rfl⟩ | rfl
  · simp only [step] at hs
    split at hs
    case isFalse => cases hs
    case isTrue hopen =>
      simp only [Option.some.injEq] at hs
      subst hs
      have hp : s.pending = [] := by rw [pending, hopen.1]; rfl
      refine h.congr rfl rfl ((dispatch_unreported seq r).1.trans hp.symm) rfl rfl rfl (fun hex => ?_) (fun _ => id) h.last
      obtain ⟨error, rfl⟩ := (dispatch_unreported seq r).2 hex
      simp only [orderly, Bool.or_eq_true, Bool.not_eq_true'] at hok
      exact hok.imp id Or.inl
  · simp only [step] at hs
    split at hs
    case isFalse => cases hs
    case isTrue hopen =>
      simp only [Option.some.injEq] at hs
      subst hs
      have hp : s.pending = [] := by rw [pending, hopen.1]; rfl
      refine h.congr rfl rfl (Eq.trans ?_ hp.symm) rfl rfl rfl (fun hex => ?_) (fun _ => id) h.last
      · cases desynchronised <;> rfl
      · cases desynchronised <;> simp at hex
  · simp only [step] at hs
    split at hs
    case isFalse => cases hs
    case isTrue hopen =>
      simp only [Option.some.injEq] at hs
      subst hs
      have hp : s.pending = [] := by rw [pending, hopen.1]; rfl
      exact h.congr rfl rfl (Eq.trans rfl hp.symm) rfl rfl rfl (by simp) (fun _ => id) h.last

/-- A step of the program's thread that makes no report. -/
theorem Reported.vmStep {s s' : Session} {a : Action} (h : s.Reported) (hs : s.step a = some s')
    (ha : a = .vm ∨ (∃ r, a = .stops r) ∨ ∃ o, a = .finishes o) (hended : s'.ended = s.ended)
    (hst : s'.started = s.started) (hn : s'.notices = s.notices) (hv : s'.vm.pending = s.vm.pending)
    (hsilent : s.ended = true → s'.vm.Silent ∨ s'.disconnecting = true)
    (hret : ∀ code, .returned code ∈ s'.trace → s'.disconnecting = false → s'.Finishing code)
    (hlast : s'.trace.Pairwise fun a b => a = .sent .terminated → b.isLate = false) : s'.Reported where
  total := by rw [hended, hn, pending, step_todo hs ha, hv]; exact h.total
  one := by rw [pending, step_todo hs ha, hv]; exact h.one
  ending := by
    rw [step_todo hs ha, hst, hended]
    intro hex
    exact (h.ending hex).imp id (Or.imp id fun hq => hq.vmStep hs ha)
  silent := by rw [hended]; exact hsilent
  returned := hret
  last := hlast

theorem not_silent {op : VmOp} {rest : List VmOp} (hs : ∀ m, op ≠ .send m) : ¬(VmThread.busy (op :: rest)).Silent := by
  intro h
  obtain ⟨m, rfl, -⟩ := h op List.mem_cons_self
  exact hs m rfl

theorem vmDoing_send {m : Outgoing} {rest : List VmOp} (h : VmDoing (.send m :: rest)) : m.exchange? = none := by
  generalize htodo : VmOp.send m :: rest = todo at h
  cases h with
  | @stopping before reason hbefore =>
    cases before with
    | nil => cases htodo
    | cons op before =>
      obtain ⟨rfl, -⟩ := List.cons_eq_cons.mp htodo
      rcases hbefore _ List.mem_cons_self with h | ⟨c, t, h⟩
      · cases h
      · cases h
        rfl
  | wait | quit | resume => cases htodo
  | ending hend =>
    subst htodo
    rcases hend _ List.mem_cons_self with ⟨code, h⟩ | ⟨m, h, hm⟩
    · cases h
    · cases h
      exact hm

/-- A message of the program's thread. -/
theorem Reported.sends {s s' : Session} {m : Outgoing} {rest : List VmOp} (h : s.Reported)
    (hdoing : VmDoing (.send m :: rest)) (hvm : s.vm = .busy (.send m :: rest)) (hs : s.step .vm = some s') :
    s'.Reported := by
  have hstep := hs
  simp only [step, hvm, performVm, Option.some.injEq] at hs
  have hpending : s.vm.pending = m.notice?.toList ++ rest.filterMap VmOp.notice? := by
    rw [hvm, VmThread.pending]
    cases hn : m.notice? <;> simp [VmOp.notice?, hn]
  have hnotices : s'.notices = s.notices ++ m.notice?.toList := by
    subst hs
    exact notices_record s (.sent m)
  have hended : s'.ended = s.ended := by rw [← hs]; rfl
  have hp : s'.pending = s.pending := congrArg (List.filterMap Op.notice?) (step_todo hstep (Or.inl rfl))
  have hv : s'.vm.pending = rest.filterMap VmOp.notice? := by rw [← hs]; rfl
  have hsilent (hsil : s.vm.Silent) : s'.vm.Silent := by
    rw [hvm] at hsil
    rw [← hs]
    exact fun op hop => hsil op (List.mem_cons_of_mem _ hop)
  constructor
  case total =>
    obtain ⟨code, htotal⟩ := h.total
    refine ⟨code, ?_⟩
    rw [hended, ← htotal, hnotices, hp, hv, hpending]
    rcases h.one with hnil | hnil
    · simp [hnil]
    · have hm : m.notice?.toList = [] := (List.append_eq_nil_iff.mp (hpending ▸ hnil)).1
      simp [hm]
  case one =>
    rw [hp, hv]
    exact h.one.imp id fun hnil => (List.append_eq_nil_iff.mp (hpending ▸ hnil)).2
  case ending =>
    rw [step_todo hstep (Or.inl rfl), hended]
    intro hex
    exact (h.ending hex).imp (fun hst => by rw [← hs]; exact hst) (Or.imp id fun hq => hq.vmStep hstep (Or.inl rfl))
  case silent =>
    intro he
    exact (h.silent (hended ▸ he)).imp hsilent fun hd => by rw [← hs]; exact hd
  case returned =>
    intro code hr hd
    have hr' : .returned code ∈ s.trace := by
      rw [← hs] at hr
      simpa [send, record] using hr
    have hd' : s.disconnecting = false := by rw [← hs] at hd; exact hd
    rcases h.returned code hr' hd' with ⟨he, before, hbefore, heq⟩ | ⟨he, hp', hsil, hne, hn⟩
    · rw [hvm] at heq
      rcases before with _ | ⟨op, before⟩
      · simp at heq
      · obtain ⟨-, hrest⟩ := List.cons_eq_cons.mp (VmThread.busy.inj heq)
        refine Or.inl ⟨hended.trans he, before, fun op hop => hbefore op (List.mem_cons_of_mem _ hop), ?_⟩
        rw [← hs, hrest]
        rfl
    · refine Or.inr ⟨hended.trans he, hp.trans hp', hsilent hsil, by rw [← hs]; simp, ?_⟩
      rw [hnotices, hv, List.append_assoc, ← hpending]
      exact hn
  case last =>
    have htrace : s'.trace = s.trace ++ [.sent m] := by rw [← hs]; rfl
    rw [htrace]
    refine last_concat h.last fun hterm => ?_
    cases hn : m.notice? with
    | some n => exact absurd hterm (h.not_terminated (Or.inr (Or.inl (by simp [hpending, hn]))))
    | none =>
      have hm := vmDoing_send hdoing
      cases m with
      | stopped reason => cases hm
      | exited code => cases hn
      | _ => rfl

theorem map_farewell_vm (code : Option ℤ) :
    (((code.map Outgoing.exited).toList ++ [Outgoing.terminated]).map VmOp.send).filterMap VmOp.notice? =
      farewell code := by
  cases code <;> rfl

/-- The program's thread reports the end, or finds that it is reported. -/
theorem Reported.vmEnds {s s' : Session} {code : Option ℤ} {rest : List VmOp} (ho : s.Ordered) (h : s.Reported)
    (hvm : s.vm = .busy (.end_ code :: rest)) (hs : s.step .vm = some s') : s'.Reported := by
  have hstep := hs
  obtain rfl := nothing_after_end (ho.vm _ hvm)
  by_cases hended : s.ended = true
  · simp only [step, hvm, performVm, claimEnd, if_pos hended, Option.some.injEq] at hs
    subst hs
    refine h.vmStep hstep (Or.inl rfl) rfl rfl rfl (by rw [hvm]; rfl) (fun _ => Or.inl (by simp [VmThread.Silent]))
      (fun code' hr hd => ?_) h.last
    exfalso
    rcases h.returned code' hr hd with ⟨he, -⟩ | ⟨-, -, hsil, -⟩
    · simp [hended] at he
    · rw [hvm] at hsil
      exact not_silent (by simp) hsil
  · have hfalse : s.ended = false := Bool.not_eq_true _ ▸ hended
    obtain ⟨hn, hp, hv⟩ := h.nothing hfalse
    simp only [step, hvm, performVm, claimEnd, if_neg hended, List.append_nil, Option.some.injEq] at hs
    have hpending : s'.vm.pending = farewell code := by
      rw [← hs]
      exact map_farewell_vm code
    have hsilent : s'.vm.Silent := by
      rw [← hs]
      intro op hop
      obtain ⟨m, hm, rfl⟩ := List.mem_map.mp hop
      refine ⟨m, rfl, ?_⟩
      rcases List.mem_append.mp hm with hm | hm
      · obtain ⟨c, -, rfl⟩ := Option.map_eq_some_iff.mp (Option.mem_toList.mp hm)
        rfl
      · obtain rfl := List.mem_singleton.mp hm
        rfl
    have hn' : s'.notices = [] := by rw [← hs]; exact hn
    have hp' : s'.pending = [] := by rw [← hs]; exact hp
    have hended' : s'.ended = true := by rw [← hs]
    constructor
    case total => exact ⟨code, by rw [hn', hp', hpending, hended']; rfl⟩
    case one => exact Or.inl hp'
    case ending => exact fun _ => Or.inr (Or.inl hended')
    case silent => exact fun _ => Or.inl hsilent
    case returned =>
      intro code' hr hd
      have hr' : .returned code' ∈ s.trace := by rw [← hs] at hr; exact hr
      have hd' : s.disconnecting = false := by rw [← hs] at hd; exact hd
      rcases h.returned code' hr' hd' with ⟨-, before, -, heq⟩ | ⟨he, -⟩
      · have hcode : code = some code' := by
          rw [hvm] at heq
          have hlast := congrArg List.getLast? (VmThread.busy.inj heq)
          simpa using hlast
        refine Or.inr ⟨hended', hp', hsilent, by rw [← hs]; simp, ?_⟩
        rw [hn', hpending, hcode]
        rfl
      · simp [hfalse] at he
    case last => rw [← hs]; exact h.last

theorem Reported.vm {s s' : Session} (hi : s.Inv) (ho : s.Ordered) (h : s.Reported) (hs : s.step .vm = some s') :
    s'.Reported := by
  have ha : Action.vm = .vm ∨ (∃ r, Action.vm = .stops r) ∨ ∃ o, Action.vm = .finishes o := Or.inl rfl
  have hstep := hs
  simp only [step] at hs
  split at hs
  case h_3 => cases hs
  case h_1 hvm =>
    simp only [Option.some.injEq] at hs
    subst hs
    refine h.vmStep hstep ha rfl rfl rfl (by rw [hvm]; rfl) (fun _ => Or.inl trivial) (fun code hr hd => ?_) h.last
    rcases h.returned code hr hd with ⟨-, before, -, heq⟩ | ⟨he, hp, -, -, hn⟩
    · simp [hvm] at heq
    · rw [hvm] at hn
      exact Or.inr ⟨he, hp, trivial, by simp, hn⟩
  case h_2 op rest hvm =>
    have hdoing := hi.thread _ hvm
    -- what holds while the thread is at a step that is no part of the end
    have hnot (hs : ∀ m, op ≠ .send m) (he : ∀ code, op ≠ .end_ code) (hd : s.disconnecting = false) (code : ℤ) :
        .returned code ∉ s.trace := by
      refine h.not_returned hd (by simp [hvm]) (fun todo hb => ?_) code
      rw [hvm] at hb
      cases hb
      exact not_ending hs he
    have hdisc (hs : ∀ m, op ≠ .send m) (he : s.ended = true) : s.disconnecting = true := by
      refine (h.silent he).resolve_left ?_
      rw [hvm]
      exact not_silent hs
    cases op with
    | send m => exact h.sends hdoing hvm hstep
    | end_ code => exact h.vmEnds ho hvm hstep
    | setFaulted =>
      simp only [performVm, Option.some.injEq] at hs
      subst hs
      exact h.vmStep hstep ha rfl rfl rfl (by rw [hvm]; rfl) (fun he => Or.inr (hdisc (by simp) he))
        (fun code hr hd => absurd hr (hnot (by simp) (by simp) hd code)) h.last
    | park reason =>
      simp only [performVm] at hs
      split at hs
      case isTrue hd =>
        simp only [Option.some.injEq] at hs
        subst hs
        refine h.vmStep hstep ha rfl rfl rfl (by rw [hvm]; rfl) (fun _ => Or.inr hd) (fun code hr hd' => ?_) h.last
        simp [hd] at hd'
      case isFalse hd =>
        simp only [Option.some.injEq] at hs
        subst hs
        have hended : s.ended = false := by
          by_contra he
          exact hd (hdisc (by simp) (Bool.not_eq_false _ ▸ he))
        refine h.vmStep hstep ha rfl rfl (notices_send rfl) (by rw [hvm]; rfl) (fun he => Or.inr (hdisc (by simp) he))
          (fun code hr hd' => ?_) ?_
        · have hr' : .returned code ∈ s.trace := by simpa [send, record] using hr
          exact absurd hr' (hnot (by simp) (by simp) hd' code)
        · exact last_concat h.last fun hterm => absurd hterm (h.not_terminated (Or.inr (Or.inr hended)))
    | wait =>
      simp only [performVm] at hs
      split at hs
      case h_1 => cases hs
      case h_2 =>
        split at hs
        case isTrue hd =>
          simp only [Option.some.injEq] at hs
          subst hs
          refine h.vmStep hstep ha rfl rfl rfl (by rw [hvm]; rfl) (fun _ => Or.inr hd) (fun code hr hd' => ?_) h.last
          simp [hd] at hd'
        case isFalse hd =>
          obtain ⟨mode, -, rfl⟩ := Option.map_eq_some_iff.mp hs
          exact h.vmStep hstep ha rfl rfl rfl (by rw [hvm]; rfl) (fun he => Or.inr (hdisc (by simp) he))
            (fun code hr hd => absurd hr (hnot (by simp) (by simp) hd code)) h.last
    | resume mode =>
      obtain rfl := vmDoing_last hdoing (by simp) (by simp) (by simp)
      simp only [performVm, Option.some.injEq] at hs
      subst hs
      refine h.vmStep hstep ha rfl rfl ((notices_record _ _).trans (List.append_nil _)) (by rw [hvm]; rfl)
        (fun he => Or.inr (hdisc (by simp) he)) (fun code hr hd => ?_) (last_concat h.last fun _ => rfl)
      have hr' : .returned code ∈ s.trace := by simpa [record] using hr
      exact absurd hr' (hnot (by simp) (by simp) hd code)
    | quit =>
      obtain rfl := vmDoing_last hdoing (by simp) (by simp) (by simp)
      have hd := hi.quitting hvm
      simp only [performVm, Option.some.injEq] at hs
      subst hs
      refine h.vmStep hstep ha rfl rfl ((notices_record _ _).trans (List.append_nil _)) (by rw [hvm]; rfl)
        (fun _ => Or.inr hd) (fun code hr hd' => ?_) (last_concat h.last fun _ => rfl)
      simp [record, hd] at hd'

theorem Reported.stops {s s' : Session} {reason : StopReason} (h : s.Reported)
    (hs : s.step (.stops reason) = some s') : s'.Reported := by
  have hstep := hs
  simp only [step] at hs
  split at hs
  case isFalse => cases hs
  case isTrue hvm =>
    split at hs
    · simp only [Option.some.injEq] at hs
      exact hs ▸ h
    · simp only [Option.some.injEq] at hs
      subst hs
      refine h.vmStep hstep (Or.inr (Or.inl ⟨reason, rfl⟩)) rfl rfl rfl ?_ (fun he => Or.inr ?_) (fun code hr hd => ?_)
        h.last
      · rw [hvm, onStop]
        split <;> rfl
      · exact (h.silent he).resolve_left (by simp [hvm, VmThread.Silent])
      · exact absurd hr (h.not_returned hd (by simp [hvm]) (by simp [hvm]) code)

theorem Reported.finishes {s s' : Session} {outcome : Outcome} (h : s.Reported)
    (hs : s.step (.finishes outcome) = some s') : s'.Reported := by
  have hstep := hs
  have ha : Action.finishes outcome = .vm ∨ (∃ r, Action.finishes outcome = .stops r) ∨
    ∃ o, Action.finishes outcome = .finishes o := Or.inr (Or.inr ⟨outcome, rfl⟩)
  simp only [step] at hs
  split at hs
  case isFalse => cases hs
  case isTrue hvm =>
    have hdisc (he : s.ended = true) : s.disconnecting = true :=
      (h.silent he).resolve_left (by simp [hvm, VmThread.Silent])
    have hnot (hd : s.disconnecting = false) (code : ℤ) : .returned code ∉ s.trace :=
      h.not_returned hd (by simp [hvm]) (by simp [hvm]) code
    cases outcome with
    | returned value =>
      simp only [Option.some.injEq] at hs
      subst hs
      refine h.vmStep hstep ha rfl rfl ((notices_record _ _).trans (List.append_nil _)) (by rw [hvm]; rfl)
        (fun he => Or.inr (hdisc he)) (fun code hr hd => Or.inl ⟨?_, ?_⟩) (last_concat h.last fun _ => rfl)
      · by_contra he
        have := hdisc (Bool.not_eq_false _ ▸ he)
        simp [record, this] at hd
      · obtain rfl : code = processExitCode value := by
          rcases List.mem_append.mp hr with hr | hr
          · exact absurd hr (hnot hd code)
          · simpa using hr
        exact ⟨[.send (.output "console" (s!"Program exited with code {processExitCode value}\n"))], by simp, rfl⟩
    | vmError | exception =>
      simp only [Option.some.injEq] at hs
      subst hs
      exact h.vmStep hstep ha rfl rfl rfl (by rw [hvm]; rfl) (fun he => Or.inr (hdisc he))
        (fun code hr hd => absurd hr (hnot hd code)) h.last

theorem Reported.step {s s' : Session} {a : Action} (hi : s.Inv) (ho : s.Ordered) (h : s.Reported)
    (hok : s.orderly a = true) (hs : s.step a = some s') : s'.Reported := by
  cases a with
  | request seq r => exact h.asked hok (Or.inl ⟨seq, r, rfl⟩) hs
  | hangUp desynchronised => exact h.asked hok (Or.inr (Or.inl ⟨desynchronised, rfl⟩)) hs
  | close => exact h.asked hok (Or.inr (Or.inr rfl)) hs
  | loop => exact h.loop hi ho hok hs
  | vm => exact h.vm hi ho hs
  | stops reason => exact h.stops hs
  | finishes outcome => exact h.finishes hs

theorem Reported.init : Reported {} where
  total := ⟨none, rfl⟩
  one := Or.inl rfl
  ending := by simp
  silent := by simp
  returned := by simp
  last := .nil

theorem Run.reported {s : Session} (h : Run orderly s) : s.Reported := by
  induction h with
  | init => exact .init
  | step hr hok hs ih => exact ih.step hr.inv hr.ordered hok hs

/-- The report is made of a program that returned: what is sent of it is the first part of it,
and all of it once the program's thread is over. -/
theorem Reported.exactly {s : Session} {code : ℤ} (h : s.Reported) (hr : .returned code ∈ s.trace)
    (hd : s.disconnecting = false) :
    s.notices <+: farewell (some code) ∧ (s.vm = .dead → s.notices = farewell (some code)) := by
  rcases h.returned code hr hd with ⟨hended, before, -, hvm⟩ | ⟨-, -, -, -, hn⟩
  · rw [(h.nothing hended).1, hvm]
    exact ⟨List.nil_prefix, by simp⟩
  · refine ⟨⟨_, hn⟩, fun hdead => ?_⟩
    rw [hdead] at hn
    simpa [VmThread.pending] using hn

/-- What a client may count on. -/
structure Lifecycle (s : Session) : Prop where
  startedOnce : s.trace.count .started ≤ 1
  startedReady : ∀ before, before ++ [.started] <+: s.trace → .launched ∈ before ∧ .configured ∈ before
  /-- a program that returned is reported over once, with its exit code first -/
  reported : ∀ code, .returned code ∈ s.trace → s.disconnecting = false →
    s.notices <+: farewell (some code) ∧ (s.vm = .dead → s.notices = farewell (some code))
  nothingLate : s.trace.Pairwise fun a b => a = .sent .terminated → b.isLate = false

/-- A session whose failed launches leave a program alone keeps to its lifecycle. -/
theorem lifecycle_kept {s : Session} (h : Run orderly s) : s.Lifecycle where
  startedOnce := by
    rw [h.started.once]
    split <;> simp
  startedReady := h.started.after
  reported code hr hd := h.reported.exactly hr hd
  nothingLate := h.reported.last

/-- A launch that fails, then one that compiles: the session is over before its program starts. -/
def relaunched : List Action :=
  [.request 1 (.launch (some (.failed "error"))), .loop, .loop, .loop, .loop,
    .request 2 (.launch (some (.compiled [] false))), .loop, .loop, .loop,
    .request 3 .configurationDone, .loop, .loop, .loop, .stops .entry, .finishes (.returned 0), .vm, .vm, .vm]

theorem relaunched_not_lifecycle : ¬∀ s, Reachable s → s.Lifecycle := by
  intro h
  obtain ⟨s, hs, hr, hd, hdead, hn⟩ : ∃ s, Session.after (fun _ _ => true) {} relaunched = some s ∧
      s.trace.contains (.returned 0) = true ∧ s.disconnecting = false ∧ s.vm = .dead ∧ s.notices = [.terminated] :=
    ⟨_, rfl, rfl, rfl, rfl, rfl⟩
  have hall := ((h s (Run.init.of_after hs)).reported 0 (List.contains_iff_mem.mp hr) hd).2 hdead
  rw [hn] at hall
  cases hall

/-- A program that is launched, runs to its end and is reported over. -/
def launchedAndRun : List Action :=
  [.request 1 (.launch (some (.compiled [] false))), .loop, .loop, .loop, .request 2 .configurationDone, .loop, .loop,
    .loop, .stops .entry, .finishes (.returned 7), .vm, .vm, .vm, .vm, .vm]

theorem launched_lifecycle :
    ∃ s, Session.after orderly {} launchedAndRun = some s ∧ .returned 7 ∈ s.trace ∧ s.disconnecting = false ∧
      s.vm = .dead ∧ s.Lifecycle := by
  obtain ⟨s, hs, hr, hd, hdead⟩ : ∃ s, Session.after orderly {} launchedAndRun = some s ∧
      s.trace.contains (.returned 7) = true ∧ s.disconnecting = false ∧ s.vm = .dead := ⟨_, rfl, rfl, rfl, rfl⟩
  exact ⟨s, hs, List.contains_iff_mem.mp hr, hd, hdead, lifecycle_kept (Run.init.of_after hs)⟩

end Session

end QuinLang.Dap
