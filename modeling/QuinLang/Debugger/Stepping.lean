import QuinLang.Compiler.StackRuns

/-! Where stepping stops: the debugger compares depths and lines, and along a run that
comes to comparing activations. -/

namespace QuinLang.Debugger

section Activations

/-- The machine at an instruction of a run, with the activations there: the one running
first, then its callers. Every call gets a number of its own. -/
structure Followed (W : Type) where
  vm : VM W
  live : List ℕ
  next : ℕ

variable {W : Type} (P : CompiledProgram) (F : FloatOps) (io : ProgramIO W)

/-- What an instruction does to the activations. -/
def Followed.after (x : Followed W) (i : Instruction) (s : VM W) : Followed W :=
  match i with
  | .call _ | .callIndirect => ⟨s, x.next :: x.live, x.next + 1⟩
  | .ret => ⟨s, x.live.tail, x.next⟩
  | _ => ⟨s, x.live, x.next⟩

/-- The run one turn on, unless it ends there. -/
def Followed.step (x : Followed W) : Option (Followed W) :=
  match P.code[x.vm.pc]?, x.vm.step P F io with
  | some i, .ok (.running s) => some (x.after i s)
  | _, _ => none

/-- The run so many turns on. -/
def Followed.turns : ℕ → Followed W → Option (Followed W)
  | 0, x => some x
  | n + 1, x => (x.step P F io).bind (turns n)

/-- An activation for each frame, and no number twice. -/
structure Followed.Fits (x : Followed W) : Prop where
  depth : x.live.length = x.vm.callStack.length + 1
  nodup : x.live.Nodup
  fresh : ∀ A ∈ x.live, A < x.next

variable {P F io} {x y : Followed W}

theorem callStack_length {s s' : VM W} (h : s'.outline.callers = s.outline.callers) :
    s'.callStack.length = s.callStack.length := by
  have hlen := congrArg List.length h
  simpa [VM.outline] using hlen

theorem step_inv (h : x.step P F io = some y) :
    ∃ i, P.code[x.vm.pc]? = some i ∧ x.vm.step P F io = .ok (.running y.vm) ∧ y = x.after i y.vm := by
  unfold Followed.step at h
  split at h
  · rename_i i s hi hs
    cases h
    refine ⟨i, hi, ?_, ?_⟩
    · rw [hs]
      cases i <;> rfl
    · cases i <;> rfl
  · cases h

theorem enter_depth {f : ℕ} {name : String} {s t : VM W} {u : Unit} (h : enterFunction P f name t = .ok (u, s)) :
    s.callStack.length = t.callStack.length + 1 := by
  obtain ⟨fn, -, -, -, -, -, -, -, hcallers⟩ := enterFunction_ok h
  have hlen := congrArg List.length hcallers
  simpa using hlen

/-- A call starts an activation, a return ends one, and nothing else changes how deep the
calls are. -/
theorem step_cases (h : x.step P F io = some y) :
    (y.live = x.next :: x.live ∧ y.next = x.next + 1 ∧ y.vm.callStack.length = x.vm.callStack.length + 1) ∨
    (y.live = x.live.tail ∧ y.next = x.next ∧ y.vm.callStack.length + 1 = x.vm.callStack.length) ∨
    (y.live = x.live ∧ y.next = x.next ∧ y.vm.callStack.length = x.vm.callStack.length) := by
  obtain ⟨i, hi, hs, hy⟩ := step_inv h
  cases hc : i.isControl with
  | false =>
    have hret : i ≠ .ret := by
      rintro rfl
      cases hc
    obtain ⟨u, hexec⟩ := step_execute hi hret hs
    have hcallers := congrArg Outline.callers (execute_effect P F io i hc _ _ _ hexec).2.2
    have hlen : y.vm.callStack.length = x.vm.callStack.length := callStack_length hcallers
    refine .inr (.inr ?_)
    rw [hy]
    cases i <;> first | exact ⟨rfl, rfl, hlen⟩ | cases hc
  | true =>
    cases i with
    | ret =>
      obtain ⟨-, -, frame, frames, hcalls, hcalls', -⟩ := return_ok (step_return hi hs)
      have hlen : x.vm.callStack.length = frames.length + 1 := congrArg List.length hcalls
      refine .inr (.inl ⟨by rw [hy]; rfl, by rw [hy]; rfl, ?_⟩)
      rw [hcalls', hlen]
    | call f =>
      obtain ⟨u, hexec⟩ := step_execute hi (by simp) hs
      exact .inl ⟨by rw [hy]; rfl, by rw [hy]; rfl, enter_depth (t := { x.vm with pc := x.vm.pc + 1 }) hexec⟩
    | callIndirect =>
      obtain ⟨u, hexec⟩ := step_execute hi (by simp) hs
      obtain ⟨v, t, hpop, hexec⟩ := StateExcept.bind_ok.mp hexec
      obtain ⟨e, -, -, hout⟩ := pop_ok hpop
      have hcallers := congrArg Outline.callers hout
      have hlen : t.callStack.length = x.vm.callStack.length := callStack_length hcallers
      exact .inl ⟨by rw [hy]; rfl, by rw [hy]; rfl, by rw [enter_depth hexec, hlen]⟩
    | jmp target =>
      obtain ⟨u, hexec⟩ := step_execute hi (by simp) hs
      refine .inr (.inr ⟨by rw [hy]; rfl, by rw [hy]; rfl, ?_⟩)
      obtain ⟨-, hmod⟩ := Prod.mk.inj (StateExcept.modify_ok.mp hexec)
      rw [← hmod]
    | jz target | jnz target =>
      obtain ⟨u, hexec⟩ := step_execute hi (by simp) hs
      have hcallers := congrArg Outline.callers (branch_ok hexec).2.1
      exact .inr (.inr ⟨by rw [hy]; rfl, by rw [hy]; rfl, callStack_length hcallers⟩)
    | _ => cases hc

theorem Followed.Fits.step (hx : x.Fits) (h : x.step P F io = some y) : y.Fits := by
  rcases step_cases h with ⟨hlive, hnext, hdepth⟩ | ⟨hlive, hnext, hdepth⟩ | ⟨hlive, hnext, hdepth⟩
  · refine ⟨?_, ?_, ?_⟩
    · rw [hlive, hdepth, List.length_cons, hx.depth]
    · rw [hlive]
      exact List.nodup_cons.mpr ⟨fun hmem => lt_irrefl _ (hx.fresh _ hmem), hx.nodup⟩
    · rw [hlive, hnext, List.forall_mem_cons]
      exact ⟨Nat.lt_succ_self _, fun A hA => Nat.lt_succ_of_lt (hx.fresh A hA)⟩
  · refine ⟨?_, ?_, ?_⟩
    · rw [hlive, List.length_tail, hx.depth, ← hdepth]
      rfl
    · rw [hlive]
      exact hx.nodup.tail
    · rw [hlive, hnext]
      exact fun A hA => hx.fresh A (List.mem_of_mem_tail hA)
  · exact ⟨by rw [hlive, hdepth, hx.depth], by rw [hlive]; exact hx.nodup, by rw [hlive, hnext]; exact hx.fresh⟩

theorem Followed.Fits.turns {n : ℕ} (hx : x.Fits) (h : x.turns P F io n = some y) : y.Fits := by
  induction n generalizing x with
  | zero =>
    cases h
    exact hx
  | succ n ih =>
    obtain ⟨z, hz, h⟩ := Option.bind_eq_some_iff.mp h
    exact ih (hx.step hz) h

/-- A program starts in its first activation. -/
theorem start_fits {args : List String} {w : W} {s : VM W} (h : VM.start P args w = .ok s) : (Followed.mk s [0] 1).Fits := by
  obtain ⟨fn, -, -, -, -, -, hcalls⟩ := start_ok h
  refine ⟨?_, List.nodup_singleton 0, by simp⟩
  rw [hcalls]
  rfl

end Activations

section Targets

variable {W : Type} {P : CompiledProgram} {F : FloatOps} {io : ProgramIO W}

def lineAt (P : CompiledProgram) (s : VM W) : Option ℕ := (P.sourceMap.lookup s.pc).map Pos.line

/-- What the debugger is told when it is resumed at `t`, `frame` activations from the
innermost. -/
structure State.Goes (P : CompiledProgram) (d : State) (mode : Mode) (t : VM W) (frame : ℕ) : Prop where
  mode : d.mode = some mode
  depth : d.fromDepth = t.callStack.length - frame
  line : d.fromLine = lineAt P t

/-- Where a step that starts at `t` in activation `A` is to end. -/
def Target (P : CompiledProgram) (mode : Mode) (t : VM W) (A : ℕ) (y : Followed W) : Prop :=
  match mode with
  | .stepOver => (y.live.head? = some A ∧ lineAt P y.vm ≠ lineAt P t) ∨ A ∉ y.live
  | .stepIn => y.vm.callStack.length ≠ t.callStack.length ∨ lineAt P y.vm ≠ lineAt P t
  | .finish => A ∉ y.live
  | .run | .entry => False

/-- These activations are still there, whatever they have called. -/
def Inside (R : List ℕ) (y : Followed W) : Prop := R <:+ y.live

variable {x y : Followed W} {A : ℕ} {R : List ℕ}

/-- Until `A` returns its frame and those of its callers stay; when it does, they are all
that is left. -/
theorem Inside.step (hin : Inside (A :: R) x) (h : x.step P F io = some y) : Inside (A :: R) y ∨ y.live = R := by
  obtain ⟨calls, hlive⟩ := hin
  rcases step_cases h with ⟨hy, -⟩ | ⟨hy, -⟩ | ⟨hy, -⟩
  · exact .inl ⟨x.next :: calls, by rw [hy, ← hlive]; rfl⟩
  · cases calls with
    | nil => exact .inr (by rw [hy, ← hlive]; rfl)
    | cons call calls => exact .inl ⟨calls, by rw [hy, ← hlive]; rfl⟩
  · exact .inl ⟨calls, by rw [hy, ← hlive]⟩

theorem Inside.mem (hin : Inside (A :: R) y) : A ∈ y.live := hin.subset List.mem_cons_self

/-- Inside, `A` runs itself just where the calls are as deep as they were. -/
theorem Inside.head_iff (hin : Inside (A :: R) y) (hy : y.Fits) : y.live.head? = some A ↔ y.live.length = R.length + 1 := by
  obtain ⟨calls, hlive⟩ := hin
  have hnodup := hy.nodup
  rw [← hlive] at hnodup ⊢
  cases calls with
  | nil => simp
  | cons call calls =>
    have hne : call ≠ A := by
      rintro rfl
      have hmem : call ∉ calls ++ call :: R := (List.nodup_cons.mp hnodup).1
      exact hmem (List.mem_append_right _ List.mem_cons_self)
    simp [hne]
    omega

theorem Inside.length_le (hin : Inside (A :: R) y) : R.length + 1 ≤ y.live.length := List.IsSuffix.length_le hin

/-- Wherever the run is before the step ends, the debugger's test is whether it is to end
there. -/
theorem target_iff {d : State} {mode : Mode} {t : VM W} {frame : ℕ} (hgoes : d.Goes P mode t frame)
    (hsteps : mode = .stepIn ∨ mode = .stepOver → frame = 0) (hframe : R.length + frame = t.callStack.length)
    (hmode : mode ≠ .run ∧ mode ≠ .entry) (hA : A ∉ R) (hy : y.Fits) (hwhere : Inside (A :: R) y ∨ y.live = R) :
    d.stepEnds P y.vm mode = true ↔ Target P mode t A y := by
  have hdepth := hy.depth
  have hfrom : d.fromDepth = R.length := by
    rw [hgoes.depth]
    omega
  have hgone : A ∉ y.live ↔ y.vm.callStack.length < R.length := by
    rcases hwhere with hin | hlive
    · have hle := hin.length_le
      exact ⟨fun h => absurd hin.mem h, fun h => by omega⟩
    · rw [hlive] at hdepth ⊢
      exact ⟨fun _ => by omega, fun _ => hA⟩
  have hline : (P.sourceMap.lookup y.vm.pc).map Pos.line ≠ d.fromLine ↔ lineAt P y.vm ≠ lineAt P t := by
    rw [hgoes.line]
    rfl
  cases mode with
  | run => exact absurd rfl hmode.1
  | entry => exact absurd rfl hmode.2
  | finish =>
    rw [State.stepEnds, decide_eq_true_iff, hfrom, Nat.cast_lt]
    exact hgone.symm
  | stepIn =>
    rw [hsteps (.inl rfl), add_zero] at hframe
    simp only [State.stepEnds, Bool.or_eq_true, decide_eq_true_iff, hline, hfrom, hframe, Target, ne_eq, Nat.cast_inj]
  | stepOver =>
    simp only [State.stepEnds, Bool.or_eq_true, Bool.and_eq_true, decide_eq_true_iff, hline, hfrom, Nat.cast_lt, Nat.cast_inj, Target]
    rw [← hgone, or_comm]
    refine or_congr_left' fun hlive => and_congr_left fun _ => ?_
    rcases hwhere with hin | hpopped
    · rw [hin.head_iff hy]
      omega
    · exact absurd (by rw [hpopped]; exact hA) hlive

/-- An activation that has returned is where a step ends. -/
theorem inside_of_not_target {mode : Mode} {t : VM W} {frame : ℕ} (hsteps : mode = .stepIn ∨ mode = .stepOver → frame = 0)
    (hframe : R.length + frame = t.callStack.length) (hmode : mode ≠ .run ∧ mode ≠ .entry) (hA : A ∉ R) (hy : y.Fits)
    (hwhere : Inside (A :: R) y ∨ y.live = R) (hnot : ¬ Target P mode t A y) : Inside (A :: R) y := by
  refine hwhere.resolve_right fun hlive => hnot ?_
  have hdepth := hy.depth
  rw [hlive] at hdepth
  cases mode with
  | run => exact absurd rfl hmode.1
  | entry => exact absurd rfl hmode.2
  | finish => exact (by rw [hlive]; exact hA : A ∉ y.live)
  | stepIn =>
    rw [hsteps (.inl rfl), add_zero] at hframe
    exact .inl (by omega)
  | stepOver => exact .inr (by rw [hlive]; exact hA)

/-- Until a step ends the run is inside. -/
theorem inside_turns {mode : Mode} {t : VM W} {frame : ℕ} (hsteps : mode = .stepIn ∨ mode = .stepOver → frame = 0)
    (hframe : R.length + frame = t.callStack.length) (hmode : mode ≠ .run ∧ mode ≠ .entry) (hA : A ∉ R) {j : ℕ}
    (hx : x.Fits) (hin : Inside (A :: R) x) (h : x.turns P F io (j + 1) = some y)
    (hfirst : ∀ i z, i < j → x.turns P F io (i + 1) = some z → ¬ Target P mode t A z) : Inside (A :: R) y ∨ y.live = R := by
  induction j generalizing x with
  | zero =>
    obtain ⟨z, hz, h⟩ := Option.bind_eq_some_iff.mp h
    cases h
    exact hin.step hz
  | succ j ih =>
    obtain ⟨z, hz, h⟩ := Option.bind_eq_some_iff.mp h
    have hturn (i : ℕ) : x.turns P F io (i + 1) = z.turns P F io i := by rw [Followed.turns, hz, Option.bind_some]
    have hnot := hfirst 0 z (Nat.succ_pos j) (hturn 0)
    refine ih (hx.step hz) (inside_of_not_target hsteps hframe hmode hA (hx.step hz) (hin.step hz) hnot) h fun i u hi hu => ?_
    exact hfirst (i + 1) u (by omega) ((hturn (i + 1)).trans hu)

end Targets

section Stops

variable {W σ : Type} {P : CompiledProgram} {F : FloatOps} {io : ProgramIO W} {sep : Char} {front : FrontEnd W σ}

/-- Where a run resumed with this debugger stops next, and why. -/
structure NextStop (P : CompiledProgram) (F : FloatOps) (io : ProgramIO W) (pauses : ℕ → Bool) (k : ℕ) (d : State)
    (x : Followed W) (j : ℕ) (y : Followed W) (stop : Stop) : Prop where
  reached : x.turns P F io j = some y
  inCode : y.vm.pc < P.code.length
  stops : (d.stopAt P (pauses (k + j)) y.vm).1 = some stop
  first : ∀ i z, i < j → x.turns P F io i = some z → (d.stopAt P (pauses (k + i)) z.vm).1 = none

/-- The first instruction after `t` where a step is to end. -/
structure FirstTarget (P : CompiledProgram) (F : FloatOps) (io : ProgramIO W) (mode : Mode) (t : Followed W) (A : ℕ) (j : ℕ)
    (y : Followed W) : Prop where
  reached : t.turns P F io (j + 1) = some y
  inCode : y.vm.pc < P.code.length
  target : Target P mode t.vm A y
  first : ∀ i z, i < j → t.turns P F io (i + 1) = some z → ¬ Target P mode t.vm A z

/-- Neither a pause nor a breakpoint stops the run here. -/
def Quiet (pause : Bool) (d : State) (s : VM W) : Prop :=
  pause = false ∧ ∀ bp ∈ d.breakpoints, bp.pc = s.pc → bp.enabled = false

variable {d : State} {mode : Mode} {s : VM W} {pause : Bool}

theorem stopAt_quiet (hmode : d.mode = some mode) (h : Quiet pause d s) (hentry : mode ≠ .entry) : (d.stopAt P pause s).1 =
    if d.stepEnds P s mode then some { reason := .step, frame := innermost P s } else none := by
  have hnone : (d.breakpoints.find? fun bp => bp.pc = s.pc && bp.enabled) = none := by
    rw [List.find?_eq_none]
    intro bp hbp hhit
    simp only [Bool.and_eq_true, decide_eq_true_iff] at hhit
    rw [h.2 bp hbp hhit.1] at hhit
    exact Bool.false_ne_true hhit.2
  rw [State.stopAt, if_neg (by rw [h.1]; exact Bool.false_ne_true), hnone, hmode]
  dsimp only [Option.getD_some]
  split_ifs <;> rfl

/-- The hook passes only where the step does not end, and leaves the debugger as it was. -/
theorem stopAt_none (hmode : d.mode = some mode) (h : (d.stopAt P pause s).1 = none) :
    d.stepEnds P s mode = false ∧ (d.stopAt P pause s).2 = d := by
  unfold State.stopAt at h ⊢
  split_ifs at h ⊢ with hpause
  split at h
  · cases h
  · rw [hmode, Option.getD_some] at h ⊢
    dsimp only at h ⊢
    split_ifs at h ⊢ with hends
    exact ⟨Bool.eq_false_iff.mpr hends, rfl⟩

/-- A stop with reason STEP is made where the step ends. -/
theorem stopAt_step {stop : Stop} (hmode : d.mode = some mode) (h : (d.stopAt P pause s).1 = some stop) (hstep : stop.reason = .step) :
    d.stepEnds P s mode = true := by
  unfold State.stopAt at h
  split_ifs at h with hpause
  · cases h
    cases hstep
  · split at h
    · cases h
      cases hstep
    · rw [hmode, Option.getD_some] at h
      dsimp only at h
      by_cases hends : d.stepEnds P s mode = true
      · exact hends
      · rw [if_neg hends] at h
        cases h

theorem turns_succ {x z : Followed W} (hx : x.step P F io = some z) (i : ℕ) : x.turns P F io (i + 1) = z.turns P F io i := by
  rw [Followed.turns, hx, Option.bind_some]

theorem step_running {x z : Followed W} (h : x.step P F io = some z) :
    x.vm.pc < P.code.length ∧ x.vm.step P F io = .ok (.running z.vm) := by
  obtain ⟨i, hi, hs, -⟩ := step_inv h
  exact ⟨(List.getElem?_eq_some_iff.mp hi).1, hs⟩

/-- The next stop is the first one of the debugged loop. -/
theorem NextStop.asks {pauses : ℕ → Bool} {left : VM W → VM W} {k j n : ℕ} {x y : Followed W} {stop : Stop} {memory : σ}
    (hmode : d.mode = some mode) (h : NextStop P F io pauses k d x j y stop) (hn : j < n) :
    (debugLoop P F io sep front pauses left n k memory d x.vm).stops.head? =
      some (stopped front memory (d.stopAt P (pauses (k + j)) y.vm).2 y.vm stop) := by
  induction j generalizing x k n with
  | zero =>
    obtain ⟨n, rfl⟩ : ∃ n', n = n' + 1 := ⟨n - 1, by omega⟩
    cases h.reached
    have hstop := h.stops
    rw [Nat.add_zero] at hstop ⊢
    have hhook : (onInstruction P F sep front (pauses k) memory d y.vm).1 =
        [stopped front memory (d.stopAt P (pauses k) y.vm).2 y.vm stop] := by
      unfold onInstruction
      generalize d.stopAt P (pauses k) y.vm = r at hstop ⊢
      obtain ⟨_ | stop', d'⟩ := r
      · cases hstop
      · cases hstop
        rfl
    rw [debugLoop, if_pos h.inCode]
    dsimp only
    rw [hhook]
    split
    · rfl
    · split <;> rfl
  | succ j ih =>
    obtain ⟨n, rfl⟩ : ∃ n', n = n' + 1 := ⟨n - 1, by omega⟩
    obtain ⟨z, hz, -⟩ := Option.bind_eq_some_iff.mp h.reached
    obtain ⟨hcode, hrun⟩ := step_running hz
    have hpass := stopAt_none hmode (h.first 0 x (Nat.succ_pos j) rfl)
    have hhook : onInstruction P F sep front (pauses k) memory d x.vm = ([], .ok (memory, d, x.vm)) := by
      have hnone := h.first 0 x (Nat.succ_pos j) rfl
      have hsame := hpass.2
      rw [Nat.add_zero] at hnone hsame
      unfold onInstruction
      generalize d.stopAt P (pauses k) x.vm = r at hnone hsame ⊢
      obtain ⟨_ | stop', d'⟩ := r
      · cases hsame
        rfl
      · cases hnone
    have hrest : NextStop P F io pauses (k + 1) d z j y stop := by
      refine ⟨(turns_succ hz j).symm.trans h.reached, h.inCode, ?_, fun i u hi hu => ?_⟩
      · rw [Nat.add_right_comm]
        exact h.stops
      · rw [Nat.add_right_comm]
        exact h.first (i + 1) u (by omega) ((turns_succ hz i).trans hu)
    have hlater := ih hrest (show j < n by omega)
    rw [Nat.add_right_comm] at hlater
    rw [debugLoop, if_pos hcode, hhook]
    dsimp only
    rw [hrun]
    exact hlater

end Stops

section Choice

variable {W σ : Type} {P : CompiledProgram} {F : FloatOps} {sep : Char} {d : State} {s : VM W}

/-- The debugger has not been resumed yet, or goes as it was last told. -/
def Chosen (P : CompiledProgram) (d : State) (s : VM W) : Prop :=
  ∀ mode, d.mode = some mode → ∃ frameDepth : ℤ, d.fromDepth = s.callStack.length - frameDepth ∧ d.fromLine = lineAt P s

theorem Chosen.of_same {d' : State} (hd : Chosen P d s)
    (h : d'.mode = d.mode ∧ d'.fromDepth = d.fromDepth ∧ d'.fromLine = d.fromLine) : Chosen P d' s := by
  intro mode hmode
  rw [h.1] at hmode
  rw [h.2.1, h.2.2]
  exact hd mode hmode

theorem Chosen.add (hd : Chosen P d s) (pc fnIndex line : ℕ) : Chosen P (d.add P pc fnIndex line).2 s := by
  refine hd.of_same ?_
  unfold State.add
  split <;> exact ⟨rfl, rfl, rfl⟩

theorem Chosen.command {β : Type} (c : Command β) (hd : Chosen P d s) : Chosen P (c.run P F sep d s).2.1 s := by
  cases c with
  | resume mode frameDepth => exact fun _ _ => ⟨frameDepth, rfl, rfl⟩
  | breakAtFunction name =>
    unfold Command.run State.breakAtFunction
    dsimp only
    split
    · exact hd
    · exact hd.add _ _ _
  | breakAtLine line file =>
    unfold Command.run State.breakAtLine
    dsimp only
    generalize functionsInFile P sep _ = indices
    split
    · exact hd
    · split
      · exact hd
      · exact hd.add _ _ _
  | clearBreakpoints => exact hd
  | remove id =>
    unfold Command.run State.remove
    dsimp only
    split_ifs <;> exact hd
  | setEnabled id enabled =>
    unfold Command.run State.setEnabled
    dsimp only
    split <;> exact hd
  | frames | lookupName => exact hd
  | describeLocal frame info =>
    exact hd.of_same (by rw [Command.run, inspect_unchanged (reads_describeLocal P F frame info) d s]; exact ⟨rfl, rfl, rfl⟩)
  | childrenOf value =>
    exact hd.of_same (by rw [Command.run, inspect_unchanged (reads_childrenOf P F value) d s]; exact ⟨rfl, rfl, rfl⟩)
  | formatLocal frame info =>
    exact hd.of_same (by rw [Command.run, inspect_unchanged (reads_formatLocal P F frame info) d s]; exact ⟨rfl, rfl, rfl⟩)

theorem Chosen.session (session : Session σ) (hd : Chosen P d s) {r : σ × State × VM W}
    (h : session.run P F sep d s = .ok r) : Chosen P r.2.1 s := by
  induction session generalizing d with
  | returned memory =>
    cases h
    exact hd
  | quit => cases h
  | raised e => cases h
  | command c next ih =>
    rw [Session.run] at h
    dsimp only at h
    rw [c.run_unchanged] at h
    exact ih _ (hd.command c) h

/-- However a front end leaves a stop, it has told the debugger how to go on from there. -/
theorem resumed_goes {here : Stopped W σ} (hcleared : here.debugger.mode = none) {r : σ × State × VM W}
    (h : here.run P F sep = .ok r) : ∃ mode, ∃ frameDepth : ℤ, r.2.1.mode = some mode ∧
      r.2.1.fromDepth = here.vm.callStack.length - frameDepth ∧ r.2.1.fromLine = lineAt P here.vm := by
  have hcho : Chosen P here.debugger here.vm := fun mode hmode => by
    rw [hcleared] at hmode
    cases hmode
  unfold Stopped.run at h
  cases hs : here.session.run P F sep here.debugger here.vm with
  | error why =>
    rw [hs] at h
    cases h
  | ok v =>
    rw [hs] at h
    have hv := hcho.session _ hs
    dsimp only at h
    split_ifs at h with hnone
    cases h
    obtain ⟨mode, hmode⟩ := Option.ne_none_iff_exists'.mp hnone
    obtain ⟨frameDepth, hdepth, hline⟩ := hv mode hmode
    exact ⟨mode, frameDepth, hmode, hdepth, hline⟩

end Choice

section Exact

variable {W σ : Type} {P : CompiledProgram} {F : FloatOps} {io : ProgramIO W}

/-- While no stop comes first a step ends where it is to, and nowhere else: in a whole run
of a program, from any of its instructions, and for any activation there. -/
theorem stepping_exact (front : FrontEnd W σ) (sep : Char) (left : VM W → VM W) (memory : σ) {args : List String} {w : W} {s₀ : VM W}
    (hstart : VM.start P args w = .ok s₀) {m : ℕ} {t : Followed W} (hreach : (Followed.mk s₀ [0] 1).turns P F io m = some t)
    {d : State} {mode : Mode} {frame A : ℕ} (hgoes : d.Goes P mode t.vm frame) (hmode : mode ≠ .run ∧ mode ≠ .entry)
    (hsteps : mode = .stepIn ∨ mode = .stepOver → frame = 0) (hA : t.live[frame]? = some A) {x : Followed W}
    (hx : t.step P F io = some x) (pauses : ℕ → Bool) (k : ℕ) :
    (∀ j y stop, NextStop P F io pauses k d x j y stop → stop.reason = .step → FirstTarget P F io mode t A j y ∧
      (mode = .stepOver ∨ mode = .finish → A ∈ y.live → y.live.head? = some A)) ∧
    (∀ j y, FirstTarget P F io mode t A j y →
      (∀ i z, i ≤ j → x.turns P F io i = some z → Quiet (pauses (k + i)) d z.vm) →
      NextStop P F io pauses k d x j y { reason := .step, frame := innermost P y.vm }) ∧
    ∀ j y stop n, NextStop P F io pauses k d x j y stop → j < n →
      (debugLoop P F io sep front pauses left n k memory d x.vm).stops.head? =
        some (stopped front memory (d.stopAt P (pauses (k + j)) y.vm).2 y.vm stop) := by
  have hfits : t.Fits := (start_fits hstart).turns hreach
  obtain ⟨hlt, hget⟩ := List.getElem?_eq_some_iff.mp hA
  -- the callers of `A`
  obtain ⟨R, hR⟩ : ∃ R, t.live.drop frame = A :: R := ⟨_, by rw [List.drop_eq_getElem_cons hlt, hget]⟩
  have hin : Inside (A :: R) t := by
    rw [Inside, ← hR]
    exact List.drop_suffix frame t.live
  have hnotin : A ∉ R := by
    have hnodup := hfits.nodup.sublist (List.drop_sublist frame t.live)
    rw [hR] at hnodup
    exact (List.nodup_cons.mp hnodup).1
  have hframe : R.length + frame = t.vm.callStack.length := by
    have hlen := congrArg List.length hR
    have hdepth := hfits.depth
    rw [List.length_drop, List.length_cons] at hlen
    omega
  have htest {j : ℕ} {y : Followed W} (hy : t.turns P F io (j + 1) = some y)
      (hfirst : ∀ i z, i < j → t.turns P F io (i + 1) = some z → ¬ Target P mode t.vm A z) :
      d.stepEnds P y.vm mode = true ↔ Target P mode t.vm A y :=
    target_iff hgoes hsteps hframe hmode hnotin (hfits.turns hy) (inside_turns hsteps hframe hmode hnotin hfits hin hy hfirst)
  refine ⟨fun j y stop hnext hstep => ?_, fun j y htarget hquiet => ?_, fun j y stop n hnext hn => hnext.asks hgoes.mode hn⟩
  · have hreached := (turns_succ hx j).trans hnext.reached
    have hfirst (i : ℕ) : ∀ z, i < j → t.turns P F io (i + 1) = some z → ¬ Target P mode t.vm A z := by
      induction i using Nat.strong_induction_on with
      | _ i ih =>
        intro z hi hz htarget
        have hends := (htest hz fun i' z' hi' => ih i' hi' z' (hi'.trans hi)).mpr htarget
        rw [(stopAt_none hgoes.mode (hnext.first i z hi ((turns_succ hx i).symm.trans hz))).1] at hends
        exact Bool.false_ne_true hends
    have htarget := (htest hreached hfirst).mp (stopAt_step hgoes.mode hnext.stops hstep)
    refine ⟨⟨hreached, hnext.inCode, htarget, hfirst⟩, ?_⟩
    rintro (rfl | rfl) hlive
    · exact (htarget.resolve_right (not_not_intro hlive)).1
    · exact absurd hlive htarget
  · have hends {i : ℕ} {z : Followed W} (hi : i ≤ j) (hz : x.turns P F io i = some z) :
        d.stepEnds P z.vm mode = true ↔ Target P mode t.vm A z :=
      htest ((turns_succ hx i).trans hz) fun i' z' hi' => htarget.first i' z' (lt_of_lt_of_le hi' hi)
    have hreached := (turns_succ hx j).symm.trans htarget.reached
    refine ⟨hreached, htarget.inCode, ?_, fun i z hi hz => ?_⟩
    · rw [stopAt_quiet hgoes.mode (hquiet j y le_rfl hreached) hmode.2, if_pos ((hends le_rfl hreached).mpr htarget.target)]
    · have hnot := htarget.first i z hi ((turns_succ hx i).trans hz)
      rw [stopAt_quiet hgoes.mode (hquiet i z hi.le hz) hmode.2, if_neg (mt (hends hi.le hz).mp hnot)]

/-- `main` calls `tick` on line 1 and returns on line 2. -/
def calling : CompiledProgram where
  code := [.call 1, .pop, .pushInt 0, .ret, .pushInt 7, .ret]
  functions := [⟨"main", 0, 0, 0, [], [], [], "a.ql"⟩, ⟨"tick", 4, 0, 0, [], [], [], "a.ql"⟩]
  strings := []
  structs := []
  sourceMap := ⟨[(0, ⟨1, 1⟩), (2, ⟨2, 1⟩), (4, ⟨5, 1⟩)]⟩

/-- In `main`, after so many calls. -/
def callingAt (pc : ℕ) (stack : List Entry) (calls : ℕ) : Followed (List String) := ⟨{ pc := pc, stack := stack, io := [] }, [0], calls + 1⟩

/-- In `tick`, called from the first instruction. -/
def tickingAt (pc : ℕ) (stack : List Entry) : Followed (List String) :=
  ⟨{ pc := pc, stack := stack, currentFn := 1, callStack := [⟨1, [], 0, 0⟩], io := [] }, [1, 0], 2⟩

/-- Over the first line of `calling`, and so over the call. -/
theorem calling_stepOver : NextStop calling zeroFloats transcript (fun _ => false) 1
    (({} : State).resume calling .stepOver (callingAt 0 [] 0).vm 0) (tickingAt 4 []) 3 (callingAt 2 [] 1)
    { reason := .step, frame := innermost calling (callingAt 2 [] 1).vm } := by
  have hstart : VM.start calling [] [] = .ok (callingAt 0 [] 0).vm := rfl
  have hcall : (callingAt 0 [] 0).step calling zeroFloats transcript = some (tickingAt 4 []) := rfl
  have hpush : (tickingAt 4 []).step calling zeroFloats transcript = some (tickingAt 5 [⟨7, false⟩]) := rfl
  have hret : (tickingAt 5 [⟨7, false⟩]).step calling zeroFloats transcript = some (callingAt 1 [⟨7, false⟩] 1) := rfl
  have hpop : (callingAt 1 [⟨7, false⟩] 1).step calling zeroFloats transcript = some (callingAt 2 [] 1) := rfl
  have hreach : (Followed.mk (callingAt 0 [] 0).vm [0] 1).turns calling zeroFloats transcript 0 = some (callingAt 0 [] 0) := rfl
  refine (stepping_exact stepper '/' id [] hstart hreach (show State.Goes calling _ .stepOver _ 0 from ⟨rfl, rfl, rfl⟩)
    (by decide) (fun _ => rfl) rfl hcall _ _).2.1 3 _ ⟨?_, by decide, .inl ⟨rfl, by decide⟩, ?_⟩ ?_
  · rw [turns_succ hcall, turns_succ hpush, turns_succ hret, turns_succ hpop]
    rfl
  · intro i z hi hz
    rw [turns_succ hcall] at hz
    interval_cases i
    · -- in `tick`
      cases hz
      rintro (⟨hlive, -⟩ | hgone)
      · exact absurd hlive (by decide)
      · exact hgone (by decide)
    · rw [turns_succ hpush] at hz
      cases hz
      rintro (⟨hlive, -⟩ | hgone)
      · exact absurd hlive (by decide)
      · exact hgone (by decide)
    · -- back in `main`, on the same line
      rw [turns_succ hpush, turns_succ hret] at hz
      cases hz
      rintro (⟨-, hline⟩ | hgone)
      · exact hline rfl
      · exact hgone (by decide)
  · exact fun i z hi hz => ⟨rfl, fun bp hbp => absurd hbp List.not_mem_nil⟩

end Exact

end QuinLang.Debugger
