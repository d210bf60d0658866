import QuinLang.Compiler.StackRuns
import QuinLang.Debugger.Placing
import QuinLang.Runtime.Backtrace

/-! The call stack of a compiled program is the chain of its calls: every activation stands in
the code of its own function, and every suspended one at the call the next is in. -/

namespace QuinLang

open StateExcept Flow Debugger

section Ranges

variable {types : TypeTable} {names : List TypeName} {P : CompiledProgram}
  {emitted : List (FunctionLayout × ℕ × List Site)}

/-- The code of the functions lies end to end. -/
theorem emitFunctions_laid {pc : ℕ} {fns : List TFunction} {s s' : GenState}
    (h : emitFunctions types names pc fns s = .ok (emitted, s')) {i : ℕ} {e : FunctionLayout × ℕ × List Site}
    (hi : emitted[i]? = some e) : e.2.1 = pc + ((emitted.take i).flatMap fun e => e.2.2).length := by
  induction fns generalizing pc s s' emitted i with
  | nil =>
    obtain ⟨rfl, -⟩ := Prod.mk.inj (pure_ok.mp h)
    cases hi
  | cons fn fns ih =>
    obtain ⟨code, s₁, hcode, h⟩ := bind_ok.mp h
    obtain ⟨rest, s₂, hrest, h⟩ := bind_ok.mp h
    obtain ⟨rfl, -⟩ := Prod.mk.inj (pure_ok.mp h)
    cases i with
    | zero =>
      cases hi
      rfl
    | succ i =>
      rw [ih hrest hi, List.take_succ_cons, List.flatMap_cons, List.length_append]
      dsimp only
      omega

/-- The range of a function is the code emitted for it. -/
theorem functionRange_emitted (hlaid : ∀ i e, emitted[i]? = some e → e.2.1 = ((emitted.take i).flatMap fun e => e.2.2).length)
    (hfns : P.functions = emitted.map fun e => e.1.info e.2.1)
    (hcode : P.code.length = (emitted.flatMap fun e => e.2.2).length) {i : ℕ} {e : FunctionLayout × ℕ × List Site}
    (hi : emitted[i]? = some e) : functionRange P i = (e.2.1, e.2.1 + e.2.2.length) := by
  have hentry {j : ℕ} {e : FunctionLayout × ℕ × List Site} (hj : emitted[j]? = some e) : entryOf P j = e.2.1 := by
    rw [entryOf, hfns, List.getElem?_map, hj]
    rfl
  have hlen : P.functions.length = emitted.length := by rw [hfns, List.length_map]
  have hsucc {j : ℕ} {e : FunctionLayout × ℕ × List Site} (hj : emitted[j]? = some e) :
      ((emitted.take (j + 1)).flatMap fun e => e.2.2).length = e.2.1 + e.2.2.length := by
    rw [List.take_add_one, hj, List.flatMap_append, List.length_append, ← hlaid j e hj]
    simp
  obtain ⟨hlt, -⟩ := List.getElem?_eq_some_iff.mp hi
  rw [functionRange_eq ?_ (by omega), hentry hi]
  · congr 1
    split_ifs with hnext
    · have hget : emitted[i + 1]? = some emitted[i + 1] := List.getElem?_eq_getElem (by omega)
      rw [hentry hget, hlaid _ _ hget, hsucc hi]
    · have hall : emitted.take (i + 1) = emitted := List.take_of_length_le (by omega)
      rw [hcode, ← hsucc hi, hall]
  · -- the entries ascend
    refine List.pairwise_iff_getElem.mpr fun a b ha hb hab => ?_
    rw [List.length_range] at ha hb
    rw [List.getElem_range, List.getElem_range]
    have hga : emitted[a]? = some emitted[a] := List.getElem?_eq_getElem (by omega)
    have hgb : emitted[b]? = some emitted[b] := List.getElem?_eq_getElem (by omega)
    rw [hentry hga, hentry hgb, hlaid _ _ hga, hlaid _ _ hgb]
    exact ((List.take_sublist_take_left hab.le).flatMap _).length_le

end Ranges

/-- The pc is in the code of the function. -/
structure StandsIn (P : CompiledProgram) (i p : ℕ) : Prop where
  function : i < P.functions.length
  occupies : Occupies P i p

theorem StandsIn.unique {P : CompiledProgram} {i j p : ℕ} (h : StandsIn P i p) (h' : StandsIn P j p) : i = j :=
  h.occupies.unique h.function h'.function h'.occupies

/-- The points of a compiled program lie in the ranges of their functions. -/
theorem compile_occupied {fuel : ℕ} {program : Program} {g : Generated} (h : compile fuel program = .ok g) :
    ∃ S, Covers g S ∧ ∀ i p v, S i p v → StandsIn g.program i p := by
  obtain ⟨emitted, s, hem, hsites, hfns, S, hS, hin⟩ := compile_points h
  refine ⟨S, hS, fun i p v hp => ?_⟩
  obtain ⟨e, he, hlo, hhi⟩ := hin i p v hp
  have hrange := functionRange_emitted (P := g.program) (fun j e hj => by rw [emitFunctions_laid hem hj, Nat.zero_add]) hfns
    (by rw [hS.code, List.length_map, hsites]) he
  refine ⟨?_, ?_⟩
  · rw [hfns, List.length_map]
    exact (List.getElem?_eq_some_iff.mp he).1
  · rw [Occupies, hrange]
    exact ⟨hlo, hhi⟩

section Chains

/-- Each activation stands in its function, each but the innermost at a call of the one inside
it, and the outermost is main's. -/
inductive CallChain (P : CompiledProgram) : List (ℕ × ℕ) → Prop
  | main {i p : ℕ} : P.funcIndex "main" = some i → StandsIn P i p → CallChain P [(i, p)]
  | call {i p j q : ℕ} {rest : List (ℕ × ℕ)} : StandsIn P i p →
      P.code[q]? = some (.call i) ∨ P.code[q]? = some .callIndirect → CallChain P ((j, q) :: rest) →
      CallChain P ((i, p) :: (j, q) :: rest)

variable {P : CompiledProgram} {i p q : ℕ} {rest : List (ℕ × ℕ)}

theorem CallChain.moved (h : CallChain P ((i, p) :: rest)) (hq : StandsIn P i q) : CallChain P ((i, q) :: rest) := by
  cases h with
  | main hmain _ => exact .main hmain hq
  | call _ hcall hrest => exact .call hq hcall hrest

theorem CallChain.tail {j : ℕ} (h : CallChain P ((i, p) :: (j, q) :: rest)) : CallChain P ((j, q) :: rest) := by
  cases h with
  | call _ _ hrest => exact hrest

theorem CallChain.occupied {frames : List (ℕ × ℕ)} (h : CallChain P frames) : ∀ f ∈ frames, StandsIn P f.1 f.2 := by
  induction h with
  | main _ hp => exact List.forall_mem_singleton.mpr hp
  | call hp _ _ ih => exact List.forall_mem_cons.mpr ⟨hp, ih⟩

/-- The activations, innermost first, each with the pc it stands at. -/
def Outline.trace (o : Outline) : List (ℕ × ℕ) := (o.currentFn, o.pc) :: o.callers.map fun c => (c.2.2.1, c.1 - 1)

/-- The calls chain, and every suspended activation goes on after its call. -/
structure Chained (P : CompiledProgram) (o : Outline) : Prop where
  chain : CallChain P o.trace
  resumes : ∀ c ∈ o.callers, 0 < c.1

theorem Chained.stay {o : Outline} (h : Chained P o) (hq : StandsIn P o.currentFn q) : Chained P { o with pc := q } :=
  ⟨h.chain.moved hq, h.resumes⟩

section Runs

variable {W : Type} {F : FloatOps} {io : ProgramIO W} {s s' : VM W} {g : Generated} {S : ℕ → Points Point}

/-- Into a function from the call the machine stands at. -/
theorem Chained.enter {f : ℕ} {name : String} {u : Unit} {t : VM W} (h : Chained P s.outline)
    (hcall : P.code[s.pc]? = some (.call f) ∨ P.code[s.pc]? = some .callIndirect)
    (ht : t.outline = { s.outline with pc := s.pc + 1 }) (hq : StandsIn P s'.currentFn s'.pc)
    (hexec : enterFunction P f name t = .ok (u, s')) : Chained P s'.outline := by
  obtain ⟨fn, -, -, -, hfn', -, -, -, hcallers'⟩ := enterFunction_ok hexec
  have hfn : t.currentFn = s.currentFn := congrArg Outline.currentFn ht
  have hpc : t.pc = s.pc + 1 := congrArg Outline.pc ht
  have hcallers : t.callStack.map Frame.outline = s.callStack.map Frame.outline := congrArg Outline.callers ht
  rw [hcallers, hpc, hfn] at hcallers'
  refine ⟨?_, ?_⟩
  · show CallChain P ((s'.currentFn, s'.pc) :: (s'.callStack.map Frame.outline).map fun c => (c.2.2.1, c.1 - 1))
    rw [hcallers', List.map_cons]
    exact .call hq (hfn' ▸ hcall) h.chain
  · show ∀ c ∈ s'.callStack.map Frame.outline, 0 < c.1
    rw [hcallers']
    exact List.forall_mem_cons.mpr ⟨Nat.succ_pos _, h.resumes⟩

/-- Back to the caller, past its call. -/
theorem Chained.back {t : VM W} (h : Chained P s.outline) (ht : t.outline = { s.outline with pc := s.pc + 1 })
    (hq : StandsIn P s'.currentFn s'.pc) (hexec : return_ t = .ok (none, s')) : Chained P s'.outline := by
  obtain ⟨-, -, frame, frames, hcalls, hcalls', -, -, hfn', -⟩ := return_ok hexec
  have hcallers : s.outline.callers = frame.outline :: frames.map Frame.outline := by
    have : t.callStack.map Frame.outline = s.outline.callers := congrArg Outline.callers ht
    rw [← this, hcalls]
    rfl
  have hchain := h.chain
  have hresumes := h.resumes
  rw [Outline.trace, hcallers] at hchain
  rw [hcallers] at hresumes
  refine ⟨?_, ?_⟩
  · show CallChain P ((s'.currentFn, s'.pc) :: (s'.callStack.map Frame.outline).map fun c => (c.2.2.1, c.1 - 1))
    rw [hfn'] at hq ⊢
    rw [hcalls']
    exact hchain.tail.moved hq
  · show ∀ c ∈ s'.callStack.map Frame.outline, 0 < c.1
    rw [hcalls']
    exact (List.forall_mem_cons.mp hresumes).2

variable (hin : ∀ i p v, S i p v → StandsIn g.program i p)
include hin

theorem OnTrack.occupied (h : OnTrack g S False s) : StandsIn g.program s.currentFn s.pc := by
  obtain ⟨v, hv, -⟩ := h.point
  exact hin _ _ v hv

variable (hS : Covers g S)
include hS

/-- One turn of the loop keeps the calls chained. -/
theorem Chained.step (htrack : OnTrack g S False s) (h : Chained g.program s.outline)
    (hstep : s.step g.program F io = .ok (.running s')) : Chained g.program s'.outline := by
  have hq := (htrack.step hS False.elim hstep).occupied hin
  obtain ⟨v, hv, -⟩ := htrack.point
  obtain ⟨-, -, instr, -, -, -, hcode, -, -⟩ := hS.instr hv
  -- jumps and plain instructions leave the frames alone
  have hstay (hout : s'.outline = { s.outline with pc := s'.pc }) : Chained g.program s'.outline := by
    have hfn : s'.currentFn = s.currentFn := congrArg Outline.currentFn hout
    rw [hfn] at hq
    rw [hout]
    exact h.stay hq
  cases hc : instr.isControl with
  | false =>
    have hret : instr ≠ .ret := by
      rintro rfl
      cases hc
    obtain ⟨u, hexec⟩ := step_execute hcode hret hstep
    obtain ⟨-, -, hout⟩ := execute_effect g.program F io instr hc _ _ _ hexec
    have hpc : s'.pc = s.pc + 1 := congrArg Outline.pc hout
    exact hstay (by rw [hout, hpc]; rfl)
  | true =>
    cases instr with
    | jmp target =>
      obtain ⟨u, hexec⟩ := step_execute hcode (by simp) hstep
      cases hexec
      exact hstay rfl
    | jz target | jnz target =>
      obtain ⟨u, hexec⟩ := step_execute hcode (by simp) hstep
      exact hstay (branch_ok hexec).2.1
    | call f =>
      obtain ⟨u, hexec⟩ := step_execute hcode (by simp) hstep
      exact h.enter (.inl hcode) rfl hq hexec
    | callIndirect =>
      obtain ⟨u, hexec⟩ := step_execute hcode (by simp) hstep
      obtain ⟨n, t, hpop, hexec⟩ := bind_ok.mp hexec
      obtain ⟨e, -, rfl, hout⟩ := pop_ok hpop
      exact h.enter (.inr hcode) hout hq hexec
    | ret => exact h.back rfl hq (step_return hcode hstep)
    | _ => cases hc

theorem Chained.steps {n : ℕ} (htrack : OnTrack g S False s) (h : Chained g.program s.outline)
    (hrun : s.steps g.program F io n = .ok (.running s')) : Chained g.program s'.outline := by
  induction n generalizing s with
  | zero =>
    cases hrun
    exact h
  | succ n ih =>
    unfold VM.steps at hrun
    split at hrun
    · cases hrun
    · cases hrun
    · rename_i t hstep
      exact ih (htrack.step hS False.elim hstep) (h.step hin hS htrack hstep) hrun

omit hin hS in
theorem start_main {P : CompiledProgram} {args : List String} {w : W} (h : VM.start P args w = .ok s) :
    P.funcIndex "main" = some s.currentFn := by
  unfold VM.start at h
  split at h
  · cases h
  · rename_i idx hidx
    split at h
    · cases h
    · split at h
      · cases h
      · cases h
        exact hidx

theorem Chained.run {args : List String} {w : W} {n : ℕ} (hrun : runMain g.program F io args w n = .ok (.running s)) :
    Chained g.program s.outline := by
  unfold runMain at hrun
  split at hrun
  · cases hrun
  · rename_i s₀ hs₀
    have htrack : OnTrack g S False s₀ := OnTrack.start hS hs₀
    obtain ⟨-, -, -, -, -, -, hcalls⟩ := start_ok hs₀
    refine Chained.steps hin hS htrack ⟨?_, ?_⟩ hrun
    · rw [Outline.trace, VM.outline, hcalls]
      exact .main (start_main hs₀) (htrack.occupied hin)
    · rw [VM.outline, hcalls]
      exact List.forall_mem_nil _

end Runs

theorem framesOf_places {W : Type} (P : CompiledProgram) (s : VM W) :
    (framesOf P s).map (fun view => (view.fnIndex, view.pc)) =
      (s.currentFn, (s.pc : ℤ)) :: s.callStack.map fun frame => (frame.fnIndex, (frame.returnPc : ℤ) - 1) := by
  unfold framesOf
  dsimp only
  rw [List.map_map]
  show List.map ((fun e : ℕ × ℤ × List ℕ => (e.1, e.2.1)) ∘ Prod.fst) _ = _
  rw [← List.map_map, List.zipIdx_map_fst, List.map_cons, List.map_map]
  rfl

/-- The frames of a backtrace and those the debugger shows are the chain of the calls, the
innermost standing at the instruction that faulted. -/
theorem backtrace_exact {fuel : ℕ} {program : Program} {g : Generated} (h : compile fuel program = .ok g) {W : Type}
    {F : FloatOps} {io : ProgramIO W} {args : List String} {w : W} {n : ℕ} {s : VM W}
    (hrun : runMain g.program F io args w n = .ok (.running s)) :
    CallChain g.program s.outline.trace ∧
      (framesOf g.program s).map (fun view => (view.fnIndex, view.pc)) = s.outline.trace.map (fun f => (f.1, (f.2 : ℤ))) ∧
      ∀ short fault, s.faulted g.program short F io = some fault →
        fault.frames = s.outline.trace.map (fun f => (f.1, (f.2 : ℤ))) := by
  obtain ⟨S, hS, hin⟩ := compile_occupied h
  obtain ⟨hchain, hresumes⟩ := Chained.run hin hS hrun
  have hcallers : (s.callStack.map fun frame => (frame.fnIndex, (frame.returnPc : ℤ) - 1)) =
      (s.outline.callers.map fun c => ((c.2.2.1, c.1 - 1) : ℕ × ℕ)).map fun f => (f.1, (f.2 : ℤ)) := by
    rw [VM.outline, List.map_map, List.map_map]
    refine List.map_congr_left fun frame hframe => ?_
    have hpos := hresumes frame.outline (List.mem_map_of_mem hframe)
    simp only [Function.comp, Frame.outline] at hpos ⊢
    rw [Nat.cast_sub hpos, Nat.cast_one]
  refine ⟨hchain, ?_, fun short fault hfault => ?_⟩
  · rw [framesOf_places, Outline.trace, List.map_cons, ← hcallers]
    rfl
  · unfold VM.faulted at hfault
    split at hfault
    · cases hfault
      rw [Outline.trace, List.map_cons, ← hcallers]
      simp [VM.locate, VM.callFrames, VM.outline]
    · cases hfault

/-- `fn f(x: int): int { return 1 / x; }`, and a `main` that prints `f(0)`. -/
def dividingSource : Program :=
  { functions := [
      { name := "f", params := [⟨"x", .named "int", ⟨1, 6⟩⟩], returnType := some (.named "int")
        body := [.return_ ⟨1, 21⟩ (some (.binary ⟨1, 30⟩ (.literal ⟨1, 28⟩ (.int 1)) .div
          (.identifier ⟨1, 32⟩ (.plain "x"))))], pos := ⟨1, 1⟩ },
      { name := "main", params := [], returnType := none
        body := [.println ⟨3, 3⟩ (.call ⟨3, 11⟩ (.plain "f") [.literal ⟨3, 13⟩ (.int 0)] [])], pos := ⟨2, 1⟩ }] }

/-- The frames of the fault the program ends in after `n` turns of the loop. -/
def faultFrames (program : Program) (n : ℕ) : Option (List (ℕ × ℤ)) :=
  match compile 1 program with
  | .error _ => none
  | .ok g =>
    match runMain g.program zeroFloats transcript [] [] n with
    | .ok (.running s) => (s.faulted g.program id zeroFloats transcript).map Located.frames
    | _ => none

theorem dividing_frames : faultFrames dividingSource 4 = some [(0, 2), (1, 7)] := by decide +kernel

theorem dividing_backtrace : ∃ g s fault, compile 1 dividingSource = .ok g ∧
    runMain g.program zeroFloats transcript [] [] 4 = .ok (.running s) ∧
    s.faulted g.program id zeroFloats transcript = some fault ∧ fault.frames = [(0, 2), (1, 7)] ∧
    CallChain g.program s.outline.trace ∧
    (framesOf g.program s).map (fun view => (view.fnIndex, view.pc)) = s.outline.trace.map (fun f => (f.1, (f.2 : ℤ))) ∧
    fault.frames = s.outline.trace.map (fun f => (f.1, (f.2 : ℤ))) := by
  have h := dividing_frames
  unfold faultFrames at h
  split at h
  · cases h
  · rename_i g hg
    split at h
    · rename_i s hrun
      obtain ⟨fault, hfault, hframes⟩ := Option.map_eq_some_iff.mp h
      obtain ⟨hchain, hshown, hall⟩ := backtrace_exact hg hrun
      exact ⟨g, s, fault, hg, hrun, hfault, hframes, hchain, hshown, hall id fault hfault⟩
    · cases h

end Chains

end QuinLang
