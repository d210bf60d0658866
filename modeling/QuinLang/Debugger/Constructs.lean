import QuinLang.Compiler.Backtraces
import QuinLang.Debugger.Stepping
import QuinLang.Lib.Worklist

/-! Where the constructs of a line begin in the code, and the ways on which control can come to
them; every run keeps to these ways. -/

namespace QuinLang.Debugger

open StateExcept Flow

section Constructs

variable (C : GenContext)

/-- How much code is emitted. -/
def emittedLength (x : Gen (List Site)) : ℕ :=
  match x {} with
  | .ok (code, _) => code.length
  | .error _ => 0

/-- The condition, the body and the step of a `for`, from the pc that is repeated. -/
def loopStarts (live : List Symbol) (pc : ℕ) (cond : Option TExpr) (step : Option TSimple) (body : ℕ → List (ℕ × ℕ))
    (emitBody : ℕ → Gen (List Site)) : List (ℕ × ℕ) :=
  let bodyPc := match cond with
    | some cond => pc + emittedLength (emitExpr C live none pc [] cond) + 1
    | none => pc
  let stepPc := bodyPc + emittedLength (emitBody bodyPc)
  (cond.toList.map fun cond => (pc, cond.pos.line)) ++ body bodyPc ++ step.toList.map fun step => (stepPc, step.pos.line)

mutual
/-- The pcs at which the statements, loop conditions and steps of a statement begin when it
is emitted for `pc`, each with its line. -/
def stmtStarts (loop : Option LoopContext) (live : List Symbol) (pc : ℕ) : TStmt → List (ℕ × ℕ)
  | .if_ pos cond thenBlock elseBlock =>
    let thenPc := pc + emittedLength (emitExpr C live none pc [] cond) + 1
    let elsePc := thenPc + emittedLength (emitBlock C loop live none thenPc thenBlock) + 1
    (pc, pos.line) :: blockStarts loop live thenPc thenBlock ++ blockStarts loop live elsePc elseBlock
  | .while_ pos cond body =>
    let bodyPc := pc + emittedLength (emitExpr C live none pc [] cond) + 1
    (pc, pos.line) :: (pc, cond.pos.line) :: blockStarts (some { live := live }) live bodyPc body
  | .for_ pos none cond step body _ =>
    (pc, pos.line) :: loopStarts C live pc cond step (fun pc => blockStarts (some { live := live }) live pc body)
      fun pc => emitBlock C (some { live := live }) live none pc body
  | .for_ pos (some init) cond step body refs =>
    let outer := loop.map (LoopContext.enter refs)
    let inner := liveAfter live init
    (pc, pos.line) :: stmtStarts outer live pc init
      ++ loopStarts C inner (pc + emittedLength (emitStmt C outer live none pc init)) cond step
        (fun pc => blockStarts (some { live := inner }) inner pc body)
        fun pc => emitBlock C (some { live := inner }) inner none pc body
  | .match_ pos subject arms =>
    let armsPc := pc + emittedLength (emitExpr C live none pc [] subject) + 2
    let restPc := armsPc + emittedLength (emitArms C loop live none subject.type armsPc arms) + 2
    (pc, pos.line) :: armsStarts loop live subject.type armsPc arms ++ catchAllStarts loop live restPc arms
  | .block pos body => (pc, pos.line) :: blockStarts loop live pc body
  | st => [(pc, st.pos.line)]

def stmtsStarts (loop : Option LoopContext) (live : List Symbol) (pc : ℕ) : List TStmt → List (ℕ × ℕ)
  | [] => []
  | st :: sts => stmtStarts loop live pc st
      ++ stmtsStarts loop (liveAfter live st) (pc + emittedLength (emitStmt C loop live none pc st)) sts

def blockStarts (loop : Option LoopContext) (live : List Symbol) (pc : ℕ) : TBlock → List (ℕ × ℕ)
  | .mk stmts refs => stmtsStarts (loop.map (LoopContext.enter refs)) live pc stmts

def armsStarts (loop : Option LoopContext) (live : List Symbol) (subject : Ty) (pc : ℕ) : List TArm → List (ℕ × ℕ)
  | [] => []
  | .mk _ none _ _ :: arms => armsStarts loop live subject pc arms
  | .mk pos (some v) bindings (.mk stmts refs) :: arms =>
    let inner := bindings.reverse ++ live
    let bodyPc := pc + 5 + emittedLength (bindPayload C v.typeId pos live bindings v.fields) + 1
    let armLoop := loop.map (LoopContext.enter refs)
    let nextPc := bodyPc + emittedLength (emitStmts C armLoop inner none bodyPc stmts)
      + (releaseScope live C.layout refs).length + 1
    stmtsStarts armLoop inner bodyPc stmts ++ armsStarts loop live subject nextPc arms

def catchAllStarts (loop : Option LoopContext) (live : List Symbol) (pc : ℕ) : List TArm → List (ℕ × ℕ)
  | [] => []
  | .mk _ none _ (.mk stmts refs) :: _ => stmtsStarts (loop.map (LoopContext.enter refs)) live pc stmts
  | .mk _ (some _) _ _ :: arms => catchAllStarts loop live pc arms
end

variable (g : Generated)

def functionStarts (i : ℕ) : List (ℕ × ℕ) :=
  match g.functions[i]? with
  | some fn => stmtsStarts ⟨g.types, g.functions.map TFunction.name, buildLayout fn, fn.sig.ret⟩ none
      (fn.frame.take fn.numParams).reverse (entryOf g.program i) fn.body
  | none => []

/-- The files and lines of the constructs that begin at a pc. -/
def begun (pc : ℕ) : List (String × ℕ) :=
  (List.range g.functions.length).flatMap fun i =>
    ((functionStarts g i).filter fun s => s.1 = pc).map fun s => (sourceFile g.program i, s.2)

end Constructs

section Ways

variable (g : Generated) (path : String) (line : ℕ)

/-- The functions that an instruction may call. -/
def callees : Instruction → List ℕ
  | .call f => [f]
  | .callIndirect => List.range g.program.functions.length
  | _ => []

/-- The function has a construct in its code, or a call. -/
def beginsOne (f : ℕ) : Bool :=
  (List.range g.program.code.length).any fun pc => decide (Occupies g.program f pc) &&
    (!(begun g pc).isEmpty || (g.program.code[pc]?).any fun i => !(callees g i).isEmpty)

/-- Whether the construct begun last is off the line or of another activation, the instruction
at the pc having been run: a construct that begins there is of this activation. -/
def passed (pc : ℕ) (away : Bool) : Bool := if begun g pc = [] then away else decide ((path, line) ∉ begun g pc)

/-- Where control can go from an instruction, and whether the construct begun last is then
off the line or of another activation. What a function that is called begins first is begun
in a new activation, and if it `begins` any, that is the last when it returns. -/
def onward (begins : ℕ → Bool) (p : ℕ × Bool) : List (ℕ × Bool) :=
  match g.program.code[p.1]? with
  | none | some .ret | some .panic => []
  | some (.jmp target) => [(target, passed g path line p.1 p.2)]
  | some (.jz target) | some (.jnz target) => [(target, passed g path line p.1 p.2), (p.1 + 1, passed g path line p.1 p.2)]
  | some i =>
    (p.1 + 1, passed g path line p.1 p.2) ::
      (callees g i).flatMap fun f => (entryOf g.program f, true) :: if begins f then [(p.1 + 1, true)] else []

/-- Control can come to the pc from the start of `main`. -/
def Comes (pc : ℕ) (away : Bool) : Prop :=
  Worklist.Reach some (onward g path line (beginsOne g)) (fun p => ∃ i, g.program.funcIndex "main" = some i ∧ p = (entryOf g.program i, true)) (pc, away)

/-- The lowest pc with a marker of the line in the functions of the file. -/
structure FirstOnLine (sep : Char) (pc : ℕ) : Prop where
  marked : ∃ i ∈ functionsInFile g.program sep path, Marked g.program i line pc
  lowest : ∀ i ∈ functionsInFile g.program sep path, ∀ pc', Marked g.program i line pc' → pc ≤ pc'

/-- Wherever control can come from elsewhere to a construct of the line, that construct is at
the first marker of the line. -/
def OneWayIn (sep : Char) : Prop :=
  ∀ pc, Comes g path line pc true → (path, line) ∈ begun g pc → FirstOnLine g path line sep pc

variable {g path line}

theorem Comes.step {pc pc' : ℕ} {away away' : Bool} (h : Comes g path line pc away) (hmem : (pc', away') ∈ onward g path line (beginsOne g) (pc, away)) :
    Comes g path line pc' away' :=
  Worklist.Reach.step h hmem rfl

theorem onward_mono {begins begins' : ℕ → Bool} (h : ∀ f, begins f = true → begins' f = true) {p q : ℕ × Bool}
    (hq : q ∈ onward g path line begins p) : q ∈ onward g path line begins' p := by
  unfold onward at hq ⊢
  split at hq
  all_goals try exact hq
  rcases List.mem_cons.mp hq with rfl | hq
  · exact List.mem_cons_self
  · obtain ⟨f, hf, hq⟩ := List.mem_flatMap.mp hq
    refine List.mem_cons_of_mem _ (List.mem_flatMap.mpr ⟨f, hf, ?_⟩)
    rcases List.mem_cons.mp hq with rfl | hq
    · exact List.mem_cons_self
    · split at hq
      · rename_i hbegins
        rw [if_pos (h f hbegins)]
        exact List.mem_cons_of_mem _ hq
      · cases hq

/-- A set of places that no way leaves holds all that control can come to. -/
theorem Comes.mem {places : List (ℕ × Bool)} {i : ℕ} (hmain : g.program.funcIndex "main" = some i) (hstart : (entryOf g.program i, true) ∈ places)
    (hclosed : ∀ p ∈ places, ∀ q ∈ onward g path line (fun _ => true) p, q ∈ places) {pc : ℕ} {away : Bool} (h : Comes g path line pc away) :
    (pc, away) ∈ places := by
  have hfrontier : Worklist.Frontier some (onward g path line (beginsOne g)) places [] := by
    rintro p hp q hq r hr
    cases hr
    exact .inl (hclosed p hp q (onward_mono (fun _ _ => rfl) hq))
  refine hfrontier.complete ?_ h
  rintro p ⟨j, hj, rfl⟩ q hq
  cases hq
  obtain rfl := Option.some.inj (hmain.symm.trans hj)
  exact hstart

theorem onward_next {pc : ℕ} {away : Bool} {i : Instruction} (hcode : g.program.code[pc]? = some i) (hi : i.isControl = false) (hp : i ≠ .panic) :
    (pc + 1, passed g path line pc away) ∈ onward g path line (beginsOne g) (pc, away) := by
  unfold onward
  rw [hcode]
  cases i <;> first | (cases hi; done) | exact absurd rfl hp | exact List.mem_cons_self

theorem onward_call {pc f : ℕ} {away : Bool} {i : Instruction} (hcode : g.program.code[pc]? = some i) (hf : f ∈ callees g i) :
    (pc + 1, passed g path line pc away) ∈ onward g path line (beginsOne g) (pc, away) ∧
      (entryOf g.program f, true) ∈ onward g path line (beginsOne g) (pc, away) ∧
      (beginsOne g f = true → (pc + 1, true) ∈ onward g path line (beginsOne g) (pc, away)) := by
  have hcall : onward g path line (beginsOne g) (pc, away) = (pc + 1, passed g path line pc away) ::
      (callees g i).flatMap fun f => (entryOf g.program f, true) :: if beginsOne g f then [(pc + 1, true)] else [] := by
    unfold onward
    rw [hcode]
    cases i <;> first | rfl | cases hf
  rw [hcall]
  refine ⟨List.mem_cons_self, List.mem_cons_of_mem _ (List.mem_flatMap.mpr ⟨f, hf, List.mem_cons_self⟩), fun hbegins => ?_⟩
  refine List.mem_cons_of_mem _ (List.mem_flatMap.mpr ⟨f, hf, List.mem_cons_of_mem _ ?_⟩)
  rw [if_pos hbegins]
  exact List.mem_singleton.mpr rfl

/-- What its markers say of where a line begins. -/
theorem FirstOnLine.of_markers {sep : Char} {i pc : ℕ} {pos : Pos} (hi : i ∈ functionsInFile g.program sep path) (hat : Occupies g.program i pc)
    (hmem : (pc, pos) ∈ g.program.sourceMap.markers) (hline : pos.line = line)
    (hlow : ∀ m ∈ g.program.sourceMap.markers, m.2.line = line → pc ≤ m.1) : FirstOnLine g path line sep pc :=
  ⟨⟨i, hi, hat, pos, hmem, hline⟩, fun _ _ _ hmarked => by
    obtain ⟨-, pos', hmem', hline'⟩ := hmarked
    exact hlow _ hmem' hline'⟩

theorem beginsOne_of {f pc : ℕ} (hat : StandsIn g.program f pc) {i : Instruction} (hcode : g.program.code[pc]? = some i)
    (h : begun g pc ≠ [] ∨ callees g i ≠ []) : beginsOne g f = true := by
  refine List.any_eq_true.mpr ⟨pc, List.mem_range.mpr (List.getElem?_eq_some_iff.mp hcode).1, ?_⟩
  rw [hcode]
  simpa [hat.occupies] using h

end Ways

section Runs

variable {W : Type} {g : Generated} {path : String} {line : ℕ} {F : FloatOps} {io : ProgramIO W}

/-- The construct begun last is off the line or of another activation than `A`. -/
def LastAway (g : Generated) (path : String) (line : ℕ) (past : List (Followed W)) (A : Option ℕ) : Prop :=
  ∀ x ∈ past.find? fun x => begun g x.vm.pc ≠ [], (path, line) ∉ begun g x.vm.pc ∨ x.live.head? ≠ A

/-- Where the activations go on, the innermost first. -/
def pcs (x : Followed W) : List ℕ := x.vm.pc :: x.vm.callStack.map Frame.returnPc

variable {x y : Followed W} {past : List (Followed W)} {A : Option ℕ}

theorem lastAway_cons : LastAway g path line (x :: past) A ↔
    if begun g x.vm.pc = [] then LastAway g path line past A else (path, line) ∉ begun g x.vm.pc ∨ x.live.head? ≠ A := by
  unfold LastAway
  rw [List.find?_cons]
  by_cases hnone : begun g x.vm.pc = []
  · simp [hnone]
  · simp [hnone]

/-- For the activation that runs it is as the instruction passed it. -/
theorem LastAway.own (h : LastAway g path line (x :: past) x.live.head?) {away : Bool} (haway : LastAway g path line past x.live.head? → away = true) :
    passed g path line x.vm.pc away = true := by
  rw [lastAway_cons] at h
  unfold passed
  split at h
  · rw [if_pos ‹_›]
    exact haway h
  · rw [if_neg ‹_›]
    simpa using h

/-- What an instruction does to the ways of the activations: the running one goes on, or calls,
or returns. -/
theorem step_onward (hstep : x.step g.program F io = some y) :
    (y.live = x.live ∧ y.vm.currentFn = x.vm.currentFn ∧ ∃ pc, pcs y = pc :: (pcs x).tail ∧
      ∀ away, (pc, passed g path line x.vm.pc away) ∈ onward g path line (beginsOne g) (x.vm.pc, away)) ∨
    (y.live = x.next :: x.live ∧ pcs y = entryOf g.program y.vm.currentFn :: (x.vm.pc + 1) :: (pcs x).tail ∧
      ∃ i, g.program.code[x.vm.pc]? = some i ∧ y.vm.currentFn ∈ callees g i) ∨
    (y.live = x.live.tail ∧ pcs y = (pcs x).tail) := by
  obtain ⟨i, hi, hs, hy⟩ := step_inv hstep
  -- a turn that leaves the calls alone
  have hstay {pc : ℕ} (hlive : y.live = x.live) (hout : y.vm.outline = { x.vm.outline with pc := pc })
      (hmem : ∀ away, (pc, passed g path line x.vm.pc away) ∈ onward g path line (beginsOne g) (x.vm.pc, away)) :
      y.live = x.live ∧ y.vm.currentFn = x.vm.currentFn ∧ ∃ pc, pcs y = pc :: (pcs x).tail ∧
        ∀ away, (pc, passed g path line x.vm.pc away) ∈ onward g path line (beginsOne g) (x.vm.pc, away) := by
    have hcallers : (y.vm.callStack.map Frame.outline).map Prod.fst = (x.vm.callStack.map Frame.outline).map Prod.fst :=
      congrArg (fun o => o.callers.map Prod.fst) hout
    rw [List.map_map, List.map_map] at hcallers
    have hpc : y.vm.pc = pc := congrArg Outline.pc hout
    refine ⟨hlive, congrArg Outline.currentFn hout, pc, ?_, hmem⟩
    rw [pcs, pcs, hpc]
    exact congrArg (pc :: ·) hcallers
  -- a call
  have hcall {f : ℕ} {name : String} {t : VM W} {u : Unit} (hlive : y.live = x.next :: x.live)
      (ht : t.outline = { x.vm.outline with pc := x.vm.pc + 1 }) (hf : f < g.program.functions.length → f ∈ callees g i)
      (hexec : enterFunction g.program f name t = .ok (u, y.vm)) :
      y.live = x.next :: x.live ∧ pcs y = entryOf g.program y.vm.currentFn :: (x.vm.pc + 1) :: (pcs x).tail ∧
        ∃ i, g.program.code[x.vm.pc]? = some i ∧ y.vm.currentFn ∈ callees g i := by
    obtain ⟨fn, hfn, -, -, hcur, -, -, hpc, hcallers⟩ := enterFunction_ok hexec
    have ht' : t.callStack.map Frame.outline = x.vm.callStack.map Frame.outline := congrArg Outline.callers ht
    have hret : t.pc = x.vm.pc + 1 := congrArg Outline.pc ht
    have hrest := congrArg (List.map Prod.fst) hcallers
    rw [ht', hret, List.map_cons, List.map_map, List.map_map] at hrest
    refine ⟨hlive, ?_, i, hi, hcur ▸ hf (List.getElem?_eq_some_iff.mp hfn).1⟩
    rw [pcs, pcs, hpc, hcur, entryOf, hfn]
    exact congrArg (fn.entryPc :: ·) hrest
  cases hc : i.isControl with
  | false =>
    have hret : i ≠ .ret := by
      rintro rfl
      cases hc
    obtain ⟨u, hexec⟩ := step_execute hi hret hs
    have hpanic : i ≠ .panic := by
      rintro rfl
      exact panic_stops hexec
    refine .inl (hstay ?_ (execute_effect g.program F io i hc _ _ _ hexec).2.2 fun away => onward_next hi hc hpanic)
    rw [hy]
    cases i <;> first | rfl | cases hc
  | true =>
    cases i with
    | jmp target =>
      obtain ⟨u, hexec⟩ := step_execute hi (by simp) hs
      obtain ⟨-, hmod⟩ := Prod.mk.inj (StateExcept.modify_ok.mp hexec)
      refine .inl (hstay (by rw [hy]; rfl) (by rw [← hmod]; rfl) fun away => ?_)
      unfold onward
      rw [hi]
      exact List.mem_singleton.mpr rfl
    | jz target | jnz target =>
      obtain ⟨u, hexec⟩ := step_execute hi (by simp) hs
      obtain ⟨hpc, hout, -⟩ := branch_ok hexec
      refine .inl (hstay (by rw [hy]; rfl) hout fun away => ?_)
      unfold onward
      rw [hi]
      rcases hpc with hpc | hpc <;> simp [hpc]
    | call f =>
      obtain ⟨u, hexec⟩ := step_execute hi (by simp) hs
      exact .inr (.inl (hcall (by rw [hy]; rfl) rfl (fun _ => List.mem_singleton.mpr rfl) hexec))
    | callIndirect =>
      obtain ⟨u, hexec⟩ := step_execute hi (by simp) hs
      obtain ⟨n, t, hpop, hexec⟩ := bind_ok.mp hexec
      obtain ⟨e, -, rfl, hout⟩ := pop_ok hpop
      exact .inr (.inl (hcall (by rw [hy]; rfl) hout (fun hf => List.mem_range.mpr hf) hexec))
    | ret =>
      obtain ⟨-, -, frame, frames, hcalls, hcalls', -, -, -, hpc⟩ := return_ok (step_return hi hs)
      have hcalls : x.vm.callStack = frame :: frames := hcalls
      refine .inr (.inr ⟨by rw [hy]; rfl, ?_⟩)
      rw [pcs, pcs, hcalls, hcalls', hpc]
      rfl
    | _ => cases hc

/-- Every activation goes on at a place that control can come to, as seen from it; and once
the running one has begun a construct, so it is for its callers. -/
structure OnWay (g : Generated) (path : String) (line : ℕ) (past : List (Followed W)) (x : Followed W) : Prop where
  places : ∀ i pc A : ℕ, (pcs x)[i]? = some pc → x.live[i]? = some A →
    ∃ away, Comes g path line pc away ∧ (LastAway g path line past (some A) → away = true)
  callers : ∀ i pc : ℕ, (pcs x)[i + 1]? = some pc → (i = 0 → beginsOne g x.vm.currentFn = true) → Comes g path line pc true

theorem OnWay.step (h : OnWay g path line past x) (hx : x.Fits) (hat : StandsIn g.program x.vm.currentFn x.vm.pc)
    (hstep : x.step g.program F io = some y) : OnWay g path line (x :: past) y := by
  obtain ⟨instr, hcode, -, -⟩ := step_inv hstep
  obtain ⟨A₀, rest, hlive⟩ := List.exists_cons_of_length_eq_add_one hx.depth
  obtain ⟨away₀, hcomes, haway₀⟩ := h.places 0 x.vm.pc A₀ rfl (by rw [hlive]; rfl)
  -- where the running activation goes on
  have hown {pc : ℕ} (hmem : ∀ away, (pc, passed g path line x.vm.pc away) ∈ onward g path line (beginsOne g) (x.vm.pc, away)) :
      ∃ away, Comes g path line pc away ∧ (LastAway g path line (x :: past) (some A₀) → away = true) := by
    have hhead : x.live.head? = some A₀ := by rw [hlive]; rfl
    refine ⟨_, hcomes.step (hmem away₀), fun hlast => ?_⟩
    rw [← hhead] at hlast haway₀
    exact hlast.own haway₀
  -- where the others do
  have hothers {i pc A : ℕ} (hpc : (pcs x)[i + 1]? = some pc) (hA : rest[i]? = some A) :
      ∃ away, Comes g path line pc away ∧ (LastAway g path line (x :: past) (some A) → away = true) := by
    by_cases hnone : begun g x.vm.pc = []
    · obtain ⟨away, hpc, haway⟩ := h.places (i + 1) pc A hpc (by rw [hlive]; exact hA)
      refine ⟨away, hpc, fun hlast => haway ?_⟩
      rwa [lastAway_cons, if_pos hnone] at hlast
    · exact ⟨true, h.callers i pc hpc fun _ => beginsOne_of hat hcode (.inl hnone), fun _ => rfl⟩
  have htail (i : ℕ) : (pcs x).tail[i]? = (pcs x)[i + 1]? := List.getElem?_tail
  rcases step_onward hstep with ⟨hlive', hfn, pc, hpcs, hmem⟩ | ⟨hlive', hpcs, j, hj, hf⟩ | ⟨hlive', hpcs⟩
  · refine ⟨fun i pc' A hpc hA => ?_, fun i pc' hpc hbegins => ?_⟩
    · rw [hpcs] at hpc
      rw [hlive', hlive] at hA
      cases i with
      | zero =>
        cases hpc
        cases hA
        exact hown hmem
      | succ i => exact hothers ((htail i).symm.trans hpc) hA
    · rw [hpcs] at hpc
      rw [hfn] at hbegins
      exact h.callers i pc' ((htail i).symm.trans hpc) hbegins
  · obtain ⟨hnext, hentry, hreturn⟩ := @onward_call g path line _ _ away₀ _ hj hf
    refine ⟨fun i pc' A hpc hA => ?_, fun i pc' hpc hbegins => ?_⟩
    · rw [hpcs] at hpc
      rw [hlive', hlive] at hA
      match i with
      | 0 =>
        cases hpc
        exact ⟨true, hcomes.step hentry, fun _ => rfl⟩
      | 1 =>
        cases hpc
        cases hA
        exact hown fun away => (onward_call hj hf).1
      | i + 2 => exact hothers ((htail i).symm.trans hpc) hA
    · rw [hpcs] at hpc
      cases i with
      | zero =>
        cases hpc
        exact hcomes.step (hreturn (hbegins rfl))
      | succ i => exact h.callers i pc' ((htail i).symm.trans hpc) fun _ => beginsOne_of hat hj (.inr (List.ne_nil_of_mem hf))
  · refine ⟨fun i pc' A hpc hA => ?_, fun i pc' hpc _ => ?_⟩
    · rw [hpcs] at hpc
      rw [hlive', hlive] at hA
      exact hothers ((htail i).symm.trans hpc) hA
    · rw [hpcs] at hpc
      exact h.callers (i + 1) pc' ((htail (i + 1)).symm.trans hpc) fun hi => absurd hi (Nat.succ_ne_zero i)

/-- A program starts on its way. -/
theorem OnWay.start {args : List String} {w : W} {s : VM W} (h : VM.start g.program args w = .ok s) :
    OnWay g path line [] (Followed.mk s [0] 1) := by
  obtain ⟨fn, hfn, hpc, -, -, -, hcalls⟩ := start_ok h
  have hpcs : pcs (Followed.mk s [0] 1) = [s.pc] := by
    rw [pcs, hcalls]
    rfl
  refine ⟨fun i pc A hat hA => ?_, fun i pc hat _ => ?_⟩
  · rw [hpcs] at hat
    cases i with
    | zero =>
      cases hat
      refine ⟨true, .root ⟨s.currentFn, start_main h, ?_⟩ rfl, fun _ => rfl⟩
      rw [entryOf, hfn, hpc]
      rfl
    | succ i => cases hat
  · rw [hpcs] at hat
    cases hat

/-- A construct of the line begun from elsewhere begins where control can come from there. -/
theorem OnWay.comes (h : OnWay g path line past x) (hx : x.Fits) (hlast : LastAway g path line past x.live.head?) :
    Comes g path line x.vm.pc true := by
  obtain ⟨A, rest, hlive⟩ := List.exists_cons_of_length_eq_add_one hx.depth
  have hhead : x.live.head? = some A := by rw [hlive]; rfl
  obtain ⟨away, hcomes, haway⟩ := h.places 0 x.vm.pc A rfl (by rw [hlive]; rfl)
  rw [hhead] at hlast
  exact haway hlast ▸ hcomes

end Runs

end QuinLang.Debugger
