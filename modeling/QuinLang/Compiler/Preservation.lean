import QuinLang.Compiler.StatementRuns

/-! A compiled program does what the evaluation of words says of the program it was compiled
from: it exits, fails and runs on just where the evaluation does. -/

namespace QuinLang

open StateExcept Following

section Functions

variable {W : Type} {P : CompiledProgram} {F : FloatOps} {io : ProgramIO W} {types : TypeTable} {fns : List TFunction} {fn : TFunction}
  {n f entryPc : ℕ} {call : Calls W} {args : List Word}

theorem filled_zero (s : Site) : s.filled 0 0 = s.instruction := by
  unfold Site.filled Site.instruction
  cases s.emitted <;> rfl

/-- The functions of a program and where their code is. -/
structure CodeOf (P : CompiledProgram) (types : TypeTable) (fns : List TFunction) : Prop where
  length : P.functions.length = fns.length
  code : ∀ (i : ℕ) (fn : TFunction), fns[i]? = some fn → ∃ entry code s₁ s₂,
    emitFunctionCode ⟨types, fns.map TFunction.name, buildLayout fn, fn.sig.ret⟩ fn entry s₁ = .ok (code, s₂) ∧
      HasCode P 0 0 entry code ∧ P.functions[i]? = some ((buildLayout fn).info entry)

theorem compile_code {fuel : ℕ} {program : Program} {g : Generated} (h : compile fuel program = .ok g) :
    CodeOf g.program g.types g.functions := by
  refine ⟨length_compiled h, fun i fn hi => ?_⟩
  obtain ⟨checked, st, emitted, -, -, -, -, -, hcode, -⟩ := compile_ok h
  obtain ⟨entry, code, s₁, s₂, hc, hsite, hinfo⟩ := compile_function h hi
  refine ⟨entry, code, s₁, s₂, hc, fun k site hk => ?_, hinfo⟩
  rw [hcode, List.getElem?_map, hsite k site hk, Option.map_some, filled_zero]

theorem slot_le {i : ℕ} {sym : Symbol} {slot : LocalSlot} (hsym : fn.frame[i]? = some sym)
    (hslot : (buildLayout fn).slots[i]? = some slot) : slot.index + sym.type.slotWidth ≤ (buildLayout fn).numLocals := by
  have hat : (assignSlots 0 fn.frame)[i]? = some slot := hslot
  rw [assignSlots_index hsym] at hat
  cases hat
  have hle := (((fn.frame.take_sublist (i + 1)).map fun sym => sym.type.slotWidth).sum_le_sum fun _ _ => Nat.zero_le _)
  rw [List.take_add_one, hsym, Option.toList_some, List.map_append, List.sum_append, List.map_singleton, List.sum_singleton] at hle
  dsimp only [buildLayout]
  omega

/-- A call starts with the frame holding the arguments and zeros. -/
theorem holds_entered (h : fn.takes args = true) : Holds fn (fn.entryVars args) (enteredLocals fn (args.map entry)) := by
  unfold TFunction.takes at h
  simp only [Bool.and_eq_true, decide_eq_true_eq, List.all_eq_true] at h
  obtain ⟨⟨hargs, hparams⟩, hwords⟩ := h
  have hplain : ∀ sym ∈ fn.frame.take fn.numParams, sym.type.arrayLength = 0 := fun sym hsym => (hwords sym hsym).2
  have hlen : (args.map entry).length = fn.numParams := by rw [List.length_map, hargs]
  have hmem {i : ℕ} {sym : Symbol} (hi : i < fn.numParams) (hsym : fn.frame[i]? = some sym) : sym ∈ fn.frame.take fn.numParams :=
    List.mem_iff_getElem?.mpr ⟨i, by rw [List.getElem?_take_of_lt hi, hsym]⟩
  refine ⟨length_enteredLocals fn _, fun i sym hsym => ?_, fun i slot hslot k v hv => ?_⟩
  · unfold TFunction.entryVars
    split
    · next v hv => exact (hwords sym (hmem (hargs ▸ (List.getElem?_eq_some_iff.mp hv).1) hsym)).1.symm
    · rw [hsym]
      exact List.length_replicate
  · obtain ⟨sym, hsym⟩ := exists_symbol hslot
    unfold TFunction.entryVars at hv
    split at hv
    · next a ha =>
      obtain ⟨rfl, rfl⟩ : k = 0 ∧ a = v := by
        cases k with
        | zero => exact ⟨rfl, Option.some.inj hv⟩
        | succ k => cases hv
      have hat := (enteredLocals_parameter hparams hplain hlen hsym (by rw [List.getElem?_map, ha]; rfl) hslot).1
      rw [Nat.add_zero, hat]
      exact congrArg some (word_of_lt a.isLt)
    · next hnone =>
      rw [hsym] at hv
      obtain ⟨hk, rfl⟩ : k < sym.type.slotWidth ∧ 0 = v := by
        rw [Option.elim_some, List.getElem?_replicate] at hv
        split at hv
        · next hk => exact ⟨hk, Option.some.inj hv⟩
        · cases hv
      have hle : args.length ≤ i := List.getElem?_eq_none_iff.mp hnone
      refine enteredLocals_zero hparams hplain hlen ?_ fun j sym' slot' hj hsym' hslot' => .inr ?_
      · have := slot_le hsym hslot
        omega
      · have := assignSlots_lt (show j < i by omega) hsym' hsym hslot' hslot
        have hwidth : sym'.type.slotWidth = sym'.type.wordCount := if_neg (by simp [hplain sym' (hmem hj hsym')])
        omega

/-- What running the code of a function comes to: control at a return, the value on top. -/
def Ready (P : CompiledProgram) (base : VM W) (σ : List Entry) (r : Word × W) (t : VM W) : Prop :=
  ∃ p locals, P.code[p]? = some .ret ∧ t = base.at p (entry r.1 :: σ) locals r.2

/-- The code of a function does what its body means. -/
theorem runBody_does (hP : CodeOf P types fns) (hcall : CallsFollow P F io n call) (hi : fns[f]? = some fn) {base : VM W}
    {σ : List Entry} {locals : List ℕ} {w : W} {turns : ℕ} (hturns : turns = n) (hfn : base.currentFn = f)
    (hσ : base.frameBase ≤ σ.length) (hholds : Holds fn (fn.entryVars args) locals) :
    ∃ entryPc, P.functions[f]? = some ((buildLayout fn).info entryPc) ∧
      Tracks (Next P F io) (Fails P F io) n (base.at entryPc σ locals w) (Ready P base σ)
        (runBody fns io call turns fn args w) := by
  obtain ⟨entryPc, code, s₁, s₂, hc, hat, hinfo⟩ := hP.code f fn hi
  refine ⟨entryPc, hinfo, ?_⟩
  obtain ⟨body, s₃, hbody, hc⟩ := bind_ok.mp hc
  obtain ⟨rfl, -⟩ := Prod.mk.inj (pure_ok.mp hc)
  subst hturns
  have hloop : LoopContext.Plain none := by simp [LoopContext.Plain]
  have hdoes := emitStmts_does (n := turns) (σ := σ) rfl (by rw [hfn, hinfo]) hcall hσ fn.body hbody hloop hat.left
    ⟨fn.entryVars args, w⟩ locals hholds
  refine hdoes.bind ?_
  rintro ⟨o, env⟩ t ⟨p, locals', hland, rfl, -⟩
  cases o with
  | returned v => exact .returns ⟨p, locals', hland, rfl⟩
  | next =>
    obtain rfl : p = entryPc + body.length := hland
    have hpush : Next P F io (base.at (entryPc + body.length) σ locals' env.io)
        (base.at (entryPc + body.length + 1) (entry 0 :: σ) locals' env.io) := next_at hat.right.head (by simp [Site.filled]) rfl
    exact Tracks.mono (.step hpush (.returns ⟨_, locals', hat.right.tail.head, rfl⟩)) (Nat.le_succ _)
  | broke | continued => trivial

/-- A return from a called function puts the caller back with the value on its stack. -/
theorem return_next {t : VM W} {p : ℕ} {locals : List ℕ} {rest : List Entry} {e : Entry} {w : W}
    (hret : P.code[p]? = some .ret) :
    Next P F io { t with
        pc := p, locals := locals, stack := e :: rest, currentFn := f, frameBase := rest.length
        callStack := ⟨t.pc, t.locals, t.frameBase, t.currentFn⟩ :: t.callStack, io := w }
      { t with stack := e :: rest, io := w } := by
  unfold Next VM.step
  simp only [hret]
  have hbalanced : ¬(e :: rest).length ≠ rest.length + 1 := by simp
  unfold return_
  simp only [if_neg hbalanced]

/-- The frame of a function that was called from `t`. -/
def VM.called (t : VM W) (f height : ℕ) : VM W :=
  { t with callStack := ⟨t.pc + 1, t.locals, t.frameBase, t.currentFn⟩ :: t.callStack, currentFn := f, frameBase := height }

/-- A call does what the function means; `s` is where its instruction stands, `t` what that
leaves for the call. -/
theorem callFunction_does (hP : CodeOf P types fns) {m : ℕ} (hcall : ∀ k < m, CallsFollow P F io k (callFunction fns io k))
    {s t : VM W} {rest : List Entry} {opName : String} {i : Instruction} (hi : P.code[s.pc]? = some i) (hne : i ≠ .ret)
    (hexec : execute P F io i { s with pc := s.pc + 1 } = enterFunction P f opName { t with pc := t.pc + 1 })
    (hstack : t.stack = (args.map entry).reverse ++ rest) (hbase : t.frameBase ≤ rest.length) :
    Tracks (Next P F io) (Fails P F io) m s (fun r u => u = { t with pc := t.pc + 1, stack := entry r.1 :: rest, io := r.2 })
      (callFunction fns io m opName f args t.io) := by
  cases m with
  | zero => exact ⟨0, s, Nat.le_refl 0, .refl s⟩
  | succ m =>
    rw [callFunction]
    cases hf : fns[f]? with
    | none =>
      have hnone : P.functions[f]? = none := by
        rw [List.getElem?_eq_none_iff] at hf ⊢
        exact hP.length ▸ hf
      refine .fault (step_fault hi hne ?_)
      rw [hexec, enterFunction, hnone]
      rfl
    | some fn =>
      dsimp only
      split_ifs with htakes
      · have hbase' : (t.called f rest.length).frameBase ≤ rest.length := Nat.le_refl _
        obtain ⟨entryPc, hinfo, hbody⟩ := runBody_does (F := F) (w := t.io) hP (hcall m (Nat.lt_succ_self m)) hf rfl rfl hbase'
          (holds_entered htakes)
        have hargs : (args.map entry).length = ((buildLayout fn).info entryPc).numParams := by
          unfold TFunction.takes at htakes
          simp only [Bool.and_eq_true, decide_eq_true_eq] at htakes
          rw [List.length_map]
          exact htakes.1.1
        have henter : enterFunction P f opName { t with pc := t.pc + 1 } = _ := enterFunction_eq hinfo hstack hbase hargs
        refine Tracks.step (step_eq hi hne (hexec.trans henter)) (hbody.last ?_)
        rintro ⟨v, w⟩ u ⟨p, locals, hret, rfl⟩
        exact ⟨_, return_next (t := { t with pc := t.pc + 1 }) (e := entry v) (w := w) hret, rfl⟩
      · trivial

theorem callsFollow (hP : CodeOf P types fns) (m : ℕ) : CallsFollow P F io m (callFunction fns io m) := by
  induction m using Nat.strong_induction_on with
  | _ m ih =>
    refine ⟨fun t f args rest hi hstack hbase => callFunction_does hP ih hi (by simp) rfl hstack hbase,
      fun t f args rest hi hstack hbase => ?_⟩
    refine callFunction_does (t := { t with stack := (args.map entry).reverse ++ rest }) hP ih hi (by simp) ?_ rfl hbase
    exact bind_eq (pop_eq (s := { t with pc := t.pc + 1 }) hstack (hbase.trans (by rw [List.length_append]; exact Nat.le_add_left _ _)))

end Functions

section Start

variable {W : Type} {P : CompiledProgram} {s s' : VM W}

theorem collect_io (h : s.collect P = .ok s') : s'.io = s.io := by
  unfold VM.collect at h
  obtain ⟨starts, -, h⟩ := exceptBind_ok h
  obtain ⟨marked, -, h⟩ := exceptBind_ok h
  obtain ⟨forward, -, h⟩ := exceptBind_ok h
  obtain ⟨moved, hmoved, h⟩ := exceptBind_ok h
  unfold VM.slide at h
  obtain ⟨hdrs, -, h⟩ := exceptBind_ok h
  obtain ⟨⟨m, top, stats⟩, -, h⟩ := exceptBind_ok h
  cases h
  unfold VM.updateReferences at hmoved
  obtain ⟨locals, -, h⟩ := exceptBind_ok hmoved
  obtain ⟨frames, -, h⟩ := exceptBind_ok h
  obtain ⟨stack, -, h⟩ := exceptBind_ok h
  obtain ⟨literals, -, h⟩ := exceptBind_ok h
  obtain ⟨variants, -, h⟩ := exceptBind_ok h
  obtain ⟨heap, -, h⟩ := exceptBind_ok h
  cases h
  rfl

theorem bump_io {payload kind detail ref : ℕ} (h : s.bump payload kind detail = some (ref, s')) : s'.io = s.io := by
  unfold VM.bump at h
  dsimp only at h
  split at h <;> cases h
  rfl

theorem reserve_io {payload kind detail ref : ℕ} (h : s.reserve P payload kind detail = .ok (ref, s')) : s'.io = s.io := by
  unfold VM.reserve at h
  dsimp only at h
  split at h
  · next r hb =>
    cases h
    exact bump_io hb
  · split at h
    · cases h
    · next s₁ hc =>
      split at h
      · next r hb =>
        cases h
        exact (bump_io hb).trans (collect_io hc)
      · cases h

theorem allocStruct_io {typeId ref : ℕ} (h : s.allocStruct P typeId = .ok (ref, s')) : s'.io = s.io := by
  unfold VM.allocStruct at h
  split at h
  · cases h
  · cases h
  · dsimp only at h
    split at h
    · cases h
    · next addr t hr =>
      cases h
      exact (reserve_io hr :)

theorem allocString_io {data : List UInt8} {ref : ℕ} (h : s.allocString P data = .ok (ref, s')) : s'.io = s.io := by
  unfold VM.allocString at h
  dsimp only at h
  split at h
  · cases h
  · split at h
    · cases h
    · next addr t hr =>
      cases h
      exact (reserve_io hr :)

theorem fillLiterals_io {ls : List (ℕ × String)} (h : VM.fillLiterals P ls s = .ok s') : s'.io = s.io := by
  induction ls generalizing s with
  | nil =>
    cases h
    rfl
  | cons l ls ih =>
    unfold VM.fillLiterals at h
    split at h
    · cases h
    · split at h
      · cases h
      · next addr t halloc => exact (ih h).trans (allocString_io halloc :)

theorem fillVariants_io {ls : List (Option StructLayout)} {typeId : ℕ} (h : VM.fillVariants P typeId ls s = .ok s') : s'.io = s.io := by
  induction ls generalizing s typeId with
  | nil =>
    cases h
    rfl
  | cons l ls ih =>
    unfold VM.fillVariants at h
    split at h
    · split at h
      · cases h
      · next addr t halloc => exact (ih h).trans (allocStruct_io halloc :)
    · exact ih h

/-- The frame of `main` starts as zeros, and nothing has been read or written yet. -/
theorem start_frame {args : List String} {w : W} (h : VM.start P args w = .ok s) :
    P.funcIndex "main" = some s.currentFn ∧ s.io = w ∧ ∀ fn, P.functions[s.currentFn]? = some fn → s.locals = List.replicate fn.numLocals 0 := by
  unfold VM.start at h
  split at h
  · cases h
  · next idx hidx =>
    split at h
    · cases h
    · next s₁ hlit =>
      split at h
      · cases h
      · next s₂ hvar =>
        cases h
        refine ⟨hidx, (fillVariants_io hvar).trans (fillLiterals_io hlit), fun fn hfn => ?_⟩
        dsimp only at hfn ⊢
        rw [List.getD_eq_getElem?_getD, hfn]
        rfl

end Start

section Programs

variable {W : Type} (P : CompiledProgram) (F : FloatOps) (io : ProgramIO W) (args : List String) (w : W)

/-! What a run of a program comes to. -/

def Exits (c : ℤ) (w' : W) : Prop := ∃ k s, runMain P F io args w k = .ok (.exited c s) ∧ s.io = w'

def Faults (e : Fault) : Prop := ∃ k, runMain P F io args w k = .error e

def RunsOn : Prop := ∀ k, ∃ s, runMain P F io args w k = .ok (.running s)

/-- The step that ends the program. -/
def Exited (r : ℤ × W) (t : VM W) : Prop := ∃ u, t.step P F io = .ok (.exited r.1 u) ∧ u.io = r.2

theorem deterministic : Deterministic (Next P F io) (Fails P F io) (Exited P F io) where
  next_next s t t' h h' := by
    have := h.symm.trans h'
    simpa using this
  done_next a s t := by
    rintro ⟨u, h, -⟩ h'
    have := h.symm.trans h'
    simp at this
  fails_next e s t h h' := by
    have := h.symm.trans h'
    cases this
  done_fails a e s := by
    rintro ⟨u, h, -⟩ h'
    have := h.symm.trans h'
    cases this
  done_done a b s := by
    rintro ⟨u, h, hio⟩ ⟨u', h', hio'⟩
    have := h.symm.trans h'
    simp only [Except.ok.injEq, Progress.exited.injEq] at this
    obtain ⟨hc, rfl⟩ := this
    exact Prod.ext hc (hio.symm.trans hio')
  fails_fails e e' s h h' := Except.error.inj (h.symm.trans h')

variable {P F io args w} {s t : VM W}

theorem steps_reaches {k : ℕ} : s.steps P F io k = .ok (.running t) ↔ Reaches (Next P F io) k s t := by
  constructor
  · intro h
    induction k generalizing s with
    | zero =>
      cases h
      exact .refl _
    | succ k ih =>
      rw [VM.steps] at h
      split at h
      · cases h
      · cases h
      · next u hu => exact .head hu (ih h)
  · intro h
    induction h with
    | refl s => rfl
    | head hnext _ ih => exact (steps_succ hnext _).trans ih

theorem steps_stops {s : VM W} {k : ℕ} {r : Except Fault (Progress W)} (hr : ∀ u, r ≠ .ok (.running u)) (h : s.steps P F io k = r) :
    ∃ j t, Reaches (Next P F io) j s t ∧ t.step P F io = r := by
  induction k generalizing s with
  | zero => exact absurd h.symm (hr s)
  | succ k ih =>
    cases hs : s.step P F io with
    | error e =>
      rw [VM.steps, hs] at h
      exact ⟨0, s, .refl s, hs.trans h⟩
    | ok p =>
      cases p with
      | exited c u =>
        rw [VM.steps, hs] at h
        exact ⟨0, s, .refl s, hs.trans h⟩
      | running u =>
        rw [VM.steps, hs] at h
        obtain ⟨j, t, hreach, ht⟩ := ih h
        exact ⟨j + 1, t, .head hs hreach, ht⟩

theorem stops_steps {k : ℕ} {r : Except Fault (Progress W)} (hr : ∀ u, r ≠ .ok (.running u)) (h : Reaches (Next P F io) k s t)
    (ht : t.step P F io = r) : s.steps P F io (k + 1) = r := by
  rw [steps_add (steps_reaches.mpr h), VM.steps, ht]
  rcases r with e | p
  · rfl
  · cases p with
    | exited => rfl
    | running u => exact absurd rfl (hr u)

theorem exits_iff (hs : VM.start P args w = .ok s) {c : ℤ} {w' : W} :
    Exits P F io args w c w' ↔ ∃ k t, Reaches (Next P F io) k s t ∧ Exited P F io (c, w') t := by
  unfold Exits runMain
  simp only [hs]
  constructor
  · rintro ⟨k, u, h, hio⟩
    obtain ⟨j, t, hreach, ht⟩ := steps_stops (by simp) h
    exact ⟨j, t, hreach, u, ht, hio⟩
  · rintro ⟨k, t, hreach, u, ht, hio⟩
    exact ⟨k + 1, u, stops_steps (by simp) hreach ht, hio⟩

theorem faults_iff (hs : VM.start P args w = .ok s) {e : Fault} :
    Faults P F io args w e ↔ ∃ k t, Reaches (Next P F io) k s t ∧ Fails P F io t e := by
  unfold Faults runMain
  simp only [hs]
  constructor
  · rintro ⟨k, h⟩
    exact steps_stops (by simp) h
  · rintro ⟨k, t, hreach, ht⟩
    exact ⟨k + 1, stops_steps (by simp) hreach ht⟩

theorem runsOn_iff (hs : VM.start P args w = .ok s) :
    RunsOn P F io args w ↔ ∀ k, ∃ t, Reaches (Next P F io) k s t := by
  unfold RunsOn runMain
  simp only [hs, steps_reaches]

theorem holds_zero (fn : TFunction) : Holds fn (fn.entryVars []) (List.replicate (buildLayout fn).numLocals 0) := by
  refine ⟨List.length_replicate, fun i sym hsym => ?_, fun i slot hslot k v hv => ?_⟩
  · simp [TFunction.entryVars, hsym]
  · obtain ⟨sym, hsym⟩ := exists_symbol hslot
    obtain ⟨hk, rfl⟩ : k < sym.type.slotWidth ∧ 0 = v := by
      simpa [TFunction.entryVars, hsym, List.getElem?_replicate] using hv
    have := slot_le hsym hslot
    rw [List.getElem?_replicate, if_pos (by omega)]
    rfl

/-- The value `main` returns is the exit code. -/
theorem exited_ret {v : Word} {p : ℕ} {locals : List ℕ} {w' : W} (hret : P.code[p]? = some .ret) (hbase : s.frameBase = 0)
    (hcalls : s.callStack = []) : Exited P F io (v.toInt, w') (s.at p [entry v] locals w') := by
  refine ⟨s.at (p + 1) [] locals w', ?_, rfl⟩
  unfold VM.step
  rw [show (s.at p [entry v] locals w').pc = p from rfl, hret]
  have hreturn : return_ { s.at p [entry v] locals w' with pc := p + 1 } = .ok (some (toSigned v.toNat), s.at (p + 1) [] locals w') := by
    unfold return_
    rw [if_neg (by simp [VM.at, hbase])]
    simp only [VM.at, hcalls]
    rfl
  dsimp only
  rw [hreturn, toSigned_toNat]

/-- The evaluation of a program at any fuel, followed from the start of its run. -/
theorem evalMain_follows {fuel n : ℕ} {program : Program} {g : Generated} (h : compile fuel program = .ok g)
    (hs : VM.start g.program args w = .ok s) : Tracks (Next g.program F io) (Fails g.program F io) n s (Exited g.program F io)
      (evalMain g.functions io s.currentFn n w) := by
  have hP := compile_code h
  obtain ⟨info, hinfo, hpc, hstack, hbase, -, hcalls⟩ := start_ok hs
  obtain ⟨-, hio, hlocals⟩ := start_frame hs
  have hlt : s.currentFn < g.functions.length := hP.length ▸ (List.getElem?_eq_some_iff.mp hinfo).1
  obtain ⟨fn, hfn⟩ : ∃ fn, g.functions[s.currentFn]? = some fn := ⟨_, List.getElem?_eq_getElem hlt⟩
  unfold evalMain
  rw [hfn]
  have hzero : Holds fn (fn.entryVars []) s.locals := by
    obtain ⟨entryPc, -, -, -, -, -, hinfo'⟩ := hP.code _ fn hfn
    exact hlocals _ hinfo' ▸ holds_zero fn
  obtain ⟨entryPc, hinfo', hbody⟩ := runBody_does (F := F) (w := w) (σ := []) hP (callsFollow hP n) hfn rfl rfl (by rw [hbase]; rfl) hzero
  rw [hinfo] at hinfo'
  cases hinfo'
  have hs' : s.at entryPc [] s.locals w = s := by
    have hself : s.at s.pc s.stack s.locals s.io = s := rfl
    rwa [hpc, hstack, hio] at hself
  rw [hs'] at hbody
  refine hbody.map ?_
  rintro ⟨v, w'⟩ t ⟨p, locals, hret, rfl⟩
  exact exited_ret hret hbase hcalls

variable (F io) in
/-- A compiled program does what evaluating it comes to, at any fuel; and where the evaluation
covers all that it does, it exits, fails and goes on forever just as the evaluation says. -/
theorem compile_correct {fuel : ℕ} {program : Program} {g : Generated} (h : compile fuel program = .ok g)
    (hs : VM.start g.program args w = .ok s) : ∃ main, g.program.funcIndex "main" = some main ∧
      (∀ n c w', evalMain g.functions io main n w = .ok (c, w') → Exits g.program F io args w c w') ∧
      (∀ n e, evalMain g.functions io main n w = .error (.fault e) → Faults g.program F io args w e) ∧
      ((∀ n, evalMain g.functions io main n w ≠ .error .outside) →
        (∀ c w', Exits g.program F io args w c w' → ∃ n, evalMain g.functions io main n w = .ok (c, w')) ∧
        (∀ e, Faults g.program F io args w e → ∃ n, evalMain g.functions io main n w = .error (.fault e)) ∧
        (RunsOn g.program F io args w ↔ ∀ n, evalMain g.functions io main n w = .error .timeout)) := by
  have hfollows (n : ℕ) : Tracks (Next g.program F io) (Fails g.program F io) n s (Exited g.program F io)
    (evalMain g.functions io s.currentFn n w) := evalMain_follows h hs
  refine ⟨s.currentFn, (start_frame hs).1, fun n c w' hn => ?_, fun n e hn => ?_, fun hinside => ?_⟩
  · have hrun := hfollows n
    rw [hn] at hrun
    exact (exits_iff hs).mpr hrun
  · have hrun := hfollows n
    rw [hn] at hrun
    exact (faults_iff hs).mpr hrun
  · obtain ⟨hexit, hfault, hforever⟩ := Tracks.complete (deterministic g.program F io) hfollows hinside
    exact ⟨fun c w' hexits => (hexit (c, w')).mp ((exits_iff hs).mp hexits),
      fun e hfaults => (hfault e).mp ((faults_iff hs).mp hfaults), (runsOn_iff hs).trans hforever⟩

/-- `fn square(x: int): int { return x * x; }`, and a `main` that adds up the squares to 3 and
prints and returns the sum. -/
def squaresSource : Program :=
  { functions := [
      { name := "square", params := [⟨"x", .named "int", ⟨1, 11⟩⟩], returnType := some (.named "int")
        body := [.return_ ⟨1, 26⟩ (some (.binary ⟨1, 35⟩ (.identifier ⟨1, 33⟩ (.plain "x")) .mul
          (.identifier ⟨1, 37⟩ (.plain "x"))))], pos := ⟨1, 1⟩ },
      { name := "main", params := [], returnType := some (.named "int")
        body := [
          .varDecl ⟨3, 3⟩ "s" none (some (.literal ⟨3, 11⟩ (.int 0))),
          .for_ ⟨4, 3⟩ (some (.varDecl ⟨4, 8⟩ "i" none (some (.literal ⟨4, 16⟩ (.int 1)))))
            (some (.binary ⟨4, 21⟩ (.identifier ⟨4, 19⟩ (.plain "i")) .le (.literal ⟨4, 24⟩ (.int 3))))
            (some (.assign ⟨4, 27⟩ (.identifier ⟨4, 27⟩ (.plain "i"))
              (.binary ⟨4, 33⟩ (.identifier ⟨4, 31⟩ (.plain "i")) .add (.literal ⟨4, 35⟩ (.int 1)))))
            [.simple (.assign ⟨5, 5⟩ (.identifier ⟨5, 5⟩ (.plain "s")) (.binary ⟨5, 11⟩ (.identifier ⟨5, 9⟩ (.plain "s")) .add
              (.call ⟨5, 13⟩ (.plain "square") [.identifier ⟨5, 20⟩ (.plain "i")] [])))],
          .println ⟨7, 3⟩ (.identifier ⟨7, 11⟩ (.plain "s")),
          .return_ ⟨8, 3⟩ (some (.identifier ⟨8, 10⟩ (.plain "s")))], pos := ⟨2, 1⟩ }] }

/-- Keeps what is printed, with nothing to read. -/
def printed : ProgramIO (List String) where
  write text w := .ok (w ++ [text])
  readLine w := .ok ("", w)
  readFile path w := (.error path, w)
  writeFile path _ _ w := (.error path, w)
  fileExists _ w := (.ok false, w)
  deleteFile path w := (.error path, w)

theorem squares_evaluated : (compile 1 squaresSource).toOption.map (fun g =>
    ((VM.start g.program [] ([] : List String)).toOption.isSome, g.program.funcIndex "main",
      (evalMain g.functions printed 1 5 []).toOption)) = some (true, some 1, some (14, ["14\n"])) := by
  decide +kernel

theorem squares_exits : ∃ g, compile 1 squaresSource = .ok g ∧ ∀ F : FloatOps, Exits g.program F printed [] [] 14 ["14\n"] := by
  have h := squares_evaluated
  cases hg : compile 1 squaresSource with
  | error e =>
    rw [hg] at h
    cases h
  | ok g =>
    refine ⟨g, rfl, fun F => ?_⟩
    rw [hg] at h
    obtain ⟨hstart, h⟩ := Prod.mk.inj (Option.some.inj h)
    obtain ⟨hmain, heval⟩ := Prod.mk.inj h
    cases hs : VM.start g.program [] ([] : List String) with
    | error e =>
      rw [hs] at hstart
      cases hstart
    | ok s =>
      obtain ⟨main, hfound, hexits, -⟩ := compile_correct F printed hg hs
      obtain rfl : main = 1 := Option.some.inj (hfound.symm.trans hmain)
      cases hr : evalMain g.functions printed 1 5 [] with
      | error e =>
        rw [hr] at heval
        cases heval
      | ok r =>
        rw [hr] at heval
        obtain rfl := Option.some.inj heval
        exact hexits 5 _ _ hr

end Programs

end QuinLang
