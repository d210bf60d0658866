import QuinLang.Compiler.StatementFlow
import QuinLang.Runtime.Effects
import QuinLang.Runtime.Run

/-! Runs of compiled programs: the operand stack of each activation is as high as the
static stack at its pc, and what a bounds check told of its top still holds. -/

namespace QuinLang

open StateExcept Flow

section Emission

variable {types : TypeTable} {names : List TypeName}

/-- Each function's code stands where its entry says. -/
theorem emitFunctions_at {pc : ℕ} {fns : List TFunction} {s s' : GenState}
    {emitted : List (FunctionLayout × ℕ × List Site)} (h : emitFunctions types names pc fns s = .ok (emitted, s')) :
    emitted.length = fns.length ∧ ∀ (i : ℕ) (fn : TFunction), fns[i]? = some fn → ∃ entry code s₁ s₂,
      emitted[i]? = some (buildLayout fn, entry, code) ∧ pc ≤ entry ∧
      emitFunctionCode ⟨types, names, buildLayout fn, fn.sig.ret⟩ fn entry s₁ = .ok (code, s₂) ∧
      ∀ j site, code[j]? = some site → (emitted.flatMap fun e => e.2.2)[entry - pc + j]? = some site := by
  induction fns generalizing pc s s' emitted with
  | nil =>
    obtain ⟨rfl, -⟩ := Prod.mk.inj (pure_ok.mp h)
    exact ⟨rfl, by simp⟩
  | cons fn fns ih =>
    obtain ⟨code, s₁, hcode, h⟩ := bind_ok.mp h
    obtain ⟨rest, s₂, hrest, h⟩ := bind_ok.mp h
    obtain ⟨rfl, -⟩ := Prod.mk.inj (pure_ok.mp h)
    obtain ⟨hlen, hall⟩ := ih hrest
    refine ⟨by rw [List.length_cons, List.length_cons, hlen], fun i f hi => ?_⟩
    cases i with
    | zero =>
      obtain rfl := Option.some.inj hi
      refine ⟨pc, code, s, s₁, rfl, Nat.le_refl pc, hcode, fun j site hj => ?_⟩
      rw [Nat.sub_self, Nat.zero_add, List.flatMap_cons, List.getElem?_append_left (List.getElem?_eq_some_iff.mp hj).1]
      exact hj
    | succ i =>
      obtain ⟨entry, c, t₁, t₂, he, hle, hc, hat⟩ := hall i f hi
      refine ⟨entry, c, t₁, t₂, he, by omega, hc, fun j site hj => ?_⟩
      rw [List.flatMap_cons, List.getElem?_append_right (by dsimp only; omega), ← hat j site hj]
      congr 1
      dsimp only
      omega

/-- The parameters of each function of a program. -/
def CompiledProgram.arity (P : CompiledProgram) (i : ℕ) : ℕ := (P.functions[i]?).elim 0 FunctionInfo.numParams

/-- The points control reaches in the code of each function: none is left but for another
of the same function. -/
structure Covers (g : Generated) (S : ℕ → Points Point) : Prop where
  code : g.program.code = g.sites.map Site.instruction
  site : ∀ i p v, S i p v → ∃ fn site, g.functions[i]? = some fn ∧ g.sites[p]? = some site ∧
    site.Fits g.program.arity (buildLayout fn) v ∧
    ∀ x v', site.leads g.program.arity p v x v' → ∃ q, x = .at q ∧ S i q v'
  entry : ∀ i fn, g.program.functions[i]? = some fn → S i fn.entryPc ⟨0, .none⟩

/-- A program that was generated, with the functions it was generated from. -/
theorem compile_ok {fuel : ℕ} {program : Program} {g : Generated} (h : compile fuel program = .ok g) :
    ∃ checked s emitted, analyze fuel program = .ok checked ∧
      emitFunctions checked.types (checked.functions.map TFunction.name) 0 checked.functions {} = .ok (emitted, s) ∧
      g.functions = checked.functions ∧ g.types = checked.types ∧ (g.sites = emitted.flatMap fun e => e.2.2) ∧
      g.program.code = g.sites.map Site.instruction ∧ (g.program.functions = emitted.map fun e => e.1.info e.2.1) ∧
      g.program.sourceMap = SourceMap.build s.marks := by
  unfold compile at h
  split at h
  · cases h
  · rename_i checked hchecked
    split at h
    · cases h
    · rename_i g' hg
      cases h
      unfold generate at hg
      split at hg
      · cases hg
      · split at hg
        · cases hg
        · rename_i emitted s hem
          dsimp only at hg
          split at hg
          · cases hg
          · cases hg
            exact ⟨checked, s, emitted, hchecked, hem, rfl, rfl, rfl, rfl, rfl, rfl⟩

/-- A function of a compiled program, and where its code is. -/
theorem compile_function {fuel : ℕ} {program : Program} {g : Generated} (h : compile fuel program = .ok g) {i : ℕ}
    {fn : TFunction} (hi : g.functions[i]? = some fn) : ∃ entry code s₁ s₂,
      emitFunctionCode ⟨g.types, g.functions.map TFunction.name, buildLayout fn, fn.sig.ret⟩ fn entry s₁ = .ok (code, s₂) ∧
      (∀ j site, code[j]? = some site → g.sites[entry + j]? = some site) ∧
      g.program.functions[i]? = some ((buildLayout fn).info entry) := by
  obtain ⟨checked, st, emitted, -, hem, hfns, htypes, hsites, -, hinfo, -⟩ := compile_ok h
  obtain ⟨-, hat⟩ := emitFunctions_at hem
  rw [hfns] at hi ⊢
  obtain ⟨entry, code, s₁, s₂, he, -, hc, hsite⟩ := hat i fn hi
  refine ⟨entry, code, s₁, s₂, htypes ▸ hc, fun j site hj => ?_, ?_⟩
  · rw [hsites]
    exact hsite j site hj
  · rw [hinfo, List.getElem?_map, he]
    rfl

theorem length_compiled {fuel : ℕ} {program : Program} {g : Generated} (h : compile fuel program = .ok g) :
    g.program.functions.length = g.functions.length := by
  obtain ⟨checked, st, emitted, -, hem, hfns, -, -, -, hinfo, -⟩ := compile_ok h
  rw [hinfo, List.length_map, (emitFunctions_at hem).1, hfns]

/-- The points of every function of a compiled program, each in the code emitted for it. -/
theorem compile_points {fuel : ℕ} {program : Program} {g : Generated} (h : compile fuel program = .ok g) :
    ∃ emitted s, emitFunctions g.types (g.functions.map TFunction.name) 0 g.functions {} = .ok (emitted, s) ∧
      (g.sites = emitted.flatMap fun e => e.2.2) ∧ (g.program.functions = emitted.map fun e => e.1.info e.2.1) ∧
      ∃ S, Covers g S ∧ ∀ i p v, S i p v → ∃ e, emitted[i]? = some e ∧ e.2.1 ≤ p ∧ p < e.2.1 + e.2.2.length := by
  obtain ⟨checked, st, emitted, ha, hem, hfns, htypes, hsites, hcode, hinfos, -⟩ := compile_ok h
  obtain ⟨s, hacc, -, hnames, hemit⟩ := analyze_ok ha
  have hfunction {i : ℕ} {fn : TFunction} (hi : checked.functions[i]? = some fn) : ∃ entry code s₁ s₂,
      emitted[i]? = some (buildLayout fn, entry, code) ∧
      emitFunctionCode ⟨checked.types, checked.functions.map TFunction.name, buildLayout fn, fn.sig.ret⟩ fn entry s₁
        = .ok (code, s₂) ∧
      (∀ j site, code[j]? = some site → g.sites[entry + j]? = some site) ∧
      g.program.functions[i]? = some ((buildLayout fn).info entry) := by
    obtain ⟨entry, code, s₁, s₂, he, -, hc, hsite⟩ := (emitFunctions_at hem).2 i fn hi
    refine ⟨entry, code, s₁, s₂, he, hc, fun j site hj => ?_, ?_⟩
    · rw [hsites]
      exact hsite j site hj
    · rw [hinfos, List.getElem?_map, he]
      rfl
  have hA : ∀ n sig i, s.globals.sig? n = some sig → (checked.functions.map TFunction.name).idxOf? n = some i →
      g.program.arity i = sig.params.length := by
    intro n sig i hsig hi
    obtain ⟨hlt, hbeq, -⟩ := List.idxOf?_eq_some_iff.mp hi
    rw [List.length_map] at hlt
    have hfn : checked.functions[i]? = some checked.functions[i] := List.getElem?_eq_getElem hlt
    obtain ⟨entry, code, s₁, s₂, -, -, -, hinfo⟩ := hfunction hfn
    have hok := (hemit _ (List.getElem_mem hlt)).typed
    have hname : checked.functions[i].name = n := by simpa using hbeq
    have hsame : sig = checked.functions[i].sig := by
      have := hok.sig
      rw [hname, hsig] at this
      exact Option.some.inj this
    rw [hsame, ← hok.arity, CompiledProgram.arity, hinfo]
    rfl
  -- all the points of closed sets in the code of the function
  refine ⟨emitted, st, by rw [htypes, hfns]; exact hem, hsites, hinfos,
    fun i p v => ∃ fn entry code T, checked.functions[i]? = some fn ∧ emitted[i]? = some (buildLayout fn, entry, code) ∧
    (∀ j site, code[j]? = some site → g.sites[entry + j]? = some site) ∧
    Closed (Site.leads g.program.arity) (Site.Fits g.program.arity (buildLayout fn)) entry code T (exitsTo []) ∧ T p v,
    ⟨hcode, fun i p v hp => ?_, fun i fn hi => ?_⟩, fun i p v hp => ?_⟩
  · obtain ⟨fn, entry, code, T, hi, he, hcode, hclosed, hT⟩ := hp
    obtain ⟨hlo, hhi⟩ := hclosed.inside p v hT
    have hs : code[p - entry]? = some code[p - entry] := List.getElem?_eq_getElem (by omega)
    refine ⟨fn, code[p - entry], hfns ▸ hi, ?_, hclosed.fits p v _ hT hs, fun x v' hlead => ?_⟩
    · have hsite := hcode _ _ hs
      rwa [Nat.add_sub_cancel' hlo] at hsite
    · rcases hclosed.step p v _ hT hs x v' hlead with ⟨-, hexit⟩ | ⟨q, rfl, hq⟩
      · exact absurd hexit List.not_mem_nil
      · exact ⟨q, rfl, fn, entry, code, T, hi, he, hcode, hclosed, hq⟩
  · have hlt : i < checked.functions.length := by
      rw [← hfns, ← length_compiled h]
      exact (List.getElem?_eq_some_iff.mp hi).1
    have hfn : checked.functions[i]? = some checked.functions[i] := List.getElem?_eq_getElem hlt
    obtain ⟨entry, code, s₁, s₂, he, hc, hcode, hinfo⟩ := hfunction hfn
    obtain rfl := Option.some.inj (hinfo.symm.trans hi)
    obtain ⟨T, hclosed, hin⟩ := emitFunctionCode_flows hA (hemit _ (List.getElem_mem hlt)).typed hc
    refine ⟨checked.functions[i], entry, code, T, hfn, he, hcode, hclosed, ?_⟩
    rcases hin _ rfl with ⟨-, -, hexit⟩ | hT
    · exact absurd hexit List.not_mem_nil
    · exact hT
  · obtain ⟨fn, entry, code, T, -, he, -, hclosed, hT⟩ := hp
    exact ⟨_, he, hclosed.inside p v hT⟩

theorem compile_covers {fuel : ℕ} {program : Program} {g : Generated} (h : compile fuel program = .ok g) :
    ∃ S, Covers g S := by
  obtain ⟨-, -, -, -, -, S, hS, -⟩ := compile_points h
  exact ⟨S, hS⟩

end Emission

section Operations

variable {W : Type} {P : CompiledProgram} {F : FloatOps} {io : ProgramIO W}

theorem popArgs_effect (n : ℕ) : Effect (popArgs n : Exec W (List ℕ)) n 0 := by
  induction n with
  | zero => exact .pure _
  | succ n ih =>
    refine Effect.bind (j := n) pop_effect (fun v => ?_) (Nat.add_comm n 1)
    exact Effect.push (j := 0) ih (fun vs => .pure _) rfl

theorem length_scatter (widths vs : List ℕ) (i slot : ℕ) (locals : List ℕ) :
    (scatter widths vs i slot locals).length = locals.length := by
  induction vs generalizing i slot locals with
  | nil => rfl
  | cons v vs ih =>
    rw [scatter, ih]
    split_ifs <;> simp

/-- A call leaves its arguments to the callee and the rest of the stack under its base. -/
theorem enterFunction_ok {f : ℕ} {name : String} {s s' : VM W} {u : Unit}
    (h : enterFunction P f name s = .ok (u, s')) : ∃ fn, P.functions[f]? = some fn ∧
      fn.numParams ≤ s.stack.length - s.frameBase ∧ s'.stack.length = s.stack.length - fn.numParams ∧
      s'.currentFn = f ∧ s'.locals.length = fn.numLocals ∧ s'.frameBase = s'.stack.length ∧ s'.pc = fn.entryPc ∧
      s'.callStack.map Frame.outline = (s.pc, s.frameBase, s.currentFn, s.locals.length) :: s.callStack.map Frame.outline := by
  unfold enterFunction at h
  cases hf : P.functions[f]? with
  | none => simp [hf, fault] at h
  | some fn =>
    simp only [hf] at h
    obtain ⟨args, s₁, hargs, h⟩ := bind_ok.mp h
    obtain ⟨hle, hlen, hout⟩ := popArgs_effect fn.numParams s args s₁ hargs
    obtain ⟨-, rfl⟩ := Prod.mk.inj (modify_ok.mp h)
    have hpc := congrArg Outline.pc hout
    have hfn := congrArg Outline.currentFn hout
    have hbase := congrArg Outline.frameBase hout
    have hlocals := congrArg Outline.numLocals hout
    have hcallers := congrArg Outline.callers hout
    simp only [VM.outline] at hpc hfn hbase hlocals hcallers
    refine ⟨fn, rfl, hle, hlen, rfl, ?_, rfl, rfl, ?_⟩
    · rw [length_scatter, List.length_replicate]
    · simp only [List.map_cons, Frame.outline, hpc, hfn, hbase, hlocals]
      exact congrArg _ hcallers

/-- Which entry a return goes back to. -/
theorem return_ok {s s' : VM W} (h : return_ s = .ok (none, s')) : s.stack.length = s.frameBase + 1 ∧
    s'.stack = s.stack ∧ ∃ frame frames, s.callStack = frame :: frames ∧ s'.callStack = frames ∧
      s'.locals = frame.locals ∧ s'.frameBase = frame.stackBase ∧ s'.currentFn = frame.fnIndex ∧ s'.pc = frame.returnPc := by
  unfold return_ at h
  split at h
  · cases h
  · rename_i hlen
    split at h
    · cases h
    · cases h
    · rename_i e rest frame frames hstack hcalls
      cases h
      exact ⟨by simpa using hlen, hstack.symm, frame, frames, hcalls, rfl, rfl, rfl, rfl, rfl⟩

theorem panic_stops {s : VM W} {r : Unit × VM W} : execute P F io .panic s ≠ .ok r := by
  intro h
  obtain ⟨v, s₁, -, h⟩ := bind_ok.mp h
  obtain ⟨text, s₂, -, h⟩ := bind_ok.mp h
  cases h

end Operations

/-- What a guard says of the operand stack. -/
def Guard.Holds : Guard → List Entry → Prop
  | .none, _ => True
  | .top length, stack => ∃ e rest, stack = e :: rest ∧ 0 ≤ toSigned e.value ∧ toSigned e.value < length
  | .under slot length, stack => ∃ a e rest, stack = a :: e :: rest ∧ a.value = wordOfInt slot ∧
      0 ≤ toSigned e.value ∧ toSigned e.value < length

section Tracking

variable {W : Type} {F : FloatOps} {io : ProgramIO W}

def CompiledProgram.numLocals (P : CompiledProgram) (i : ℕ) : ℕ := (P.functions[i]?).elim 0 FunctionInfo.numLocals

/-- The function an indirect call reaches has as many parameters as the static type there says. -/
def ArityAt (g : Generated) (s : VM W) : Prop :=
  ∀ site params ret σ e rest fn, g.sites[s.pc]? = some site → site.emitted = .instr .callIndirect →
    site.stack = .val (.func params ret) :: σ → s.stack = e :: rest →
    g.program.functions[e.value]? = some fn → fn.numParams = params.length

variable (g : Generated) (S : ℕ → Points Point) (M : Prop)

/-- The callers of an activation with base `base` go on at points of their own, where `M`
holds with a stack of the height there. -/
def Suspended : ℕ → List (ℕ × ℕ × ℕ × ℕ) → Prop
  | _, [] => True
  | base, (returnPc, stackBase, fnIndex, numLocals) :: callers =>
    (∃ v, S fnIndex returnPc v ∧ v.guard = .none ∧ (M → stackBase + v.height = base + 1)) ∧
      numLocals = g.program.numLocals fnIndex ∧ Suspended stackBase callers

structure OnTrack (s : VM W) : Prop where
  point : ∃ v, S s.currentFn s.pc v ∧ v.guard.Holds s.stack ∧ (M → s.frameBase + v.height = s.stack.length)
  locals : s.locals.length = g.program.numLocals s.currentFn
  callers : Suspended g S M s.frameBase (s.callStack.map Frame.outline)

variable {g} {S} {M} {s s' : VM W}

/-- Where control is there is an instruction, and it leads to points of the same function. -/
theorem Covers.instr {i p : ℕ} {v : Point} (hS : Covers g S) (h : S i p v) : ∃ fn site instr, g.functions[i]? = some fn ∧
    g.sites[p]? = some site ∧ site.emitted = .instr instr ∧ g.program.code[p]? = some instr ∧
    site.Fits g.program.arity (buildLayout fn) v ∧
    ∀ q v', site.leads g.program.arity p v (.at q) v' → S i q v' := by
  obtain ⟨fn, site, hfn, hsite, hfit, hlead⟩ := hS.site i p v h
  have hemit : ∃ instr, site.emitted = .instr instr := by
    cases he : site.emitted with
    | instr instr => exact ⟨instr, rfl⟩
    | breakJump =>
      obtain ⟨q, hq, -⟩ := hlead (.label .breaks) v (by simp [Site.leads, he])
      cases hq
    | continueJump =>
      obtain ⟨q, hq, -⟩ := hlead (.label .continues) v (by simp [Site.leads, he])
      cases hq
    | endJump =>
      obtain ⟨q, hq, -⟩ := hlead (.label .ends) v (by simp [Site.leads, he])
      cases hq
  obtain ⟨instr, he⟩ := hemit
  refine ⟨fn, site, instr, hfn, hsite, he, ?_, hfit, fun q v' hq => ?_⟩
  · rw [hS.code, List.getElem?_map, hsite]
    simp [Site.instruction, he]
  · obtain ⟨q', hq', hp⟩ := hlead _ v' hq
    cases hq'
    exact hp

/-- An instruction that is no jump, call or return leads to the next one. -/
theorem Site.leads_next {arity : ℕ → ℕ} {site : Site} {i : Instruction} {p : ℕ} (v : Point) (he : site.emitted = .instr i)
    (hi : i.isControl = false) (hp : i ≠ .panic) : site.pops arity = i.pops ∧
      site.leads arity p v (.at (p + 1)) ⟨v.height - i.pops + i.pushes, v.guard.after i⟩ := by
  cases i <;> first | (cases hi; done) | exact absurd rfl hp | exact ⟨by simp [Site.pops, he], by simp [Site.leads, Site.pops, he]⟩

/-- A guard holds of what the instruction leaves on the stack. -/
theorem Guard.Holds.after {guard : Guard} {i : Instruction} {u : Unit} (h : guard.Holds s.stack)
    (hexec : execute g.program F io i s = .ok (u, s')) : (guard.after i).Holds s'.stack := by
  unfold Guard.after
  split
  · rename_i length
    obtain ⟨e, s₁, hpeek, hcheck⟩ := bind_ok.mp hexec
    obtain ⟨rfl, -, htop⟩ := peek_ok hpeek
    obtain ⟨rest, hstack⟩ := List.head?_eq_some_iff.mp htop
    split at hcheck
    · cases hcheck
    · rename_i hrange
      cases hcheck
      exact ⟨e, rest, hstack, by omega, by omega⟩
  · rename_i length slot
    obtain ⟨e, rest, hstack, hlo, hhi⟩ := h
    cases hexec
    exact ⟨⟨wordOfInt slot, false⟩, e, rest, congrArg (_ :: ·) hstack, rfl, hlo, hhi⟩
  · trivial

theorem Suspended.cons {base returnPc stackBase fnIndex numLocals : ℕ} {callers : List (ℕ × ℕ × ℕ × ℕ)} {v : Point}
    (hv : S fnIndex returnPc v) (hguard : v.guard = .none) (hheight : M → stackBase + v.height = base + 1)
    (hlocals : numLocals = g.program.numLocals fnIndex) (h : Suspended g S M stackBase callers) :
    Suspended g S M base ((returnPc, stackBase, fnIndex, numLocals) :: callers) := ⟨⟨v, hv, hguard, hheight⟩, hlocals, h⟩

/-- Going on to a point of the same function with the frames as they were. -/
theorem OnTrack.next {v : Point} (h : OnTrack g S M s) (hout : s'.outline = { s.outline with pc := s'.pc })
    (hv : S s.currentFn s'.pc v) (hguard : v.guard.Holds s'.stack) (hheight : M → s.frameBase + v.height = s'.stack.length) :
    OnTrack g S M s' := by
  have hfn : s'.currentFn = s.currentFn := congrArg Outline.currentFn hout
  have hbase : s'.frameBase = s.frameBase := congrArg Outline.frameBase hout
  have hlocals : s'.locals.length = s.locals.length := congrArg Outline.numLocals hout
  have hcallers : s'.callStack.map Frame.outline = s.callStack.map Frame.outline := congrArg Outline.callers hout
  refine ⟨⟨v, hfn ▸ hv, hguard, fun hM => ?_⟩, ?_, ?_⟩
  · rw [hbase]
    exact hheight hM
  · rw [hlocals, hfn]
    exact h.locals
  · rw [hbase, hcallers]
    exact h.callers

/-- Into a function, with the arguments off the stack. -/
theorem OnTrack.enter {f n k : ℕ} {name : String} {u : Unit} {t : VM W} {v : Point} (hS : Covers g S) (h : OnTrack g S M s)
    (ht : t.outline = { s.outline with pc := s.pc + 1 }) (hlen : t.stack.length = s.stack.length - n)
    (hv : S s.currentFn (s.pc + 1) v) (hguard : v.guard = .none)
    (hheight : M → s.frameBase + v.height = s.stack.length - k + 1)
    (hargs : M → ∀ fn, g.program.functions[f]? = some fn → k = n + fn.numParams)
    (hexec : enterFunction g.program f name t = .ok (u, s')) : OnTrack g S M s' := by
  obtain ⟨fn, hf, hle, hlen', hfn', hlocals', hbase', hpc', hcallers'⟩ := enterFunction_ok hexec
  have hfn : t.currentFn = s.currentFn := congrArg Outline.currentFn ht
  have hbase : t.frameBase = s.frameBase := congrArg Outline.frameBase ht
  have hlocals : t.locals.length = s.locals.length := congrArg Outline.numLocals ht
  have hpc : t.pc = s.pc + 1 := congrArg Outline.pc ht
  have hcallers : t.callStack.map Frame.outline = s.callStack.map Frame.outline := congrArg Outline.callers ht
  refine ⟨⟨⟨0, .none⟩, ?_, trivial, fun _ => ?_⟩, ?_, ?_⟩
  · rw [hfn', hpc']
    exact hS.entry f fn hf
  · rw [hbase']
    rfl
  · rw [hlocals', hfn', CompiledProgram.numLocals, hf]
    rfl
  · rw [hcallers', hbase', hpc, hfn, hbase, hlocals, hcallers]
    refine Suspended.cons hv hguard (fun hM => ?_) h.locals h.callers
    rw [hheight hM, hargs hM fn hf, hlen', hlen]
    omega

/-- Back to the caller, with the result on its stack. -/
theorem OnTrack.back (h : OnTrack g S M s) {t : VM W} (ht : t.outline = { s.outline with pc := s.pc + 1 })
    (hexec : return_ t = .ok (none, s')) : OnTrack g S M s' := by
  obtain ⟨hlen, hstack, frame, frames, hcalls, hcalls', hlocals', hbase', hfn', hpc'⟩ := return_ok hexec
  have hbase : t.frameBase = s.frameBase := congrArg Outline.frameBase ht
  have hcallers : t.callStack.map Frame.outline = s.callStack.map Frame.outline := congrArg Outline.callers ht
  have hsusp := h.callers
  rw [← hcallers, hcalls] at hsusp
  obtain ⟨⟨v, hv, hguard, hheight⟩, hlocals, hrest⟩ := hsusp
  refine ⟨⟨v, ?_, ?_, fun hM => ?_⟩, ?_, ?_⟩
  · rw [hfn', hpc']
    exact hv
  · rw [hguard]
    trivial
  · rw [hbase', hstack, hheight hM, hlen, hbase]
  · rw [hlocals', hfn']
    exact hlocals
  · rw [hbase', hcalls']
    exact hrest

/-- A popped value, the stack one entry lower. -/
theorem pop_ok {t : VM W} {n : ℕ} (h : pop t = .ok (n, s')) : ∃ e, t.stack = e :: s'.stack ∧ e.value = n ∧
    s'.outline = t.outline := by
  obtain ⟨e, t₁, he, h⟩ := bind_ok.mp h
  obtain ⟨rfl, rfl⟩ := Prod.mk.inj (pure_ok.mp h)
  unfold popTagged at he
  split at he
  · rename_i e' rest hstack
    split at he
    · cases he
      exact ⟨e, hstack, rfl, rfl⟩
    · cases he
  · cases he

/-- A conditional jump goes to one of two places, the condition off the stack. -/
theorem branch_ok {c : ℕ → Prop} [DecidablePred c] {target : ℕ} {t : VM W} {u : Unit}
    (h : (do if c (← pop) then jumpTo target : Exec W Unit) t = .ok (u, s')) :
    (s'.pc = target ∨ s'.pc = t.pc) ∧ s'.outline = { t.outline with pc := s'.pc } ∧
      t.stack.length = s'.stack.length + 1 := by
  obtain ⟨n, t₁, hpop, h⟩ := bind_ok.mp h
  obtain ⟨e, hstack, -, hout⟩ := pop_ok hpop
  split at h
  · cases h
    exact ⟨Or.inl rfl, by rw [← hout]; rfl, by rw [hstack]; rfl⟩
  · cases h
    have hpc : s'.pc = t.pc := congrArg Outline.pc hout
    exact ⟨Or.inr hpc, by rw [hpc, hout]; rfl, by rw [hstack]; rfl⟩

/-- To one of the two places of a conditional jump. -/
theorem OnTrack.branch {c : ℕ → Prop} [DecidablePred c] {target height : ℕ} {u : Unit} (h : OnTrack g S M s)
    (hto : ∀ q, q = target ∨ q = s.pc + 1 → S s.currentFn q ⟨height - 1, .none⟩) (hle : 1 ≤ height)
    (hheight : M → s.frameBase + height = s.stack.length)
    (hexec : (do if c (← pop) then jumpTo target : Exec W Unit) { s with pc := s.pc + 1 } = .ok (u, s')) :
    OnTrack g S M s' := by
  obtain ⟨hpc, hout, hlen⟩ := branch_ok hexec
  refine h.next hout (hto _ hpc) trivial fun hm => ?_
  have := hheight hm
  dsimp only at hlen ⊢
  omega

theorem Guard.after_call (guard : Guard) (f : ℕ) : guard.after (.call f) = .none := by
  cases guard <;> rfl

theorem Guard.after_callIndirect (guard : Guard) : guard.after .callIndirect = .none := by
  cases guard <;> rfl

theorem step_execute {P : CompiledProgram} {i : Instruction} (hi : P.code[s.pc]? = some i) (hne : i ≠ .ret)
    (h : s.step P F io = .ok (.running s')) : ∃ u, execute P F io i { s with pc := s.pc + 1 } = .ok (u, s') := by
  unfold VM.step at h
  rw [hi] at h
  split at h
  · rename_i heq
    cases heq
  · rename_i heq
    exact absurd (Option.some.inj heq) hne
  · rename_i j hj heq
    obtain rfl := Option.some.inj heq
    split at h
    · cases h
    · rename_i u t hexec
      cases h
      exact ⟨u, hexec⟩

theorem step_return {P : CompiledProgram} (hi : P.code[s.pc]? = some .ret) (h : s.step P F io = .ok (.running s')) :
    return_ { s with pc := s.pc + 1 } = .ok (none, s') := by
  unfold VM.step at h
  rw [hi] at h
  dsimp only at h
  split at h
  · cases h
  · cases h
  · rename_i t hret
    cases h
    exact hret

/-- One turn of the loop keeps the track. -/
theorem OnTrack.step (hS : Covers g S) (h : OnTrack g S M s) (hM : M → ArityAt g s)
    (hstep : s.step g.program F io = .ok (.running s')) : OnTrack g S M s' := by
  obtain ⟨v, hv, hguard, hheight⟩ := h.point
  obtain ⟨fn, site, instr, -, hsite, he, hcode, hfit, hlead⟩ := hS.instr hv
  have hnext : ({ s with pc := s.pc + 1 } : VM W).outline = { s.outline with pc := s.pc + 1 } := rfl
  cases hc : instr.isControl with
  | false =>
    have hret : instr ≠ .ret := by
      rintro rfl
      cases hc
    obtain ⟨u, hexec⟩ := step_execute hcode hret hstep
    have hne : instr ≠ .panic := by
      rintro rfl
      exact panic_stops hexec
    obtain ⟨hpops, hto⟩ := Site.leads_next v he hc hne
    obtain ⟨-, hlen, hout⟩ := execute_effect g.program F io instr hc _ _ _ hexec
    have hpc : s'.pc = s.pc + 1 := congrArg Outline.pc hout
    refine h.next (by rw [hout, hpc]; rfl) (hpc ▸ hlead _ _ hto) (Guard.Holds.after (s := { s with pc := s.pc + 1 }) hguard hexec)
      fun hm => ?_
    have hle := hfit.pops
    rw [hpops] at hle
    rw [hlen, ← hheight hm]
    dsimp only
    omega
  | true =>
    cases instr with
    | jmp target =>
      obtain ⟨u, hexec⟩ := step_execute hcode (by simp) hstep
      cases hexec
      exact h.next rfl (hlead target v (by simp [Site.leads, he])) hguard hheight
    | jz target | jnz target =>
      obtain ⟨u, hexec⟩ := step_execute hcode (by simp) hstep
      have hle : 1 ≤ v.height := by simpa [Site.pops, he, Instruction.pops] using hfit.pops
      refine h.branch (fun q hq => hlead q _ ?_) hle hheight hexec
      simpa [Site.leads, he] using hq
    | call f =>
      obtain ⟨u, hexec⟩ := step_execute hcode (by simp) hstep
      have hle : g.program.arity f ≤ v.height := by simpa [Site.pops, he] using hfit.pops
      refine h.enter (n := 0) (k := g.program.arity f) hS hnext rfl
        (hlead (s.pc + 1) ⟨v.height - g.program.arity f + 1, v.guard.after (.call f)⟩ ?_) (v.guard.after_call f)
        (fun hm => ?_) (fun _ fn hf => ?_) hexec
      · simp [Site.leads, Site.pops, he, Instruction.pushes]
      · have := hheight hm
        dsimp only
        omega
      · rw [CompiledProgram.arity, hf]
        exact (Nat.zero_add _).symm
    | callIndirect =>
      obtain ⟨u, hexec⟩ := step_execute hcode (by simp) hstep
      obtain ⟨n, t, hpop, hexec⟩ := bind_ok.mp hexec
      obtain ⟨e, hstack, rfl, hout⟩ := pop_ok hpop
      obtain ⟨params, ret, σ, hstatic⟩ := hfit.indirect he
      have hle : params.length + 1 ≤ v.height := by simpa [Site.pops, he, hstatic] using hfit.pops
      refine h.enter (n := 1) (k := params.length + 1) hS hout ?_
        (hlead (s.pc + 1) ⟨v.height - (params.length + 1) + 1, v.guard.after .callIndirect⟩ ?_)
        v.guard.after_callIndirect (fun hm => ?_) (fun hm fn hf => ?_) hexec
      · rw [show s.stack = e :: t.stack from hstack]
        rfl
      · simp [Site.leads, Site.pops, he, hstatic, Instruction.pushes]
      · have := hheight hm
        dsimp only
        omega
      · rw [hM hm site params ret σ e t.stack fn hsite he hstatic hstack hf, Nat.add_comm]
    | ret => exact h.back hnext (step_return hcode hstep)
    | _ => cases hc

theorem fillLiterals_outline {P : CompiledProgram} {ls : List (ℕ × String)} (h : VM.fillLiterals P ls s = .ok s') :
    s'.stack.length = s.stack.length ∧ s'.outline = s.outline := by
  induction ls generalizing s with
  | nil =>
    cases h
    exact ⟨rfl, rfl⟩
  | cons l ls ih =>
    unfold VM.fillLiterals at h
    split at h
    · cases h
    · split at h
      · cases h
      · rename_i addr t halloc
        obtain ⟨hout, hlen⟩ := allocString_outline halloc
        obtain ⟨hlen', hout'⟩ := ih h
        exact ⟨hlen'.trans hlen, hout'.trans hout⟩

theorem fillVariants_outline {P : CompiledProgram} {ls : List (Option StructLayout)} {typeId : ℕ}
    (h : VM.fillVariants P typeId ls s = .ok s') : s'.stack.length = s.stack.length ∧ s'.outline = s.outline := by
  induction ls generalizing s typeId with
  | nil =>
    cases h
    exact ⟨rfl, rfl⟩
  | cons l ls ih =>
    unfold VM.fillVariants at h
    split at h
    · split at h
      · cases h
      · rename_i addr t halloc
        obtain ⟨hout, hlen⟩ := allocStruct_outline halloc
        obtain ⟨hlen', hout'⟩ := ih h
        exact ⟨hlen'.trans hlen, hout'.trans hout⟩
    · exact ih h

/-- A run starts with an empty stack at the entry of a function, its literals in the heap. -/
theorem start_ok {P : CompiledProgram} {args : List String} {w : W} (h : VM.start P args w = .ok s) :
    ∃ fn, P.functions[s.currentFn]? = some fn ∧ s.pc = fn.entryPc ∧ s.stack = [] ∧ s.frameBase = 0 ∧
      s.locals.length = fn.numLocals ∧ s.callStack = [] := by
  unfold VM.start at h
  split at h
  · cases h
  · rename_i idx hidx
    obtain ⟨f, hf, rfl⟩ := Option.map_eq_some_iff.mp hidx
    have hfn : P.functions[f.2]? = some f.1 := by
      have hm := List.mem_of_getLast? hf
      exact List.mem_zipIdx_iff_getElem?.mp (List.mem_filter.mp hm).1
    split at h
    · cases h
    · rename_i s₁ hlit
      split at h
      · cases h
      · rename_i s₂ hvar
        cases h
        obtain ⟨hlen, hout⟩ := fillLiterals_outline hlit
        obtain ⟨hlen', hout'⟩ := fillVariants_outline hvar
        have hcalls : s₂.callStack.map Frame.outline = [] := congrArg Outline.callers (hout'.trans hout)
        refine ⟨f.1, hfn, ?_, List.eq_nil_of_length_eq_zero (hlen'.trans hlen), rfl, ?_, List.map_eq_nil_iff.mp hcalls⟩
        · simp [hfn]
        · simp [hfn]

theorem OnTrack.start {args : List String} {w : W} (hS : Covers g S) (h : VM.start g.program args w = .ok s) :
    OnTrack g S M s := by
  obtain ⟨fn, hfn, hpc, hstack, hbase, hlocals, hcalls⟩ := start_ok h
  refine ⟨⟨⟨0, .none⟩, ?_, trivial, fun _ => ?_⟩, ?_, ?_⟩
  · rw [hpc]
    exact hS.entry _ fn hfn
  · rw [hbase, hstack]
    rfl
  · rw [hlocals, CompiledProgram.numLocals, hfn]
    rfl
  · rw [hcalls]
    trivial

/-- A whole run, its indirect calls reaching functions of the right arity where `M` holds. -/
theorem OnTrack.steps {n : ℕ} (hS : Covers g S) (h : OnTrack g S M s)
    (hM : M → ∀ k t, k < n → s.steps g.program F io k = .ok (.running t) → ArityAt g t)
    (hrun : s.steps g.program F io n = .ok (.running s')) : OnTrack g S M s' := by
  induction n generalizing s with
  | zero =>
    cases hrun
    exact h
  | succ n ih =>
    unfold VM.steps at hrun
    split at hrun
    · cases hrun
    · cases hrun
    · rename_i t hstep
      refine ih (h.step hS (fun hm => hM hm 0 s (Nat.succ_pos n) rfl) hstep) (fun hm k u hk hu => ?_) hrun
      refine hM hm (k + 1) u (Nat.succ_lt_succ hk) ?_
      rw [VM.steps, hstep]
      exact hu

/-- Any state of a run of the program. -/
theorem OnTrack.run {args : List String} {w : W} {n : ℕ} (hS : Covers g S)
    (hM : M → ∀ k t, k < n → runMain g.program F io args w k = .ok (.running t) → ArityAt g t)
    (hrun : runMain g.program F io args w n = .ok (.running s)) : OnTrack g S M s := by
  unfold runMain at hrun hM
  split at hrun
  · cases hrun
  · rename_i s₀ hs₀
    simp only [hs₀] at hM
    exact (OnTrack.start hS hs₀).steps hS hM hrun

/-- The entries an instruction needs above the base; a call takes those of the function it reaches. -/
def VM.operands (P : CompiledProgram) (s : VM W) : Instruction → ℕ
  | .call f => P.arity f
  | .callIndirect => (s.stack.head?.elim 0 fun e => P.arity e.value) + 1
  | i => i.pops

/-- The height of the static stack before each instruction. -/
def Generated.height (g : Generated) (pc : ℕ) : ℕ := (g.sites[pc]?).elim 0 fun site => site.stack.length

theorem OnTrack.height (hS : Covers g S) (h : OnTrack g S True s) : s.stack.length = s.frameBase + g.height s.pc := by
  obtain ⟨v, hv, -, hheight⟩ := h.point
  obtain ⟨fn, site, instr, -, hsite, -, -, hfit, -⟩ := hS.instr hv
  rw [← hheight trivial, Generated.height, hsite, hfit.height]
  rfl

theorem OnTrack.operands {i : Instruction} (hS : Covers g S) (h : OnTrack g S True s) (ha : ArityAt g s)
    (hi : g.program.code[s.pc]? = some i) : s.operands g.program i ≤ g.height s.pc ∧ (i = .ret → g.height s.pc = 1) := by
  obtain ⟨v, hv, -, hheight⟩ := h.point
  obtain ⟨fn, site, instr, -, hsite, he, hcode, hfit, -⟩ := hS.instr hv
  obtain rfl := Option.some.inj (hcode.symm.trans hi)
  have hsame : g.height s.pc = v.height := by
    rw [Generated.height, hsite, hfit.height]
    rfl
  rw [hsame]
  refine ⟨?_, fun hret => hfit.ret (hret ▸ he)⟩
  have hpops := hfit.pops
  cases instr with
  | call f => simpa [Site.pops, VM.operands, he] using hpops
  | callIndirect =>
    obtain ⟨params, ret, σ, hstatic⟩ := hfit.indirect he
    have hle : params.length + 1 ≤ v.height := by simpa [Site.pops, he, hstatic] using hpops
    cases hstack : s.stack with
    | nil =>
      rw [VM.operands, hstack]
      exact le_trans (Nat.le_add_left _ _) hle
    | cons e rest =>
      rw [VM.operands, hstack]
      show g.program.arity e.value + 1 ≤ v.height
      cases hf : g.program.functions[e.value]? with
      | none =>
        rw [CompiledProgram.arity, hf]
        exact le_trans (Nat.le_add_left _ _) hle
      | some fn =>
        rw [CompiledProgram.arity, hf]
        show fn.numParams + 1 ≤ v.height
        rwa [ha site params ret σ e rest fn hsite he hstatic hstack hf]
  | _ => simpa [Site.pops, VM.operands, he] using hpops

end Tracking

/-- Every pc has a height the operand stack has whenever control is there, as long as
indirect calls reach functions of the arity of their static type. -/
theorem compiled_stack_heights {fuel : ℕ} {program : Program} {g : Generated} (h : compile fuel program = .ok g) :
    ∃ height : ℕ → ℕ, ∀ (W : Type) (F : FloatOps) (io : ProgramIO W) (args : List String) (w : W) (n : ℕ) (s : VM W),
      (∀ k t, k ≤ n → runMain g.program F io args w k = .ok (.running t) → ArityAt g t) →
      runMain g.program F io args w n = .ok (.running s) →
      s.stack.length = s.frameBase + height s.pc ∧
        ∀ i, g.program.code[s.pc]? = some i → s.operands g.program i ≤ height s.pc ∧ (i = .ret → height s.pc = 1) := by
  obtain ⟨S, hS⟩ := compile_covers h
  refine ⟨g.height, fun W F io args w n s harity hrun => ?_⟩
  have htrack : OnTrack g S True s := OnTrack.run hS (fun _ k t hk => harity k t (Nat.le_of_lt hk)) hrun
  exact ⟨htrack.height hS, fun i hi => htrack.operands hS (harity n s (Nat.le_refl n) hrun) hi⟩

/-- `fn main() { let x = 1; vm_asm { push_int 2; store_local x } println(x); }`. -/
def asmSource : Program where
  functions := [{
    name := "main", params := [], returnType := none,
    body := [
      .varDecl {} "x" none (some (.literal {} (.int 1))),
      .vmAsm {} "push_int 2\nstore_local x;",
      .println {} (.identifier {} (.plain "x"))] }]

theorem asmSource_heights : ∃ g, compile 1 asmSource = .ok g ∧ ∃ height : ℕ → ℕ,
    ∀ (W : Type) (F : FloatOps) (io : ProgramIO W) (args : List String) (w : W) (n : ℕ) (s : VM W),
      (∀ k t, k ≤ n → runMain g.program F io args w k = .ok (.running t) → ArityAt g t) →
      runMain g.program F io args w n = .ok (.running s) →
      s.stack.length = s.frameBase + height s.pc ∧
        ∀ i, g.program.code[s.pc]? = some i → s.operands g.program i ≤ height s.pc ∧ (i = .ret → height s.pc = 1) := by
  have h : (compile 1 asmSource).toOption.isSome = true := by decide +kernel
  cases hg : compile 1 asmSource with
  | error e =>
    rw [hg] at h
    cases h
  | ok g => exact ⟨g, rfl, compiled_stack_heights hg⟩

end QuinLang
