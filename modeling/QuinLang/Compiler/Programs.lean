import QuinLang.Compiler.Statements
import QuinLang.Compiler.Registered

/-! What the analyser accepts is well typed: functions and the program. -/

namespace QuinLang

open StateExcept

/-- A step of the analysis that may go from one function to another. -/
structure Grows (s s' : SemaState) : Prop where
  ok : s.Ok → s'.Ok
  le : s.Ok → s.Le s'
  generic : s'.genericFunctions = s.genericFunctions
  enums : s'.genericEnums = s.genericEnums
  queues : s.Ok → Queues s s'

variable {s s' s'' : SemaState}

theorem Grows.refl (s : SemaState) : Grows s s :=
  ⟨id, fun _ => .refl s, rfl, rfl, fun _ => .of_eq rfl rfl rfl⟩

theorem Grows.trans (h : Grows s s') (h' : Grows s' s'') : Grows s s'' :=
  ⟨fun ok => h'.ok (h.ok ok), fun ok => (h.le ok).trans (h'.le (h.ok ok)), h'.generic.trans h.generic,
    h'.enums.trans h.enums, fun ok => (h.queues ok).trans (h'.queues (h.ok ok))⟩

theorem Advances.grows (h : Advances s s') : Grows s s' := ⟨h.ok, h.le, h.generic, h.enums, h.queues⟩

theorem Grows.of_eq (ht : s'.types = s.types) (hf : s'.functions = s.functions)
    (hg : s'.genericFunctions = s.genericFunctions) (hp : s'.pending = s.pending)
    (hen : s'.genericEnums = s.genericEnums) (hw : s'.wrapped = s.wrapped) : Grows s s' :=
  ⟨fun ok => ok.of_eq ht hf hg hp hen hw,
    fun _ => ⟨ht ▸ .refl _, hf ▸ List.prefix_rfl, hw ▸ List.Subset.refl _⟩, hg, hen, fun _ => .of_eq hf hp hw⟩

section Functions

variable {fuel : ℕ}

/-- Declaring parameters gives them the first places of the frame. -/
theorem declareParams_checks {ps : List Param} {ts : List Ty} (hl : ps.length = ts.length) {scope scope' : Scope}
    (h : declareParams scope ps ts s = .ok (scope', s')) :
    ∃ syms : List Symbol, s'.frame = s.frame ++ syms ∧ syms.map Symbol.type = ts ∧
      Checks scope scope' s s' (syms.reverse ++ ·) fun _ _ _ => True := by
  induction ps generalizing scope ts s with
  | nil =>
    obtain rfl : ts = [] := List.length_eq_zero_iff.mp hl.symm
    simp only [declareParams, pure_ok, Prod.mk.injEq] at h
    obtain ⟨rfl, rfl⟩ := h
    exact ⟨[], by simp, rfl, .nothing fun _ _ _ => trivial⟩
  | cons p ps ih =>
    cases ts with
    | nil => cases hl
    | cons t ts =>
      simp only [declareParams, bind_ok] at h
      obtain ⟨⟨sym, scope₁⟩, s₁, hd, h⟩ := h
      obtain ⟨hty, hfr, hc⟩ := declare_checks hd
      obtain ⟨syms, hframe, htypes, hcs⟩ := ih (by simpa using hl) h
      refine ⟨sym :: syms, by rw [hframe, hfr]; simp, by simp [hty, htypes], ?_⟩
      have hseq := (hc.seq hcs).imp (Q := fun _ _ _ => True) fun _ _ _ _ => trivial
      simpa only [List.reverse_cons, List.append_assoc, List.singleton_append] using hseq

/-- What a checked function is read against later. -/
structure Emittable (G : Globals) (fn : TFunction) : Prop where
  typed : FunctionOk G fn
  params : ∀ sym ∈ fn.frame.take fn.numParams, fn.frame[sym.index]? = some sym
  body : StmtsScoped fn.frame false fn.body

theorem analyzeFunction_ok {name : TypeName} {fn : Function} {t : TFunction}
    (harity : ∀ sig, s.function? name = some sig → sig.params.length = fn.params.length)
    (h : analyzeFunction fuel name fn s = .ok (t, s')) :
    t.name = name ∧ s'.functionsToEmit = s.functionsToEmit ∧ Grows s s' ∧
      ∀ f : SemaState, s.Ok → s'.Le f → Emittable f.globals t := by
  simp only [analyzeFunction, bind_ok, get_ok, Prod.mk.injEq] at h
  obtain ⟨_, _, ⟨rfl, rfl⟩, h⟩ := h
  cases hs : s.function? name with
  | none => simp [hs] at h
  | some sig =>
    simp only [hs, bind_ok, modify_ok, get_ok, set_ok, require_ok, pure_ok, Prod.mk.injEq] at h
    obtain ⟨_, s₁, ⟨-, hs₁⟩, scope, s₂, hparams, ⟨body, inner⟩, s₃, hbody, _, _, ⟨-, -, rfl⟩, _, _, ⟨rfl, rfl⟩,
      _, s₄, ⟨-, hs'⟩, rfl, rfl⟩ := h
    have hsame : s₁.types = s.types ∧ s₁.functions = s.functions ∧ s₁.genericFunctions = s.genericFunctions ∧
        s₁.pending = s.pending ∧ s₁.genericEnums = s.genericEnums ∧ s₁.wrapped = s.wrapped ∧ s₁.frame = [] ∧
        s₁.loopDepth = 0 ∧ s₁.functionsToEmit = s.functionsToEmit := by
      rw [← hs₁]
      exact ⟨rfl, rfl, rfl, rfl, rfl, rfl, rfl, rfl, rfl⟩
    obtain ⟨h₁, h₂, h₃, h₄, h₅, h₆, hfr₁, hd₁, hem₁⟩ := hsame
    have hstart : Grows s s₁ := .of_eq h₁ h₂ h₃ h₄ h₅ h₆
    have hlen := harity sig hs
    obtain ⟨syms, hframe, htypes, hc⟩ := declareParams_checks hlen.symm hparams
    have hloop : s₂.loopDepth ≠ 0 → false = true := fun hne => absurd (hc.loopDepth.trans hd₁) hne
    have hb := analyzeStmts_ok fn.body hloop hbody
    have hall := hc.seq hb
    have hend : Grows s₃ s₄ := by
      rw [← hs']
      exact .of_eq rfl rfl rfl rfl rfl rfl
    have hgrow := (hstart.trans hall.advances.grows).trans hend
    refine ⟨rfl, ?_, hgrow, fun f ok hf => ?_⟩
    · rw [← hs']
      exact (hall.advances.emitted).trans hem₁
    rw [hfr₁, List.nil_append] at hframe
    have hscope : InScope [[]] [] s₁ := ⟨fun n sym hr => by simp [Scope.resolve] at hr, by simp⟩
    have hle₃ : s₃.Le f := (hend.le ((hstart.trans hall.advances.grows).ok ok)).trans hf
    obtain ⟨-, hok, hscoped⟩ := hall.ok f s₃.frame [] (hstart.ok ok) hle₃ List.prefix_rfl hscope
    have htake : s₃.frame.take fn.params.length = syms := by
      obtain ⟨rest, hrest⟩ := hb.advances.frame
      have hsl : syms.length = fn.params.length := by
        rw [← hlen, ← htypes, List.length_map]
      rw [← hrest, hframe, ← hsl, List.take_left']
      rfl
    have hparam : ∀ sym ∈ syms, s₃.frame[sym.index]? = some sym := fun sym hm => by
      refine getElem?_of_prefix hb.advances.frame ((hc.inScope [] hscope).live sym ?_)
      exact List.mem_append_left _ (List.mem_reverse.mpr hm)
    refine ⟨⟨?_, hlen.symm, ?_, ?_⟩, ?_, hscoped⟩
    · exact ((hgrow.le ok).trans hf).function? hs
    · simp only [htake]
      exact htypes
    · simp only [htake]
      simpa using hok
    · simp only [htake]
      exact hparam

/-- Checking a function hands it to code generation. -/
theorem emitFunction_ok {name : TypeName} {fn : Function} {u : Unit}
    (harity : ∀ sig, s.function? name = some sig → sig.params.length = fn.params.length)
    (h : emitFunction fuel name fn s = .ok (u, s')) :
    Grows s s' ∧ ∃ t, t.name = name ∧ s'.functionsToEmit = s.functionsToEmit ++ [t] ∧
      ∀ f : SemaState, s.Ok → s'.Le f → Emittable f.globals t := by
  simp only [emitFunction, bind_ok, modify_ok, Prod.mk.injEq] at h
  obtain ⟨t, s₁, ht, -, rfl⟩ := h
  obtain ⟨hname, hem, hgrow, hok⟩ := analyzeFunction_ok harity ht
  have hlast : Grows s₁ { s₁ with functionsToEmit := s₁.functionsToEmit ++ [t] } := .of_eq rfl rfl rfl rfl rfl rfl
  refine ⟨hgrow.trans hlast, t, hname, by rw [hem], fun f ok hf => hok f ok ?_⟩
  exact (hlast.le (hgrow.ok ok)).trans hf

/-- Every function handed over is read against what is declared in the end. -/
def SemaState.Emits (s : SemaState) : Prop :=
  ∀ f : SemaState, s.Le f → ∀ t ∈ s.functionsToEmit, Emittable f.globals t

theorem Grows.emits (h : Grows s s') (ok : s.Ok) (he : s'.functionsToEmit = s.functionsToEmit)
    (hs : s.Emits) : s'.Emits := by
  intro f hf t ht
  rw [he] at ht
  exact hs f ((h.le ok).trans hf) t ht

theorem emitFunction_emits {name : TypeName} {fn : Function} {u : Unit}
    (harity : ∀ sig, s.function? name = some sig → sig.params.length = fn.params.length)
    (h : emitFunction fuel name fn s = .ok (u, s')) (ok : s.Ok) (hs : s.Emits) : s'.Emits := by
  obtain ⟨hgrow, t, -, hem, hok⟩ := emitFunction_ok harity h
  intro f hf t' ht'
  rw [hem] at ht'
  rcases List.mem_append.mp ht' with ht' | ht'
  · exact hs f ((hgrow.le ok).trans hf) t' ht'
  · rw [List.mem_singleton.mp ht']
    exact hok f ok hf

/-- The functions code is needed for are those handed over, those waiting, and `rest`. -/
def SemaState.Linked (rest : List TypeName) (s : SemaState) : Prop :=
  s.due.Perm (rest ++ s.pending.map Prod.fst ++ s.functionsToEmit.map TFunction.name)

theorem emitFunction_linked {name : TypeName} {fn : Function} {u : Unit} {rest : List TypeName}
    (harity : ∀ sig, s.function? name = some sig → sig.params.length = fn.params.length)
    (h : emitFunction fuel name fn s = .ok (u, s')) (ok : s.Ok) (hs : s.Linked (name :: rest)) : s'.Linked rest := by
  obtain ⟨hgrow, t, hname, hem, -⟩ := emitFunction_ok harity h
  obtain ⟨new, hp, hd⟩ := hgrow.queues ok
  refine hd.trans ((List.Perm.append_right _ hs).trans ?_)
  rw [hp, hem, List.perm_iff_count]
  intro a
  simp only [List.count_append, List.count_cons, List.map_append, List.map_cons, List.map_nil, List.count_nil, hname]
  omega

theorem withNotes_ok {chain : List String} {m : Sema Unit} {r : Unit × SemaState}
    (h : drainInstantiations.withNotes chain m s = .ok r) : m s = .ok r := by
  unfold drainInstantiations.withNotes at h
  split at h
  · cases h
  · exact h

/-- What is waiting comes from an accepted declaration, so its signature has its arity. -/
theorem drainInstantiations_ok {rounds : ℕ} {u : Unit} (h : drainInstantiations fuel rounds s = .ok (u, s'))
    (ok : s.Ok) (hs : s.Emits) (hlink : s.Linked []) : s'.Ok ∧ s'.Emits ∧ s'.genericEnums = s.genericEnums ∧
      s'.due.Perm (s'.functionsToEmit.map TFunction.name) := by
  induction rounds generalizing s with
  | zero =>
    simp only [drainInstantiations, bind_ok, get_ok, Prod.mk.injEq] at h
    obtain ⟨_, _, ⟨rfl, rfl⟩, h⟩ := h
    cases hp : s.pending with
    | nil =>
      simp only [hp, pure_ok, Prod.mk.injEq] at h
      obtain ⟨-, rfl⟩ := h
      refine ⟨ok, hs, rfl, ?_⟩
      unfold SemaState.Linked at hlink
      rwa [hp] at hlink
    | cons p ps => simp [hp] at h
  | succ rounds ih =>
    simp only [drainInstantiations, bind_ok, get_ok, Prod.mk.injEq] at h
    obtain ⟨_, _, ⟨rfl, rfl⟩, h⟩ := h
    cases hp : s.pending with
    | nil =>
      simp only [hp, pure_ok, Prod.mk.injEq] at h
      obtain ⟨-, rfl⟩ := h
      refine ⟨ok, hs, rfl, ?_⟩
      unfold SemaState.Linked at hlink
      rwa [hp] at hlink
    | cons p ps =>
      obtain ⟨name, clone, chain⟩ := p
      simp only [hp, bind_ok, get_ok, modify_ok, Prod.mk.injEq] at h
      obtain ⟨_, _, ⟨rfl, rfl⟩, _, s₁, ⟨-, hs₁⟩, _, s₂, hem, _, s₃, ⟨-, hs₃⟩, h⟩ := h
      have hpend := ok.pending
      rw [hp] at hpend
      have hfn : s₁.function? = s.function? := by
        rw [← hs₁]
        rfl
      have ok₁ : s₁.Ok := by
        rw [← hs₁]
        exact ⟨ok.types, ok.sourced, ok.builtins, ok.generic, ok.instances,
          fun p hm => hpend p (List.mem_cons_of_mem _ hm), ok.names, ok.wrapped, ok.wrappers⟩
      have hem₁ : s₁.Emits := by
        rw [← hs₁]
        exact fun f hf => hs f ⟨hf.types, hf.functions, hf.wrapped⟩
      have harity : ∀ sig, s₁.function? name = some sig → sig.params.length = clone.params.length := by
        intro sig hsig
        obtain ⟨sig', hsig', hlen⟩ := hpend _ List.mem_cons_self
        rw [hfn] at hsig
        rw [← hlen, Option.some.inj (hsig.symm.trans hsig')]
      have hrun := withNotes_ok hem
      have hgrow := (emitFunction_ok harity hrun).1
      have hlast : Grows s₂ s₃ := by
        rw [← hs₃]
        exact .of_eq rfl rfl rfl rfl rfl rfl
      have hlink₁ : s₁.Linked [name] := by
        unfold SemaState.Linked at hlink ⊢
        rw [← hs₁]
        rw [hp] at hlink
        exact hlink
      have hlink₂ := emitFunction_linked harity hrun ok₁ hlink₁
      have hlink₃ : s₃.Linked [] := by
        rw [← hs₃]
        exact hlink₂
      have ok₂ := hgrow.ok ok₁
      have hem₃ := hlast.emits ok₂ (by rw [← hs₃]) (emitFunction_emits harity hrun ok₁ hem₁)
      obtain ⟨ok', hs', hen, hdue⟩ := ih h (hlast.ok ok₂) hem₃ hlink₃
      refine ⟨ok', hs', hen.trans (hlast.enums.trans (hgrow.enums.trans ?_)), hdue⟩
      rw [← hs₁]

theorem forM_emitFunction_ok {fns : List Function} {u : Unit}
    (h : fns.forM (fun f => emitFunction fuel (.named f.name) f) s = .ok (u, s')) (ok : s.Ok) (hs : s.Emits)
    (hsig : ∀ fn ∈ fns, s.HasSignature fn) (hlink : s.Linked (fns.map fun f => .named f.name)) :
    s'.Ok ∧ s'.Emits ∧ s'.genericEnums = s.genericEnums ∧ s'.Linked [] := by
  induction fns generalizing s with
  | nil =>
    simp only [List.forM_eq_forM, List.forM_nil, pure_ok, Prod.mk.injEq] at h
    obtain ⟨-, rfl⟩ := h
    exact ⟨ok, hs, rfl, hlink⟩
  | cons fn fns ih =>
    simp only [List.forM_eq_forM, List.forM_cons, bind_ok] at h
    obtain ⟨_, s₁, h₁, h₂⟩ := h
    have harity : ∀ sig, s.function? (.named fn.name) = some sig → sig.params.length = fn.params.length := by
      intro sig hsome
      obtain ⟨sig', hsig', hl⟩ := hsig fn List.mem_cons_self
      rw [← hl, Option.some.inj (hsome.symm.trans hsig')]
    have hgrow := (emitFunction_ok harity h₁).1
    obtain ⟨ok', hs', hen, hlink'⟩ := ih h₂ (hgrow.ok ok) (emitFunction_emits harity h₁ ok hs)
      (fun g hg => (hgrow.le ok).hasSignature (hsig g (List.mem_cons_of_mem _ hg)))
      (emitFunction_linked harity h₁ ok hlink)
    exact ⟨ok', hs', hen.trans hgrow.enums, hlink'⟩

theorem SemaState.Sourced.empty : SemaState.Sourced {} := fun _ he => absurd he List.not_mem_nil

theorem getBuiltins_names : (getBuiltins.map FunctionSig.name).Nodup := by decide

theorem TypeTable.Ok.empty : TypeTable.Ok {} :=
  ⟨List.nodup_nil, List.nodup_nil, by simp, by simp, by simp, fun _ => List.Perm.refl _, fun _ hi => absurd hi List.not_mem_nil⟩

/-- What an accepted program ends with: templates are its generic enums, each once. -/
structure Accepted (program : Program) (s : SemaState) : Prop where
  ok : s.Ok
  emits : s.Emits
  templates : s.genericEnums = program.enums.filter EnumDef.isGeneric
  names : (s.genericEnums.map EnumDef.name).Nodup
  due : s.due.Perm (s.functionsToEmit.map TFunction.name)

theorem analyzeProgram_ok {program : Program} {u : Unit} (h : analyzeProgram fuel program {} = .ok (u, s')) :
    Accepted program s' := by
  simp only [analyzeProgram, bind_ok, modify_ok, Prod.mk.injEq] at h
  obtain ⟨_, s₁, hst, _, s₂, hen, _, s₃, ⟨-, hs₃⟩, _, s₄, hfn, _, s₅, hentry, _, s₆, hem, hdrain⟩ := h
  obtain ⟨hr₁, hg₁⟩ := registerStructs_ok hst rfl
  obtain ⟨hr₂, hk⟩ := registerEnums_ok hen (hr₁.ok .empty) (hr₁.sourced .empty)
  have hr := hr₁.trans hr₂
  have htemplates : s₂.genericEnums = program.enums.filter EnumDef.isGeneric := by
    rw [hk.templates, hg₁]
    exact List.nil_append _
  have hnames : (s₂.genericEnums.map EnumDef.name).Nodup := hk.names (by rw [hg₁]; exact List.nodup_nil)
  have hstart : s₃.Declaring := by
    rw [← hs₃]
    refine ⟨⟨hr.ok .empty, hr.sourced .empty, List.prefix_rfl, ?_, ?_, ?_, getBuiltins_names, ?_, ?_⟩,
      getBuiltins_plain, hr.pending, hr.emitted, hr.wrapped⟩
    · intro g hg
      simp [hr.generic] at hg
    · intro sig hs base args hn g hg
      simp [SemaState.genericFunction?, hr.generic] at hg
    · intro p hp
      simp [hr.pending] at hp
    · simp [hr.wrapped]
    · intro n hn
      simp [hr.wrapped] at hn
  obtain ⟨hdecl, -, hen₄, hsig, hdue₄⟩ := forM_registerFunction_ok hfn hstart
  obtain rfl := checkEntryPoint_ok hentry
  have hempty : s₅.Emits := by
    intro f hf t ht
    simp [hdecl.emitted] at ht
  have hnone : s₃.due = [] := by
    rw [hstart.due, ← hs₃]
    simp
  have hlink : s₅.Linked ((program.functions.filter fun f => f.typeParams = []).map fun f => .named f.name) := by
    unfold SemaState.Linked
    rw [hdue₄, hnone, hdecl.pending, hdecl.emitted]
    simp
  obtain ⟨ok₆, hs₆, hen₆, hlink₆⟩ := forM_emitFunction_ok hem hdecl.ok hempty (fun fn hm => by
    obtain ⟨hm, hp⟩ := List.mem_filter.mp hm
    exact hsig fn hm (by simpa using hp)) hlink
  obtain ⟨ok', hs', hen', hdue⟩ := drainInstantiations_ok hdrain ok₆ hs₆ hlink₆
  have hsame : s'.genericEnums = s₂.genericEnums := by
    rw [hen', hen₆, hen₄, ← hs₃]
  exact ⟨ok', hs', hsame.trans htemplates, hsame ▸ hnames, hdue⟩

/-- An accepted program is well typed, and its tables are well formed. -/
theorem analyze_ok {program : Program} {checked : CheckedProgram} (h : analyze fuel program = .ok checked) :
    ∃ s, Accepted program s ∧ checked.types = s.types ∧ checked.functions = s.functionsToEmit ∧
      ∀ t ∈ checked.functions, Emittable s.globals t := by
  unfold analyze at h
  cases hp : analyzeProgram fuel program {} with
  | error e => simp [hp] at h
  | ok r =>
    obtain ⟨u, s⟩ := r
    simp only [hp, Except.ok.injEq] at h
    subst h
    have hacc := analyzeProgram_ok hp
    exact ⟨s, hacc, rfl, rfl, hacc.emits s (.refl s)⟩

end Functions

end QuinLang
