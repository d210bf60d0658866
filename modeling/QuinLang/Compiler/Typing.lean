import QuinLang.Compiler.WellTyped

/-! What the analyser accepts is well typed: expressions. -/

namespace QuinLang

open StateExcept

/-- What holds of the analyser's state whenever it is at an expression. -/
structure SemaState.Ok (s : SemaState) : Prop where
  types : s.types.Ok
  sourced : s.Sourced
  builtins : getBuiltins <+: s.functions
  generic : ∀ g ∈ s.genericFunctions, ∀ b ∈ getBuiltins, b.name ≠ .named g.name
  instances : ∀ sig ∈ s.functions, ∀ base args, sig.name = .app base args →
    ∀ g, s.genericFunction? base = some g → sig.params.length = g.params.length
  pending : ∀ p ∈ s.pending, ∃ sig, s.function? p.1 = some sig ∧ sig.params.length = p.2.1.params.length
  names : (s.functions.map FunctionSig.name).Nodup
  wrapped : s.wrapped.Nodup
  wrappers : ∀ n ∈ s.wrapped, ∃ b ∈ getBuiltins, b.name = .named n

/-- What `s` has declared, `f` has as well. -/
structure SemaState.Le (s f : SemaState) : Prop where
  types : s.types.Le f.types
  functions : s.functions <+: f.functions
  wrapped : s.wrapped ⊆ f.wrapped

theorem SemaState.Le.refl (s : SemaState) : s.Le s := ⟨.refl _, List.prefix_rfl, List.Subset.refl _⟩

theorem SemaState.Le.trans {s t u : SemaState} (h : s.Le t) (h' : t.Le u) : s.Le u :=
  ⟨h.types.trans h'.types, h.functions.trans h'.functions, List.Subset.trans h.wrapped h'.wrapped⟩

theorem SemaState.Le.function? {s f : SemaState} (h : s.Le f) {n : TypeName} {sig : FunctionSig}
    (hs : s.function? n = some sig) : f.function? n = some sig := by
  obtain ⟨rest, hrest⟩ := h.functions
  simp only [SemaState.function?] at hs ⊢
  rw [← hrest, List.find?_append, hs]
  rfl

/-- The functions code is needed for: those declared, and the builtins that are values. -/
def SemaState.due (s : SemaState) : List TypeName :=
  (s.functions.drop getBuiltins.length).map FunctionSig.name ++ s.wrapped.map TypeName.named

/-- Every function that became due waits to be checked. -/
def Queues (s s' : SemaState) : Prop :=
  ∃ new, s'.pending = s.pending ++ new ∧ s'.due.Perm (s.due ++ new.map Prod.fst)

theorem Queues.of_eq {s s' : SemaState} (hf : s'.functions = s.functions) (hp : s'.pending = s.pending)
    (hw : s'.wrapped = s.wrapped) : Queues s s' :=
  ⟨[], by rw [hp, List.append_nil], by simp [SemaState.due, hf, hw]⟩

theorem Queues.trans {s t u : SemaState} (h : Queues s t) (h' : Queues t u) : Queues s u := by
  obtain ⟨new, hp, hd⟩ := h
  obtain ⟨new', hp', hd'⟩ := h'
  refine ⟨new ++ new', by rw [hp', hp, List.append_assoc], hd'.trans ?_⟩
  rw [List.map_append, ← List.append_assoc]
  exact hd.append_right _

/-- A step of the analysis from `s` to `s'` that declares no variable. -/
structure Extends (s s' : SemaState) : Prop where
  ok : s.Ok → s'.Ok
  le : s.Ok → s.Le s'
  frame : s'.frame = s.frame
  emitted : s'.functionsToEmit = s.functionsToEmit
  generic : s'.genericFunctions = s.genericFunctions
  enums : s'.genericEnums = s.genericEnums
  loopDepth : s'.loopDepth = s.loopDepth
  queues : s.Ok → Queues s s'

variable {s s' s'' : SemaState}

theorem Extends.refl (s : SemaState) : Extends s s :=
  ⟨id, fun _ => .refl s, rfl, rfl, rfl, rfl, rfl, fun _ => .of_eq rfl rfl rfl⟩

theorem Extends.trans (h : Extends s s') (h' : Extends s' s'') : Extends s s'' :=
  ⟨fun ok => h'.ok (h.ok ok), fun ok => (h.le ok).trans (h'.le (h.ok ok)), h'.frame.trans h.frame,
    h'.emitted.trans h.emitted, h'.generic.trans h.generic, h'.enums.trans h.enums, h'.loopDepth.trans h.loopDepth,
    fun ok => (h.queues ok).trans (h'.queues (h.ok ok))⟩

/-- Changing what the tables do not depend on. -/
theorem SemaState.Ok.of_eq (ok : s.Ok) (ht : s'.types = s.types) (hf : s'.functions = s.functions)
    (hg : s'.genericFunctions = s.genericFunctions) (hp : s'.pending = s.pending)
    (hen : s'.genericEnums = s.genericEnums) (hw : s'.wrapped = s.wrapped) : s'.Ok := by
  have hfn : s'.function? = s.function? := by
    funext n
    simp only [SemaState.function?, hf]
  refine ⟨ht ▸ ok.types, ok.sourced.congr hen fun e he => ⟨e, ht ▸ he, rfl, rfl⟩, hf ▸ ok.builtins, hg ▸ ok.generic,
    ?_, ?_, hf ▸ ok.names, hw ▸ ok.wrapped, hw ▸ ok.wrappers⟩
  · intro sig hs base args hn g hgen
    refine ok.instances sig (hf ▸ hs) base args hn g ?_
    simpa [SemaState.genericFunction?, hg] using hgen
  · rw [hp, hfn]
    exact ok.pending

theorem Instantiates.extends (h : Instantiates s s') : Extends s s' := by
  have hrest := h.rest
  refine ⟨fun ok => ?_, fun ok => ⟨h.le ok.types, ?_, ?_⟩, ?_, ?_, ?_, ?_, ?_, fun _ => .of_eq ?_ ?_ ?_⟩
  · have hsourced := h.sourced ok.sourced
    rw [hrest] at hsourced ⊢
    exact ⟨h.ok ok.types, hsourced, ok.builtins, ok.generic, ok.instances, ok.pending, ok.names, ok.wrapped, ok.wrappers⟩
  all_goals rw [hrest]
  exact List.Subset.refl _

theorem function?_mem {n : TypeName} {sig : FunctionSig} (h : s.function? n = some sig) :
    sig ∈ s.functions ∧ sig.name = n :=
  ⟨List.mem_of_find?_eq_some h, by simpa using List.find?_some h⟩

theorem genericFunction?_mem {n : String} {g : Function} (h : s.genericFunction? n = some g) :
    g ∈ s.genericFunctions ∧ g.name = n :=
  ⟨List.mem_of_find?_eq_some h, by simpa using List.find?_some h⟩

/-- A name that finds a builtin's signature names a builtin, and any other does not. -/
theorem SemaState.Ok.function?_cases (ok : s.Ok) {n : TypeName} {sig : FunctionSig}
    (h : s.function? n = some sig) : sig ∈ getBuiltins ∨ ∀ b ∈ getBuiltins, b.name ≠ n := by
  obtain ⟨rest, hrest⟩ := ok.builtins
  simp only [SemaState.function?, ← hrest, List.find?_append] at h
  cases hb : getBuiltins.find? fun sig => sig.name = n with
  | some b =>
    rw [hb] at h
    cases h
    exact Or.inl (List.mem_of_find?_eq_some hb)
  | none =>
    refine Or.inr fun b hm => ?_
    simpa using List.find?_eq_none.mp hb b hm

@[simp]
theorem liftType_ok {α : Type} {r : Except String α} {pos : Pos} {x : α × SemaState} :
    liftType r pos s = .ok x ↔ ∃ a, r = .ok a ∧ (a, s) = x := by
  cases r <;> simp [liftType]

/-! The parts of an expression's check that type nothing. -/

section Checks

@[simp]
theorem frameLength_ok {t : Ty} {message : String} {pos : Pos} {x : ℕ × SemaState} :
    frameLength t message pos s = .ok x ↔ t.isFrameArray = true ∧ (t.arrayLength, s) = x := by
  simp only [frameLength, bind_ok, require_ok, pure_ok, Prod.mk.injEq]
  constructor
  · rintro ⟨_, _, ⟨h, _, hs⟩, hx⟩
    exact ⟨h, hs ▸ hx⟩
  · rintro ⟨h, hx⟩
    exact ⟨(), s, ⟨h, trivial, rfl⟩, hx⟩

theorem indexable_ok {t : Ty} {message : String} {pos : Pos} {x : ℕ × SemaState}
    (h : indexable t message pos s = .ok x) : t.isFrameArray = true ∧ x.2 = s := by
  simp only [indexable, bind_ok, require_ok, frameLength_ok, Prod.mk.injEq] at h
  obtain ⟨_, _, ⟨-, -, rfl⟩, harr, rfl⟩ := h
  exact ⟨harr, rfl⟩

theorem checkIndex_ok {length : ℕ} {written : Expr} {index : TExpr} {pos : Pos} {x : Unit × SemaState}
    (h : checkIndex length written index pos s = .ok x) : index.type = .int ∧ x.2 = s := by
  simp only [checkIndex, bind_ok, require_ok, Prod.mk.injEq, decide_eq_true_eq] at h
  obtain ⟨_, _, ⟨ht, -, rfl⟩, h⟩ := h
  cases hl : literalInt written <;> simp [hl] at h
  · exact ⟨ht, by rw [← h]⟩
  · exact ⟨ht, by rw [← h.2]⟩

theorem checkConstLength_ok {length : ℕ} {written : Expr} {what : String} {offset : ℤ} {pos : Pos}
    {x : Unit × SemaState} (h : checkConstLength length written what offset pos s = .ok x) : x.2 = s := by
  unfold checkConstLength at h
  cases hl : literalInt written <;> simp [hl] at h
  · rw [← h]
  · rw [← h.2]

theorem variantArity_ok {isCall : Bool} {info : VariantInfo} {given : ℕ} {pos : Pos}
    {x : Unit × SemaState} (h : variantArity isCall info given pos s = .ok x) :
    given = info.fields.length ∧ x.2 = s := by
  simp only [variantArity, bind_ok, require_ok, Prod.mk.injEq, decide_eq_true_eq] at h
  obtain ⟨_, _, ⟨-, -, rfl⟩, hl, rfl⟩ := h
  exact ⟨hl, rfl⟩

theorem checkPayload_ok {info : VariantInfo} {position : ℕ} {args : List TExpr} {flds : List StructField}
    {x : Unit × SemaState} (hl : args.length = flds.length)
    (h : checkPayload info position args flds s = .ok x) :
    Fit args (flds.map StructField.type) ∧ x.2 = s := by
  induction args generalizing position flds with
  | nil =>
    obtain rfl : flds = [] := List.length_eq_zero_iff.mp hl.symm
    simp only [checkPayload, pure_ok] at h
    exact ⟨.nil, by rw [← h]⟩
  | cons a args ih =>
    cases flds with
    | nil => cases hl
    | cons fld flds =>
      simp only [checkPayload, bind_ok, require_ok, Prod.mk.injEq] at h
      obtain ⟨_, _, ⟨ha, -, rfl⟩, h⟩ := h
      obtain ⟨hf, hs⟩ := ih (by simpa using hl) h
      exact ⟨.cons ha hf, hs⟩

theorem checkInstanceArgs_ok {mangled : TypeName} {args : List TExpr} {params : List Ty}
    {x : Unit × SemaState} (h : checkInstanceArgs mangled args params s = .ok x) :
    x.2 = s ∧ (args.length = params.length → Fit args params) := by
  induction args generalizing params with
  | nil =>
    simp only [checkInstanceArgs, pure_ok] at h
    refine ⟨by rw [← h], fun hl => ?_⟩
    rw [List.length_eq_zero_iff.mp hl.symm]
    exact .nil
  | cons a args ih =>
    cases params with
    | nil =>
      simp only [checkInstanceArgs, pure_ok] at h
      exact ⟨by rw [← h], by simp⟩
    | cons t params =>
      simp only [checkInstanceArgs, bind_ok, requireNoted_ok, Prod.mk.injEq] at h
      obtain ⟨_, _, ⟨ha, -, rfl⟩, h⟩ := h
      obtain ⟨hs, hf⟩ := ih h
      exact ⟨hs, fun hl => .cons ha (hf (by simpa using hl))⟩

theorem fieldType_ok {t : Ty} {field : String} {pos : Pos} {x : Ty × SemaState}
    (h : fieldType t field pos s = .ok x) : FieldOk s.globals t field x.1 ∧ x.2 = s := by
  simp only [fieldType, bind_ok, get_ok] at h
  obtain ⟨_, _, ⟨rfl, rfl⟩, h⟩ := h
  cases hn : t.structName? with
  | none => simp [hn] at h
  | some n =>
    cases hi : s.types.struct? n with
    | none => simp [hn, hi] at h
    | some info =>
      cases hf : info.fieldNamed field with
      | none => simp [hn, hi, hf] at h
      | some fld =>
        simp only [hn, hi, hf, pure_ok] at h
        subst h
        refine ⟨⟨n, info, fld, ?_, hi, hf, rfl⟩, rfl⟩
        cases t <;> simp [Ty.structName?] at hn
        rw [hn]

theorem element?_eq_some {t element : Ty} (h : t.element? = some element) : t = .array element := by
  cases t <;> simp [Ty.element?] at h
  rw [h]

theorem calleeType_ok {t : Ty} {described : String} {given : ℕ} {pos : Pos} {x : (List Ty × Ty) × SemaState}
    (h : calleeType t described given pos s = .ok x) :
    t = .func x.1.1 x.1.2 ∧ x.1.1.length = given ∧ x.2 = s := by
  unfold calleeType at h
  cases t with
  | func params ret =>
    simp only at h
    split at h
    · simp only [pure_ok] at h
      subst h
      exact ⟨rfl, ‹_›, rfl⟩
    · simp at h
  | _ => simp at h

end Checks

/-! Instances of functions. -/

section Instances

variable {fuel : ℕ}

theorem resolveParams_ok {ps : List Param} {ts : List Ty} (h : resolveParams fuel ps s = .ok (ts, s')) :
    Instantiates s s' ∧ ts.length = ps.length := by
  induction ps generalizing s ts with
  | nil =>
    simp only [resolveParams, pure_ok, Prod.mk.injEq] at h
    obtain ⟨rfl, rfl⟩ := h
    exact ⟨.refl _, rfl⟩
  | cons p ps ih =>
    simp only [resolveParams, bind_ok, pure_ok, Prod.mk.injEq] at h
    obtain ⟨t, s₁, ht, ts, s₂, hts, rfl, rfl⟩ := h
    obtain ⟨hi, hl⟩ := ih hts
    exact ⟨(resolveType_spec ht).1.trans hi, by simp [hl]⟩

theorem resolveReturn_ok {fn : Function} {t : Ty} (h : resolveReturn fuel fn s = .ok (t, s')) :
    Instantiates s s' := by
  unfold resolveReturn at h
  cases hr : fn.returnType with
  | none =>
    simp only [hr, pure_ok, Prod.mk.injEq] at h
    obtain ⟨-, rfl⟩ := h
    exact .refl _
  | some n =>
    simp only [hr] at h
    exact (resolveType_spec h).1

theorem writtenSubst_ok {ps : List String} {ns : List TypeName} {pos : Pos} {subs : Subst}
    (h : writtenSubst fuel ps ns pos s = .ok (subs, s')) : Instantiates s s' := by
  induction ps generalizing ns s subs with
  | nil =>
    simp only [writtenSubst, pure_ok, Prod.mk.injEq] at h
    obtain ⟨-, rfl⟩ := h
    exact .refl _
  | cons p ps ih =>
    cases ns with
    | nil =>
      simp only [writtenSubst, pure_ok, Prod.mk.injEq] at h
      obtain ⟨-, rfl⟩ := h
      exact .refl _
    | cons n ns =>
      simp only [writtenSubst, bind_ok, pure_ok, Prod.mk.injEq] at h
      obtain ⟨t, s₁, ht, rest, s₂, hr, -, rfl⟩ := h
      exact (resolveType_spec ht).1.trans (ih hr)

/-- Instantiating a function finds or adds its signature, with the template's arity. -/
theorem instantiateFunction_ok {template : Function} {subs : Subst} {base : String}
    {args : List TypeName} {pos : Pos} {sig : FunctionSig}
    (hgen : s.genericFunction? base = some template)
    (h : instantiateFunction fuel template subs (.app base args) pos s = .ok (sig, s')) :
    Extends s s' ∧ (s.Ok → s'.function? (.app base args) = some sig ∧
      sig.params.length = template.params.length) := by
  simp only [instantiateFunction, bind_ok, get_ok] at h
  obtain ⟨_, _, ⟨rfl, rfl⟩, h⟩ := h
  cases hf : s.function? (.app base args) with
  | some sig' =>
    simp only [hf, pure_ok, Prod.mk.injEq] at h
    obtain ⟨rfl, rfl⟩ := h
    obtain ⟨hm, hn⟩ := function?_mem hf
    exact ⟨.refl _, fun ok => ⟨hf, ok.instances _ hm base args hn template hgen⟩⟩
  | none =>
    simp only [hf, bind_ok, get_ok, modify_ok, pure_ok, Prod.mk.injEq] at h
    obtain ⟨_, s₁, hd, _, _, ⟨rfl, rfl⟩, _, _, ⟨rfl, rfl⟩, _, _, ⟨-, rfl⟩, params, s₂, hps, ret, s₃, hr, _, _,
      ⟨-, rfl⟩, rfl, rfl⟩ := h
    obtain rfl := checkDepth_ok hd
    obtain ⟨hi, hlen⟩ := resolveParams_ok hps
    have hi' := hi.trans (resolveReturn_ok hr)
    have hrest := hi'.rest
    have htypes := Instantiates.le hi'
    have hlen' : params.length = template.params.length := by
      rw [hlen]
      simp [Function.instantiate]
    have hle : ∀ n, n ≠ .app base args → (s₃.functions ++ [FunctionSig.mk (.app base args) params ret false]).find?
        (fun sig => sig.name = n) = s₁.function? n := fun n hn => by
      rw [hrest, List.find?_append, List.find?_cons_of_neg (by simpa using Ne.symm hn), List.find?_nil,
        Option.or_none]
      rfl
    have hnew : (s₃.functions ++ [FunctionSig.mk (.app base args) params ret false]).find?
        (fun sig => sig.name = .app base args) = some ⟨.app base args, params, ret, false⟩ := by
      have : s₃.functions = s₁.functions := by rw [hrest]
      simp only [SemaState.function?] at hf
      rw [this, List.find?_append, hf, List.find?_cons_of_pos (by simp)]
      rfl
    refine ⟨⟨fun ok => ⟨hi'.ok ok.types, (hi'.sourced ok.sourced).congr rfl fun e he => ⟨e, he, rfl, rfl⟩, ?_, ?_, ?_,
      ?_, ?_, ?_, ?_⟩, fun ok => ⟨htypes ok.types, ?_, ?_⟩, ?_, ?_, ?_, ?_, ?_, fun ok => ?_⟩,
      fun _ => ⟨hnew, hlen'⟩⟩
    · rw [hrest]
      exact ok.builtins.trans (List.prefix_append _ _)
    · rw [hrest]
      exact ok.generic
    · intro sig hs base' args' hn g hg
      have hg' : s₁.genericFunction? base' = some g := by
        rw [hrest] at hg
        exact hg
      rcases List.mem_append.mp hs with hs | hs
      · rw [hrest] at hs
        exact ok.instances sig hs base' args' hn g hg'
      · rw [List.mem_singleton.mp hs] at hn ⊢
        simp only [TypeName.app.injEq] at hn
        obtain ⟨rfl, rfl⟩ := hn
        rw [hgen] at hg'
        cases hg'
        exact hlen'
    · intro p hp
      rcases List.mem_append.mp hp with hp | hp
      · rw [hrest] at hp
        obtain ⟨sig, hsig, hl⟩ := ok.pending p hp
        refine ⟨sig, ?_, hl⟩
        have hne : p.1 ≠ .app base args := by
          intro he
          rw [he, hf] at hsig
          cases hsig
        exact (hle _ hne).trans hsig
      · rw [List.mem_singleton.mp hp]
        exact ⟨_, hnew, hlen⟩
    · rw [hrest, List.map_append]
      refine List.Nodup.append ok.names (List.nodup_singleton _) (List.disjoint_singleton.mpr fun hm => ?_)
      obtain ⟨sig, hsig, hn⟩ := List.mem_map.mp hm
      exact List.find?_eq_none.mp hf sig hsig (by simpa using hn)
    · rw [hrest]
      exact ok.wrapped
    · rw [hrest]
      exact ok.wrappers
    · rw [hrest]
      exact List.prefix_append _ _
    · rw [hrest]
      exact List.Subset.refl _
    iterate 5 rw [hrest]
    · refine ⟨[(.app base args, _, _)], by rw [hrest], ?_⟩
      have hfn : s₃.functions = s₁.functions := by rw [hrest]
      have hw : s₃.wrapped = s₁.wrapped := by rw [hrest]
      simp only [SemaState.due, hfn, hw]
      rw [List.drop_append_of_le_length ok.builtins.length_le, List.map_append, List.append_assoc, List.append_assoc]
      exact List.perm_append_comm.append_left _

end Instances

/-! What an analysis establishes is said of the tables it ends with and of any later ones,
since a table only grows. -/

/-- The scope binds names to variables of `live`. -/
def Visible (scope : Scope) (live : List Symbol) : Prop :=
  ∀ name sym, scope.resolve name = some sym → sym ∈ live

/-- A step of the analysis in `scope` that establishes `P`. -/
def Analyzed (scope : Scope) (s s' : SemaState) (P : Globals → List Symbol → Prop) : Prop :=
  Extends s s' ∧ ∀ f live, s.Ok → s'.Le f → Visible scope live → P f.globals live

namespace Analyzed

variable {scope : Scope} {P Q : Globals → List Symbol → Prop}

theorem imp (h : Analyzed scope s s' P) (hpq : ∀ G live, P G live → Q G live) : Analyzed scope s s' Q :=
  ⟨h.1, fun f live ok hf hv => hpq _ _ (h.2 f live ok hf hv)⟩

theorem and (h : Analyzed scope s s' P) (h' : Analyzed scope s' s'' Q) :
    Analyzed scope s s'' fun G live => P G live ∧ Q G live :=
  ⟨h.1.trans h'.1, fun f live ok hf hv =>
    ⟨h.2 f live ok ((h'.1.le (h.1.ok ok)).trans hf) hv, h'.2 f live (h.1.ok ok) hf hv⟩⟩

theorem of_extends (h : Extends s s') : Analyzed scope s s' fun _ _ => True :=
  ⟨h, fun _ _ _ _ _ => trivial⟩

theorem of_ok (hP : ∀ f live, s.Ok → s.Le f → Visible scope live → P f.globals live) : Analyzed scope s s P :=
  ⟨.refl s, hP⟩

theorem function? {n : TypeName} {sig : FunctionSig} (h : s.function? n = some sig) :
    Analyzed scope s s fun G _ => G.sig? n = some sig :=
  of_ok fun _ _ _ hf _ => hf.function? h

theorem struct? {n : TypeName} {info : StructInfo} (h : s.types.struct? n = some info) :
    Analyzed scope s s fun G _ => G.types.struct? n = some info :=
  of_ok fun _ _ _ hf _ => hf.types.struct n info h

theorem variant? {n : TypeName} {short : String} {info : VariantInfo}
    (h : s.types.variant? n short = some info) :
    Analyzed scope s s fun G _ => G.types.HasVariant info.enumName info :=
  of_ok fun _ _ ok hf _ => hf.types.hasVariant (ok.types.hasVariant (TypeTable.variant?_eq_some h).1)

theorem resolve {name : Name} {sym : Symbol} (h : resolveName scope name = some sym) :
    Analyzed scope s s fun _ live => sym ∈ live := by
  refine of_ok fun _ _ _ _ hv => ?_
  cases name with
  | plain n => exact hv n sym h
  | path => cases h

theorem fieldType {t : Ty} {field : String} {pos : Pos} {ft : Ty}
    (h : QuinLang.fieldType t field pos s = .ok (ft, s')) :
    Analyzed scope s s' fun G _ => FieldOk G t field ft := by
  obtain ⟨⟨n, info, fld, ht, hi, hf, hft⟩, rfl⟩ := fieldType_ok h
  exact (struct? hi).imp fun G _ hG => ⟨n, info, fld, ht, hG, hf, hft⟩

end Analyzed

section Calls

variable {fuel : ℕ} {scope : Scope} {pos : Pos} {expected : Option Ty} {t : TExpr}

theorem not_arrayBuiltin {callee : String} (h : ∀ b ∈ getBuiltins, b.name ≠ .named callee) :
    callee ∉ arrayBuiltins := by
  intro hm
  have hall : ∀ c ∈ arrayBuiltins, ∃ b ∈ getBuiltins, b.name = .named c := by decide
  obtain ⟨b, hb, hn⟩ := hall callee hm
  exact h b hb hn

theorem getBuiltins_plain : ∀ sig ∈ getBuiltins, ∃ n, sig.name = .named n := by
  have h : ∀ sig ∈ getBuiltins, ∀ n ∈ [sig.name], n = .named n.spell := by decide
  exact fun sig hs => ⟨_, h sig hs _ List.mem_cons_self⟩

theorem builtin_ne_app {base : String} {args : List TypeName} : ∀ b ∈ getBuiltins, b.name ≠ .app base args := by
  intro b hb hn
  obtain ⟨n, hn'⟩ := getBuiltins_plain b hb
  rw [hn'] at hn
  cases hn

theorem callSubst_ok {template : Function} {callee : String} {argTypes : List Ty} {typeArgs : List TypeName}
    {subs : Subst} (h : callSubst fuel template callee argTypes typeArgs expected pos s = .ok (subs, s')) :
    Extends s s' := by
  unfold callSubst at h
  split at h
  · simp only [pure_ok, Prod.mk.injEq] at h
    obtain ⟨-, rfl⟩ := h
    exact .refl _
  · simp only [templateArity, bind_ok, requireNoted_ok, Prod.mk.injEq] at h
    obtain ⟨_, _, ⟨-, -, rfl⟩, h⟩ := h
    exact (writtenSubst_ok h).extends

theorem analyzeGenericCall_ok {template : Function} {callee : String} {args : List TExpr}
    {typeArgs : List TypeName} (hgen : s.genericFunction? callee = some template)
    (hlen : args.length = template.params.length)
    (h : analyzeGenericCall fuel template callee args typeArgs expected pos s = .ok (t, s')) :
    Analyzed scope s s' fun G live => ExprsOk G live args → ExprOk G live t := by
  simp only [analyzeGenericCall, bind_ok, requireNoted_ok, pure_ok, Prod.mk.injEq] at h
  obtain ⟨subs, s₁, hsubs, _, _, ⟨-, -, rfl⟩, sig, s₂, hinst, _, _, hargs, rfl, rfl⟩ := h
  have hext := callSubst_ok hsubs
  have hgen₁ : s₁.genericFunction? callee = some template := by
    simpa [SemaState.genericFunction?, hext.generic] using hgen
  obtain ⟨hext', hsig⟩ := instantiateFunction_ok hgen₁ hinst
  obtain ⟨rfl, hfit⟩ := checkInstanceArgs_ok hargs
  refine ⟨hext.trans hext', fun f live ok hf hv hes => ⟨?_, hes⟩⟩
  obtain ⟨hm, rfl⟩ := genericFunction?_mem hgen
  obtain ⟨hfn, hparams⟩ := hsig (hext.ok ok)
  have hb := ok.generic template hm
  exact .function (not_arrayBuiltin hb) hb builtin_ne_app (hf.function? hfn) (hfit (hlen.trans hparams.symm))

theorem analyzeGenericVariant_ok {ed : EnumDef} {vd : VariantDef} {isCall : Bool} {args : List TExpr}
    (h : analyzeGenericVariant fuel ed vd isCall args expected pos s = .ok (t, s')) :
    Analyzed scope s s' fun G live => ExprsOk G live args → ExprOk G live t := by
  simp only [analyzeGenericVariant, bind_ok, requireNoted_ok, get_ok, Prod.mk.injEq] at h
  obtain ⟨_, _, ⟨-, -, rfl⟩, _, s₁, hens, _, _, ⟨rfl, rfl⟩, h⟩ := h
  have hext := (ensureInstantiated_spec _ _ _ _ _ hens).extends
  cases hv : s₁.types.variant? (.app ed.name (bound ed.typeParams
      (genericVariantSubst ed vd (args.map TExpr.type) expected))) vd.name with
  | none => simp [hv] at h
  | some info =>
    simp only [hv, bind_ok, pure_ok, Prod.mk.injEq] at h
    obtain ⟨_, s₂, harity, _, s₃, hpay, rfl, rfl⟩ := h
    obtain ⟨hlen, hs₂⟩ := variantArity_ok harity
    obtain ⟨hfit, hs₃⟩ := checkPayload_ok hlen hpay
    obtain rfl : s₃ = s₁ := hs₃.trans hs₂
    exact ((Analyzed.of_extends hext).and (.variant? hv)).imp fun G live hG hes => ⟨hG.2, hfit, hes⟩

theorem getBuiltins_isBuiltin : ∀ b ∈ getBuiltins, b.isBuiltin = true := by decide

theorem valueBuiltins_named : ∀ n ∈ valueBuiltins, ∃ b ∈ getBuiltins, b.name = .named n := by decide

/-- A wrapper queued under a builtin's name takes the builtin's arguments. -/
theorem builtinValue_ok {name : String} {sig : FunctionSig} (hs : s.function? (.named name) = some sig)
    (h : builtinValue name sig pos s = .ok (t, s')) :
    Analyzed scope s s' fun G live => ExprOk G live t := by
  simp only [builtinValue, bind_ok, requireNoted_ok, modify_ok, pure_ok, Prod.mk.injEq] at h
  obtain ⟨_, _, ⟨-, -, rfl⟩, _, _, ⟨hvalue, -, rfl⟩, _, _, ⟨-, rfl⟩, rfl, rfl⟩ := h
  have hext : Extends s (if name ∈ s.wrapped then s else { s with
      wrapped := s.wrapped ++ [name]
      pending := s.pending ++ [(.named name, builtinWrapper name sig s.currentFile pos, s.chain)] }) := by
    split
    · exact .refl s
    · rename_i hnew
      refine ⟨fun ok => ⟨ok.types, ok.sourced.congr rfl fun e he => ⟨e, he, rfl, rfl⟩, ok.builtins, ok.generic,
        ok.instances, fun p hp => ?_, ok.names, ?_, fun n hm => ?_⟩,
        fun _ => ⟨.refl _, List.prefix_rfl, List.subset_append_left _ _⟩, rfl, rfl, rfl, rfl, rfl,
        fun _ => ⟨[(.named name, _, _)], rfl, ?_⟩⟩
      · rcases List.mem_append.mp hp with hp | hp
        · exact ok.pending p hp
        · rw [List.mem_singleton.mp hp]
          exact ⟨sig, hs, by simp [builtinWrapper]⟩
      · exact List.Nodup.append ok.wrapped (List.nodup_singleton _) (List.disjoint_singleton.mpr hnew)
      · rcases List.mem_append.mp hm with hm | hm
        · exact ok.wrappers n hm
        · rw [List.mem_singleton.mp hm]
          exact valueBuiltins_named name (by simpa using hvalue)
      · simp [SemaState.due]
  refine ⟨hext, fun f live ok hf hv => ⟨⟨sig, hf.function? ?_, rfl⟩, fun _ _ _ => ⟨name, hf.wrapped ?_, rfl⟩⟩⟩
  · exact (hext.le ok).function? hs
  · split
    · assumption
    · simp

theorem analyzeGlobal_ok {name : Name} (h : analyzeGlobal fuel name expected pos s = .ok (t, s')) :
    Analyzed scope s s' fun G live => ExprOk G live t := by
  simp only [analyzeGlobal, bind_ok, get_ok, Prod.mk.injEq] at h
  obtain ⟨_, _, ⟨rfl, rfl⟩, h⟩ := h
  cases hn : namedVariant s.types name with
  | some info =>
    simp only [hn, bind_ok, require_ok, pure_ok, Prod.mk.injEq, decide_eq_true_eq] at h
    obtain ⟨_, _, ⟨hf, -, rfl⟩, rfl, rfl⟩ := h
    cases name with
    | plain => cases hn
    | path e v => exact (Analyzed.variant? hn).imp fun G live hG => ⟨hG, by rw [hf]; exact .nil, trivial⟩
  | none =>
    cases hv : variantTemplate s name with
    | some p =>
      obtain ⟨ed, vd⟩ := p
      simp only [hn, hv, bind_ok, requireNoted_ok, Prod.mk.injEq] at h
      obtain ⟨_, _, ⟨-, -, rfl⟩, h⟩ := h
      exact (analyzeGenericVariant_ok h).imp fun G live hG => hG trivial
    | none =>
      cases name with
      | path e v => simp [hn, hv] at h
      | plain n =>
        cases hf : s.function? (.named n) with
        | none => simp [hn, hv, hf] at h
        | some sig =>
          simp only [hn, hv, hf] at h
          split at h
          · exact builtinValue_ok hf h
          · rename_i hplain
            simp only [pure_ok, Prod.mk.injEq] at h
            obtain ⟨rfl, rfl⟩ := h
            refine .of_ok fun f live ok hle _ => ⟨⟨sig, hle.function? hf, rfl⟩, fun b hb hn => ?_⟩
            rcases ok.function?_cases hf with hsig | hne
            · exact absurd (getBuiltins_isBuiltin sig hsig) hplain
            · exact absurd hn (hne b hb)

theorem structLitName_ok {written : TypeName} {x : TypeName × SemaState}
    (h : structLitName written expected pos s = .ok x) : x.2 = s := by
  cases written with
  | named n =>
    simp only [structLitName, bind_ok, get_ok, Prod.mk.injEq] at h
    obtain ⟨_, _, ⟨rfl, rfl⟩, h⟩ := h
    cases hg : s.genericStruct? n with
    | none =>
      simp only [hg, pure_ok] at h
      rw [← h]
    | some sd =>
      rcases hm : expected.map Ty.name with _ | _ | _ | ⟨base, args⟩ | _ <;>
        simp only [hg, hm, structLitName.giveUp, rejectNoted_ok] at h
      split at h
      · simp only [pure_ok] at h
        rw [← h]
      · simp at h
  | _ =>
    simp only [structLitName, pure_ok] at h
    rw [← h]

theorem addressOfLocal_ok {name : Name} {targetPos : Pos}
    (h : addressOfLocal scope pos name targetPos s = .ok (t, s')) :
    Analyzed scope s s' fun G live => ExprOk G live t := by
  unfold addressOfLocal at h
  cases hr : resolveName scope name with
  | none => simp [hr] at h
  | some sym =>
    simp only [hr, bind_ok, require_ok, pure_ok, Prod.mk.injEq] at h
    obtain ⟨_, _, ⟨href, -, rfl⟩, _, _, ⟨hfl, -, rfl⟩, rfl, rfl⟩ := h
    exact (Analyzed.resolve hr).imp fun G live hG => ⟨hG, by simpa using href, by simpa using hfl⟩

theorem Name.spell_not_arrayBuiltin {name : Name} (hn : ∀ c ∈ arrayBuiltins, name ≠ .plain c) :
    name.spell ∉ arrayBuiltins := by
  intro hm
  cases name with
  | plain n => exact hn n hm rfl
  | path e v =>
    have hc : ':' ∈ (Name.path e v).spell.toList := by
      simp only [Name.spell, String.toList_append, List.mem_append]
      exact Or.inl (Or.inr (by decide))
    have hall : ∀ c ∈ arrayBuiltins, ':' ∉ c.toList := by decide
    exact hall _ hm hc

/-- A call, given what typing its arguments establishes. -/
theorem analyzeCall_ok {callee : Name} {args : List Expr} {typeArgs : List TypeName}
    (hArg : ∀ i s t s', analyzeArg fuel scope i args s = .ok (t, s') →
      Analyzed scope s s' fun G live => ExprOk G live t)
    (hArgs : ∀ s ts s', analyzeArgs fuel scope args s = .ok (ts, s') →
      (Analyzed scope s s' fun G live => ExprsOk G live ts) ∧ ts.length = args.length)
    (hCheck : ∀ noted params s ts s', checkArgs fuel scope noted pos args params s = .ok (ts, s') →
      (Analyzed scope s s' fun G live => ExprsOk G live ts) ∧ (args.length = params.length → Fit ts params))
    (h : analyzeExpr fuel scope expected (.call pos callee args typeArgs) s = .ok (t, s')) :
    Analyzed scope s s' fun G live => ExprOk G live t := by
  unfold analyzeExpr at h
  by_cases hpush : callee = .plain "array_push"
  · simp only [if_pos hpush, bind_ok, require_ok, frameLength_ok, pure_ok, Prod.mk.injEq,
      decide_eq_true_eq] at h
    obtain ⟨_, _, ⟨-, -, rfl⟩, a, s₁, ha, _, _, ⟨harr, -, rfl⟩, l, s₂, hl, _, _, ⟨hlt, -, rfl⟩, v, s₃, hv, _, _,
      ⟨hvt, -, rfl⟩, _, s₄, hc, rfl, rfl⟩ := h
    obtain rfl : s₄ = s₃ := checkConstLength_ok hc
    exact (((hArg _ _ _ _ ha).and (hArg _ _ _ _ hl)).and (hArg _ _ _ _ hv)).imp
      fun G live h => ⟨.push harr hlt hvt, h.1.1, h.1.2, h.2, trivial⟩
  by_cases hnew : callee = .plain "array_new"
  · simp only [if_neg hpush, if_pos hnew, bind_ok, require_ok, Prod.mk.injEq, decide_eq_true_eq] at h
    obtain ⟨_, _, ⟨-, -, rfl⟩, l, s₁, hl, _, _, ⟨hlt, -, rfl⟩, h⟩ := h
    cases he : expected.bind Ty.element? with
    | none => simp [he] at h
    | some element =>
      simp only [he, pure_ok, Prod.mk.injEq] at h
      obtain ⟨rfl, rfl⟩ := h
      exact (hArg _ _ _ _ hl).imp fun G live hl => ⟨.new hlt, hl, trivial⟩
  by_cases hlen : callee = .plain "array_len"
  · simp only [if_neg hpush, if_neg hnew, if_pos hlen, bind_ok, require_ok, pure_ok, Prod.mk.injEq,
      decide_eq_true_eq] at h
    obtain ⟨_, _, ⟨-, -, rfl⟩, a, s₁, ha, _, _, ⟨hat, -, rfl⟩, rfl, rfl⟩ := h
    obtain ⟨element, hel⟩ := Option.isSome_iff_exists.mp hat
    exact (hArg _ _ _ _ ha).imp fun G live ha => ⟨.len (element?_eq_some hel), ha, trivial⟩
  by_cases hpop : callee = .plain "array_pop"
  · simp only [if_neg hpush, if_neg hnew, if_neg hlen, if_pos hpop, bind_ok, require_ok, frameLength_ok,
      pure_ok, Prod.mk.injEq, decide_eq_true_eq] at h
    obtain ⟨_, _, ⟨-, -, rfl⟩, a, s₁, ha, _, _, ⟨harr, -, rfl⟩, l, s₂, hl, _, _, ⟨hlt, -, rfl⟩, _, s₃, hc, rfl,
      rfl⟩ := h
    obtain rfl : s₃ = s₂ := checkConstLength_ok hc
    exact ((hArg _ _ _ _ ha).and (hArg _ _ _ _ hl)).imp
      fun G live h => ⟨.pop harr hlt, h.1, h.2, trivial⟩
  simp only [if_neg hpush, if_neg hnew, if_neg hlen, if_neg hpop] at h
  cases hr : resolveName scope callee with
  | some sym =>
    simp only [hr, bind_ok, pure_ok, Prod.mk.injEq] at h
    obtain ⟨⟨params, ret⟩, s₁, hct, as, s₂, has, rfl, rfl⟩ := h
    obtain ⟨hty, hpl, hs₁⟩ := calleeType_ok hct
    obtain rfl : s₁ = s := hs₁
    obtain ⟨hes, hfit⟩ := hCheck _ _ _ _ _ has
    exact ((Analyzed.resolve hr).and hes).imp
      fun G live h => ⟨params, hty, h.1, hfit hpl.symm, h.2⟩
  | none =>
    simp only [hr, bind_ok, get_ok, Prod.mk.injEq] at h
    obtain ⟨_, _, ⟨rfl, rfl⟩, h⟩ := h
    cases hg : s.genericFunction? callee.spell with
    | some template =>
      simp only [hg, bind_ok, requireNoted_ok, Prod.mk.injEq, decide_eq_true_eq] at h
      obtain ⟨_, _, ⟨hl, -, rfl⟩, as, s₁, has, h⟩ := h
      obtain ⟨hes, hal⟩ := hArgs _ _ _ has
      have hg₁ : s₁.genericFunction? callee.spell = some template := by
        simpa [SemaState.genericFunction?, hes.1.generic] using hg
      exact (hes.and (analyzeGenericCall_ok hg₁ (hal.trans hl) h)).imp fun G live h => h.2 h.1
    | none =>
      cases hv : variantTemplate s callee with
      | some p =>
        obtain ⟨ed, vd⟩ := p
        simp only [hg, hv, bind_ok] at h
        obtain ⟨as, s₁, has, h⟩ := h
        exact ((hArgs _ _ _ has).1.and (analyzeGenericVariant_ok h)).imp
          fun G live h => h.2 h.1
      | none =>
        simp only [hg, hv, bind_ok, requireNoted_ok, Prod.mk.injEq] at h
        obtain ⟨_, _, ⟨-, -, rfl⟩, h⟩ := h
        cases hn : namedVariant s.types callee with
        | some info =>
          simp only [hn, bind_ok, pure_ok, Prod.mk.injEq] at h
          obtain ⟨_, s₁, harity, as, s₂, has, _, s₃, hpay, rfl, rfl⟩ := h
          obtain ⟨hl, hs₁⟩ := variantArity_ok harity
          obtain rfl : s₁ = s := hs₁
          obtain ⟨hes, hal⟩ := hArgs _ _ _ has
          obtain ⟨hfit, hs₃⟩ := checkPayload_ok (hal.trans hl) hpay
          obtain rfl : s₃ = s₂ := hs₃
          cases callee with
          | plain => cases hn
          | path e v =>
            exact ((Analyzed.variant? hn).and hes).imp fun G live h => ⟨h.1, hfit, h.2⟩
        | none =>
          cases hf : s.function? (.named callee.spell) with
          | none => simp [hn, hf] at h
          | some sig =>
            simp only [hn, hf, bind_ok, require_ok, pure_ok, Prod.mk.injEq, decide_eq_true_eq] at h
            obtain ⟨_, _, ⟨hl, -, rfl⟩, as, s₁, has, rfl, rfl⟩ := h
            obtain ⟨hes, hfit⟩ := hCheck _ _ _ _ _ has
            have hspell : callee.spell ∉ arrayBuiltins :=
              Name.spell_not_arrayBuiltin (by simp [arrayBuiltins, hpush, hnew, hlen, hpop])
            refine ((Analyzed.of_ok (P := fun G _ => CallOk G callee.spell (.named callee.spell) as sig.ret)
              fun f live ok hle _ => ?_).and hes).imp fun G live h => h
            rcases ok.function?_cases hf with hb | hb
            · exact .builtin hspell hb (function?_mem hf).2 (hfit hl)
            · exact .function hspell hb hb (hle.function? hf) (hfit hl)

end Calls

section Expressions

variable {fuel : ℕ} {scope : Scope}

mutual
/-- An expression the analyser accepts is well typed. -/
theorem analyzeExpr_ok : ∀ (e : Expr) {expected : Option Ty} {s s' : SemaState} {t : TExpr},
    analyzeExpr fuel scope expected e s = .ok (t, s') → Analyzed scope s s' fun G live => ExprOk G live t
  | .literal pos value, expected, s, s', t, h => by
    simp only [analyzeExpr, pure_ok, Prod.mk.injEq] at h
    obtain ⟨rfl, rfl⟩ := h
    exact .of_ok fun _ _ _ _ _ => trivial
  | .identifier pos name, expected, s, s', t, h => by
    cases hr : resolveName scope name with
    | none =>
      simp only [analyzeExpr, hr] at h
      exact analyzeGlobal_ok h
    | some sym =>
      simp only [analyzeExpr, hr, pure_ok, Prod.mk.injEq] at h
      obtain ⟨rfl, rfl⟩ := h
      exact .resolve hr
  | .unary pos op right, expected, s, s', t, h => by
    simp only [analyzeExpr, bind_ok, liftType_ok, pure_ok, Prod.mk.injEq] at h
    obtain ⟨r, s₁, hr, ty, _, ⟨_, ht, rfl, rfl⟩, rfl, rfl⟩ := h
    exact (analyzeExpr_ok right hr).imp fun G live hr => ⟨ht, hr⟩
  | .binary pos left op right, expected, s, s', t, h => by
    simp only [analyzeExpr, bind_ok, liftType_ok, pure_ok, Prod.mk.injEq] at h
    obtain ⟨l, s₁, hl, r, s₂, hr, ty, _, ⟨_, ht, rfl, rfl⟩, rfl, rfl⟩ := h
    exact ((analyzeExpr_ok left hl).and (analyzeExpr_ok right hr)).imp fun G live h => ⟨ht, h⟩
  | .index pos array index, expected, s, s', t, h => by
    simp only [analyzeExpr, bind_ok] at h
    obtain ⟨a, s₁, ha, h⟩ := h
    cases he : a.type.element? with
    | some element =>
      simp only [he, bind_ok, require_ok, pure_ok, Prod.mk.injEq, decide_eq_true_eq] at h
      obtain ⟨i, s₂, hi, _, _, ⟨hit, -, rfl⟩, rfl, rfl⟩ := h
      exact ((analyzeExpr_ok array ha).and (analyzeExpr_ok index hi)).imp
        fun G live h => ⟨⟨hit, Or.inl (element?_eq_some he)⟩, h⟩
    | none =>
      simp only [he, bind_ok, pure_ok, Prod.mk.injEq] at h
      obtain ⟨n, s₂, hn, i, s₃, hi, _, s₄, hc, rfl, rfl⟩ := h
      obtain ⟨harr, hs₂⟩ := indexable_ok hn
      obtain rfl : s₂ = s₁ := hs₂
      obtain ⟨hit, hs₄⟩ := checkIndex_ok hc
      obtain rfl : s₄ = s₃ := hs₄
      exact ((analyzeExpr_ok array ha).and (analyzeExpr_ok index hi)).imp
        fun G live h => ⟨⟨hit, Or.inr ⟨harr, rfl⟩⟩, h⟩
  | .addressOf pos (.identifier targetPos name), expected, s, s', t, h => by
    simp only [analyzeExpr] at h
    exact addressOfLocal_ok h
  | .addressOf pos (.index targetPos array index), expected, s, s', t, h => by
    simp only [analyzeExpr, bind_ok, pure_ok, Prod.mk.injEq] at h
    obtain ⟨a, s₁, ha, n, s₂, hn, i, s₃, hi, _, s₄, hc, rfl, rfl⟩ := h
    obtain ⟨harr, hs₂⟩ := indexable_ok hn
    obtain rfl : s₂ = s₁ := hs₂
    obtain ⟨hit, hs₄⟩ := checkIndex_ok hc
    obtain rfl : s₄ = s₃ := hs₄
    exact ((analyzeExpr_ok array ha).and (analyzeExpr_ok index hi)).imp fun G live h => ⟨harr, hit, h⟩
  | .addressOf pos (.literal _ _), expected, s, s', t, h => by simp [analyzeExpr] at h
  | .addressOf pos (.unary _ _ _), expected, s, s', t, h => by simp [analyzeExpr] at h
  | .addressOf pos (.binary _ _ _ _), expected, s, s', t, h => by simp [analyzeExpr] at h
  | .addressOf pos (.call _ _ _ _), expected, s, s', t, h => by simp [analyzeExpr] at h
  | .addressOf pos (.receiverCall _ _ _ _), expected, s, s', t, h => by simp [analyzeExpr] at h
  | .addressOf pos (.addressOf _ _), expected, s, s', t, h => by simp [analyzeExpr] at h
  | .addressOf pos (.fieldAccess _ _ _), expected, s, s', t, h => by simp [analyzeExpr] at h
  | .addressOf pos (.structLit _ _ _), expected, s, s', t, h => by simp [analyzeExpr] at h
  | .fieldAccess pos obj field, expected, s, s', t, h => by
    simp only [analyzeExpr, bind_ok, pure_ok, Prod.mk.injEq] at h
    obtain ⟨o, s₁, ho, ft, s₂, hft, rfl, rfl⟩ := h
    exact ((analyzeExpr_ok obj ho).and (.fieldType hft)).imp fun G live ⟨ho, hf⟩ => ⟨hf, ho⟩
  | .structLit pos written fields, expected, s, s', t, h => by
    simp only [analyzeExpr, bind_ok, get_ok, Prod.mk.injEq] at h
    obtain ⟨name, s₁, hname, _, s₂, hens, _, _, ⟨rfl, rfl⟩, h⟩ := h
    obtain rfl : s₁ = s := structLitName_ok hname
    have hext := (ensureInstantiated_spec _ _ _ _ _ hens).extends
    cases hs : s₂.types.struct? name with
    | none => simp [hs] at h
    | some info =>
      simp only [hs, bind_ok, require_ok, pure_ok, Prod.mk.injEq, decide_eq_true_eq] at h
      obtain ⟨inits, s₃, hi, _, _, ⟨hmiss, -, rfl⟩, rfl, rfl⟩ := h
      refine (((Analyzed.of_extends hext).and (.struct? hs)).and (analyzeInits_ok fields hi)).imp
        fun G live ⟨⟨_, hs⟩, hi⟩ => ⟨info, hs, hi, fun f hf => ?_⟩
      by_contra hn
      exact List.filter_eq_nil_iff.mp hmiss f.name (List.mem_map_of_mem hf) (by simpa using hn)
  | .receiverCall pos callee receiver args, expected, s, s', t, h => by
    simp only [analyzeExpr, bind_ok, pure_ok, Prod.mk.injEq] at h
    obtain ⟨r, s₁, hr, ⟨params, ret⟩, s₂, hct, as, s₃, has, rfl, rfl⟩ := h
    obtain ⟨hty, hpl, hs₂⟩ := calleeType_ok hct
    obtain rfl : s₂ = s₁ := hs₂
    obtain ⟨hes, hfit⟩ := checkArgs_ok args has
    exact ((analyzeExpr_ok receiver hr).and hes).imp
      fun G live ⟨hr, hes⟩ => ⟨params, hty, hfit hpl.symm, hr, hes⟩
  | .call pos callee args typeArgs, expected, s, s', t, h =>
    analyzeCall_ok (fun _ _ _ _ h => analyzeArg_ok args h) (fun _ _ _ h => analyzeArgs_ok args h)
      (fun _ _ _ _ _ h => checkArgs_ok args h) h

theorem analyzeArg_ok : ∀ (es : List Expr) {i : ℕ} {s s' : SemaState} {t : TExpr},
    analyzeArg fuel scope i es s = .ok (t, s') → Analyzed scope s s' fun G live => ExprOk G live t
  | [], i, s, s', t, h => by simp [analyzeArg] at h
  | e :: _, 0, s, s', t, h => analyzeExpr_ok e (by simpa only [analyzeArg] using h)
  | _ :: es, i + 1, s, s', t, h => analyzeArg_ok es (by simpa only [analyzeArg] using h)

theorem analyzeArgs_ok : ∀ (es : List Expr) {s s' : SemaState} {ts : List TExpr},
    analyzeArgs fuel scope es s = .ok (ts, s') →
      (Analyzed scope s s' fun G live => ExprsOk G live ts) ∧ ts.length = es.length
  | [], s, s', ts, h => by
    simp only [analyzeArgs, pure_ok, Prod.mk.injEq] at h
    obtain ⟨rfl, rfl⟩ := h
    exact ⟨.of_ok fun _ _ _ _ _ => trivial, rfl⟩
  | e :: es, s, s', ts, h => by
    simp only [analyzeArgs, bind_ok, pure_ok, Prod.mk.injEq] at h
    obtain ⟨t, s₁, ht, ts', s₂, hts, rfl, rfl⟩ := h
    obtain ⟨hes, hl⟩ := analyzeArgs_ok es hts
    exact ⟨(analyzeExpr_ok e ht).and hes, by simp [hl]⟩

theorem checkArgs_ok : ∀ (es : List Expr) {noted : Bool} {pos : Pos} {params : List Ty} {s s' : SemaState}
    {ts : List TExpr}, checkArgs fuel scope noted pos es params s = .ok (ts, s') →
      (Analyzed scope s s' fun G live => ExprsOk G live ts) ∧ (es.length = params.length → Fit ts params)
  | [], noted, pos, params, s, s', ts, h => by
    simp only [checkArgs, pure_ok, Prod.mk.injEq] at h
    obtain ⟨rfl, rfl⟩ := h
    refine ⟨.of_ok fun _ _ _ _ _ => trivial, fun hl => ?_⟩
    rw [List.length_eq_zero_iff.mp hl.symm]
    exact .nil
  | e :: es, noted, pos, [], s, s', ts, h => by
    simp only [checkArgs, pure_ok, Prod.mk.injEq] at h
    obtain ⟨rfl, rfl⟩ := h
    exact ⟨.of_ok fun _ _ _ _ _ => trivial, by simp⟩
  | e :: es, noted, pos, p :: params, s, s', ts, h => by
    simp only [checkArgs, bind_ok, pure_ok, Prod.mk.injEq] at h
    obtain ⟨t, s₁, ht, _, s₂, hreq, ts', s₃, hts, rfl, rfl⟩ := h
    have hreq' : p.assignable t.type = true ∧ s₁ = s₂ := by
      cases noted <;> simpa using hreq
    obtain ⟨hp, rfl⟩ := hreq'
    obtain ⟨hes, hfit⟩ := checkArgs_ok es hts
    exact ⟨(analyzeExpr_ok e ht).and hes, fun hl => .cons hp (hfit (by simpa using hl))⟩

theorem analyzeInits_ok : ∀ (inits : List FieldInit) {info : StructInfo} {seen : List String}
    {s s' : SemaState} {ts : List TInit}, analyzeInits fuel scope info seen inits s = .ok (ts, s') →
      Analyzed scope s s' fun G live => InitsOk G live info ts
  | [], info, seen, s, s', ts, h => by
    simp only [analyzeInits, pure_ok, Prod.mk.injEq] at h
    obtain ⟨rfl, rfl⟩ := h
    exact .of_ok fun _ _ _ _ _ => trivial
  | .mk pos name value :: rest, info, seen, s, s', ts, h => by
    simp only [analyzeInits, bind_ok, require_ok, Prod.mk.injEq] at h
    obtain ⟨_, _, ⟨-, -, rfl⟩, h⟩ := h
    cases hf : info.fieldNamed name with
    | none => simp [hf] at h
    | some fld =>
      simp only [hf, bind_ok, require_ok, pure_ok, Prod.mk.injEq] at h
      obtain ⟨v, s₁, hv, _, _, ⟨ht, -, rfl⟩, ts', s₂, hts, rfl, rfl⟩ := h
      exact ((analyzeExpr_ok value hv).and (analyzeInits_ok rest hts)).imp
        fun G live h => ⟨⟨fld, hf, ht⟩, h⟩
end

end Expressions

end QuinLang
