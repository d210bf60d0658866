import QuinLang.Compiler.Typing

/-! What the analyser accepts is well typed: statements. -/

namespace QuinLang

open StateExcept

/-- A step of the analysis that may declare variables. -/
structure Advances (s s' : SemaState) : Prop where
  ok : s.Ok → s'.Ok
  le : s.Ok → s.Le s'
  frame : s.frame <+: s'.frame
  emitted : s'.functionsToEmit = s.functionsToEmit
  generic : s'.genericFunctions = s.genericFunctions
  enums : s'.genericEnums = s.genericEnums
  queues : s.Ok → Queues s s'

variable {s s' s'' : SemaState}

theorem Advances.refl (s : SemaState) : Advances s s :=
  ⟨id, fun _ => .refl s, List.prefix_rfl, rfl, rfl, rfl, fun _ => .of_eq rfl rfl rfl⟩

theorem Advances.trans (h : Advances s s') (h' : Advances s' s'') : Advances s s'' :=
  ⟨fun ok => h'.ok (h.ok ok), fun ok => (h.le ok).trans (h'.le (h.ok ok)), h.frame.trans h'.frame,
    h'.emitted.trans h.emitted, h'.generic.trans h.generic, h'.enums.trans h.enums,
    fun ok => (h.queues ok).trans (h'.queues (h.ok ok))⟩

theorem Extends.advances (h : Extends s s') : Advances s s' :=
  ⟨h.ok, h.le, h.frame ▸ List.prefix_rfl, h.emitted, h.generic, h.enums, h.queues⟩

/-- Changing what the tables do not depend on. -/
theorem Advances.of_eq (ht : s'.types = s.types) (hf : s'.functions = s.functions)
    (hg : s'.genericFunctions = s.genericFunctions) (hp : s'.pending = s.pending)
    (hfr : s.frame <+: s'.frame) (he : s'.functionsToEmit = s.functionsToEmit)
    (hen : s'.genericEnums = s.genericEnums) (hw : s'.wrapped = s.wrapped) : Advances s s' :=
  ⟨fun ok => ok.of_eq ht hf hg hp hen hw,
    fun _ => ⟨ht ▸ .refl _, hf ▸ List.prefix_rfl, hw ▸ List.Subset.refl _⟩, hfr, he, hg, hen, fun _ => .of_eq hf hp hw⟩

/-! Variables. -/

/-- Every variable a scope shows is live, and the live ones are in the frame. -/
structure InScope (scope : Scope) (live : List Symbol) (s : SemaState) : Prop where
  visible : Visible scope live
  live : ∀ sym ∈ live, s.frame[sym.index]? = some sym

/-- The innermost scope declares variables from place `n` of the frame on. -/
def FreshFrom (n : ℕ) (scope : Scope) : Prop := ∀ p ∈ scope.headD [], n ≤ p.2.index

theorem getElem?_of_prefix {α : Type} {xs ys : List α} (h : xs <+: ys) {i : ℕ} {x : α} (hx : xs[i]? = some x) :
    ys[i]? = some x := by
  obtain ⟨rest, rfl⟩ := h
  rw [List.getElem?_append_left (List.getElem?_eq_some_iff.mp hx).1, hx]

theorem InScope.of_frame {scope : Scope} {live : List Symbol} (h : InScope scope live s)
    (hf : s.frame <+: s'.frame) : InScope scope live s' :=
  ⟨h.visible, fun sym hm => getElem?_of_prefix hf (h.live sym hm)⟩

theorem InScope.enter {scope : Scope} {live : List Symbol} (h : InScope scope live s) :
    InScope ([] :: scope) live s :=
  ⟨fun name sym hr => h.visible name sym (by simpa [Scope.resolve, List.findSome?_cons] using hr), h.live⟩

/-- A step of the analysis from `scope` to `scope'` that establishes `P` of the final
tables, the frame and the variables live before it; `after` are those live after it. -/
structure Checks (scope scope' : Scope) (s s' : SemaState) (after : List Symbol → List Symbol)
    (P : Globals → List Symbol → List Symbol → Prop) : Prop where
  advances : Advances s s'
  loopDepth : s'.loopDepth = s.loopDepth
  tail : scope'.tail = scope.tail
  fresh : ∀ n ≤ s.frame.length, FreshFrom n scope → FreshFrom n scope'
  inScope : ∀ live, InScope scope live s → InScope scope' (after live) s'
  ok : ∀ (f : SemaState) frame live, s.Ok → s'.Le f → s'.frame <+: frame → InScope scope live s → P f.globals frame live

namespace Checks

variable {scope scope₁ scope₂ : Scope} {a a₁ a₂ : List Symbol → List Symbol}
  {P Q : Globals → List Symbol → List Symbol → Prop}

theorem imp (h : Checks scope scope₁ s s' a P) (hpq : ∀ G frame live, P G frame live → Q G frame live) :
    Checks scope scope₁ s s' a Q :=
  { h with ok := fun f frame live ok hf hfr hv => hpq _ _ _ (h.ok f frame live ok hf hfr hv) }

theorem seq (h : Checks scope scope₁ s s' a₁ P) (h' : Checks scope₁ scope₂ s' s'' a₂ Q) :
    Checks scope scope₂ s s'' (fun live => a₂ (a₁ live)) fun G frame live => P G frame live ∧ Q G frame (a₁ live) where
  advances := h.advances.trans h'.advances
  loopDepth := h'.loopDepth.trans h.loopDepth
  tail := h'.tail.trans h.tail
  fresh n hn hs := h'.fresh n (hn.trans h.advances.frame.length_le) (h.fresh n hn hs)
  inScope live hv := h'.inScope _ (h.inScope live hv)
  ok f frame live ok hf hfr hv :=
    ⟨h.ok f frame live ok ((h'.advances.le (h.advances.ok ok)).trans hf) (h'.advances.frame.trans hfr) hv,
      h'.ok f frame _ (h.advances.ok ok) hf hfr (h.inScope live hv)⟩

theorem of_analyzed {P : Globals → List Symbol → Prop} (h : Analyzed scope s s' P) :
    Checks scope scope s s' id fun G _ live => P G live where
  advances := h.1.advances
  loopDepth := h.1.loopDepth
  tail := rfl
  fresh _ _ hs := hs
  inScope _ hv := hv.of_frame (h.1.frame ▸ List.prefix_rfl)
  ok f _ live ok hf _ hv := h.2 f live ok hf hv.visible

theorem of_extends (h : Extends s s') : Checks scope scope s s' id fun _ _ _ => True :=
  of_analyzed (.of_extends h)

theorem nothing (hP : ∀ G frame live, P G frame live) : Checks scope scope s s id P :=
  (of_extends (.refl s)).imp fun G frame live _ => hP G frame live

/-- What is declared in a scope of its own. -/
theorem block (h : Checks ([] :: scope) scope₁ s s' a P) :
    Checks scope scope s s' id fun G frame live => P G frame live ∧ RefsOk live (scopeRefs scope₁) where
  advances := h.advances
  loopDepth := h.loopDepth
  tail := rfl
  fresh _ _ hs := hs
  inScope _ hv := hv.of_frame h.advances.frame
  ok f frame live ok hf hfr hv := by
    refine ⟨h.ok f frame live ok hf hfr hv.enter, fun r hr => ?_⟩
    obtain ⟨hr, href⟩ := List.mem_filter.mp hr
    obtain ⟨p, hp, rfl⟩ := List.mem_map.mp hr
    have hfresh := h.fresh s.frame.length le_rfl (fun p hp => absurd hp List.not_mem_nil) p hp
    refine ⟨fun hl => ?_, href⟩
    have := (List.getElem?_eq_some_iff.mp (hv.live _ hl)).1
    omega

/-- Counting a loop while its body is checked. -/
theorem inLoop {t t' : SemaState} (hs : t = { s with loopDepth := s.loopDepth + 1 })
    (hs' : s' = { t' with loopDepth := t'.loopDepth - 1 }) (h : Checks scope scope₁ t t' a P) :
    Checks scope scope₁ s s' a P := by
  subst hs hs'
  have hin : Advances s { s with loopDepth := s.loopDepth + 1 } := .of_eq rfl rfl rfl rfl List.prefix_rfl rfl rfl rfl
  have hout : Advances t' { t' with loopDepth := t'.loopDepth - 1 } := .of_eq rfl rfl rfl rfl List.prefix_rfl rfl rfl rfl
  refine ⟨(hin.trans h.advances).trans hout, ?_, h.tail, h.fresh, fun live hv => ?_,
    fun f frame live ok hf hfr hv => ?_⟩
  · have := h.loopDepth
    simp only at this ⊢
    omega
  · obtain ⟨hvis, hlive⟩ := h.inScope live ⟨hv.visible, hv.live⟩
    exact ⟨hvis, hlive⟩
  · exact h.ok f frame live (hin.ok ok) ⟨hf.types, hf.functions, hf.wrapped⟩ hfr ⟨hv.visible, hv.live⟩

end Checks

theorem declare_checks {scope scope' : Scope} {name : String} {t : Ty} {pos : Pos} {sym : Symbol}
    (h : declare scope name t pos s = .ok ((sym, scope'), s')) :
    sym.type = t ∧ s'.frame = s.frame ++ [sym] ∧
      Checks scope scope' s s' (sym :: ·) fun _ frame _ => frame[sym.index]? = some sym := by
  simp only [declare, bind_ok, require_ok, get_ok, set_ok, pure_ok, Prod.mk.injEq] at h
  obtain ⟨_, _, ⟨hnew, -, rfl⟩, _, _, ⟨rfl, rfl⟩, _, _, ⟨-, rfl⟩, ⟨rfl, rfl⟩, rfl⟩ := h
  have hget : ∀ (frame : List Symbol), (frame ++ [(⟨name, t, frame.length⟩ : Symbol)])[frame.length]? =
      some ⟨name, t, frame.length⟩ := fun frame => by simp
  refine ⟨rfl, rfl, .of_eq rfl rfl rfl rfl (List.prefix_append _ _) rfl rfl rfl, rfl, rfl, fun n hn hs p hp => ?_,
    fun live hv => ⟨fun n sym hr => ?_, fun sym hm => ?_⟩, fun f frame live ok hf hfr hv => ?_⟩
  · rcases List.mem_append.mp hp with hp | hp
    · exact hs p hp
    · rw [List.mem_singleton.mp hp]
      exact hn
  · simp only [Scope.resolve, List.findSome?_cons, List.lookup_append] at hr
    cases hl : (scope.headD []).lookup n with
    | some sym' =>
      rw [hl] at hr
      refine List.mem_cons_of_mem _ (hv.visible n sym ?_)
      cases scope with
      | nil => simp at hl
      | cons vars outer =>
        simp only [List.headD_cons] at hl
        simpa [Scope.resolve, hl] using hr
    | none =>
      rw [hl, Option.none_or] at hr
      by_cases hn : n = name
      · subst hn
        simp only [List.lookup_cons_self, Option.some.injEq] at hr
        exact List.mem_cons.mpr (Or.inl hr.symm)
      · have hb : (n == name) = false := by simpa using hn
        simp only [List.lookup_cons, hb, List.lookup_nil] at hr
        refine List.mem_cons_of_mem _ (hv.visible n sym ?_)
        cases scope with
        | nil => simp at hr
        | cons vars outer =>
          simp only [List.headD_cons] at hl
          simpa [Scope.resolve, hl] using hr
  · rcases List.mem_cons.mp hm with rfl | hm
    · exact hget s.frame
    · exact getElem?_of_prefix (List.prefix_append _ _) (hv.live sym hm)
  · exact getElem?_of_prefix hfr (hget s.frame)

/-! The parts of a statement's check that are not statements. -/

section Parts

variable {fuel : ℕ} {scope : Scope}

theorem assignable_refl (t : Ty) : t.assignable t = true := by simp [Ty.assignable]

theorem resolveOptional_ok {name : Option TypeName} {pos : Pos} {x : Option Ty × SemaState}
    (h : resolveOptional fuel name pos s = .ok x) : Extends s x.2 := by
  cases name with
  | none =>
    simp only [resolveOptional, pure_ok] at h
    subst h
    exact .refl s
  | some n =>
    simp only [resolveOptional, bind_ok, pure_ok] at h
    obtain ⟨t, s₁, ht, rfl⟩ := h
    exact (resolveType_spec ht).1.extends

theorem analyzeOptional_ok {expected : Option Ty} {e : Option Expr} {v : Option TExpr}
    (h : analyzeOptional fuel scope expected e s = .ok (v, s')) :
    Analyzed scope s s' fun G live => ∀ t, v = some t → ExprOk G live t := by
  cases e with
  | none =>
    simp only [analyzeOptional, pure_ok, Prod.mk.injEq] at h
    obtain ⟨rfl, rfl⟩ := h
    exact .of_ok fun _ _ _ _ _ => (by simp)
  | some e =>
    simp only [analyzeOptional, bind_ok, pure_ok, Prod.mk.injEq] at h
    obtain ⟨t, s₁, ht, rfl, rfl⟩ := h
    refine (analyzeExpr_ok e ht).imp fun G live ht t' he => ?_
    cases he
    exact ht

theorem analyzeCondition_ok {cond : Expr} {what : String} {pos : Pos} {c : TExpr}
    (h : analyzeCondition fuel scope cond what pos s = .ok (c, s')) :
    Analyzed scope s s' fun G live => ConditionOk G live c := by
  simp only [analyzeCondition, bind_ok, require_ok, pure_ok, Prod.mk.injEq, decide_eq_true_eq] at h
  obtain ⟨c, s₁, hc, _, _, ⟨ht, -, rfl⟩, rfl, rfl⟩ := h
  exact (analyzeExpr_ok cond hc).imp fun G live hc => ⟨ht, hc⟩

theorem noArrayInit_ok {name : String} {pos : Pos} {t : Ty} {x : Ty × SemaState}
    (h : declaredType.noArrayInit name pos t s = .ok x) : t.isFrameArray = false ∧ (t, s) = x := by
  simp only [declaredType.noArrayInit, bind_ok, require_ok, pure_ok, Prod.mk.injEq, Bool.not_eq_true'] at h
  obtain ⟨_, _, ⟨ht, -, rfl⟩, hx⟩ := h
  exact ⟨ht, hx⟩

theorem declaredType_ok {name : String} {annotated : Option Ty} {init : Option TExpr} {pos : Pos}
    {x : Ty × SemaState} (h : declaredType name annotated init pos s = .ok x) :
    x.2 = s ∧ ∀ v, init = some v → x.1.assignable v.type = true ∧ x.1.isFrameArray = false := by
  cases init with
  | none =>
    cases annotated with
    | none => simp [declaredType] at h
    | some t =>
      simp only [declaredType, pure_ok] at h
      subst h
      exact ⟨rfl, by simp⟩
  | some v =>
    cases annotated with
    | none =>
      simp only [declaredType, bind_ok, require_ok, Prod.mk.injEq] at h
      obtain ⟨_, _, ⟨-, -, rfl⟩, h⟩ := h
      obtain ⟨harr, rfl⟩ := noArrayInit_ok h
      refine ⟨rfl, fun v' he => ?_⟩
      cases he
      exact ⟨assignable_refl _, harr⟩
    | some t =>
      simp only [declaredType, bind_ok, require_ok, Prod.mk.injEq] at h
      obtain ⟨_, _, ⟨hassign, -, rfl⟩, h⟩ := h
      obtain ⟨harr, rfl⟩ := noArrayInit_ok h
      refine ⟨rfl, fun v' he => ?_⟩
      cases he
      exact ⟨hassign, harr⟩

theorem analyzeAssign_ok {pos : Pos} {value target : Expr} {t : TSimple}
    (h : analyzeAssign fuel scope pos value target s = .ok (t, s')) :
    Analyzed scope s s' fun G live => SimpleOk G live t := by
  cases target with
  | identifier targetPos name =>
    simp only [analyzeAssign] at h
    cases hr : resolveName scope name with
    | none => simp [hr] at h
    | some sym =>
      simp only [hr, bind_ok, require_ok, pure_ok, Prod.mk.injEq] at h
      obtain ⟨_, _, ⟨hnarr, -, rfl⟩, v, s₁, hv, _, _, ⟨hassign, -, rfl⟩, rfl, rfl⟩ := h
      exact ((Analyzed.resolve hr).and (analyzeExpr_ok value hv)).imp
        fun G live h => ⟨h.1, by simpa using hnarr, hassign, h.2⟩
  | index targetPos array index =>
    simp only [analyzeAssign, bind_ok] at h
    obtain ⟨a, s₁, ha, h⟩ := h
    cases he : a.type.element? with
    | some element =>
      simp only [he, bind_ok, require_ok, pure_ok, Prod.mk.injEq, decide_eq_true_eq] at h
      obtain ⟨i, s₂, hi, _, _, ⟨hit, -, rfl⟩, v, s₃, hv, _, _, ⟨hassign, -, rfl⟩, rfl, rfl⟩ := h
      exact (((analyzeExpr_ok array ha).and (analyzeExpr_ok index hi)).and (analyzeExpr_ok value hv)).imp
        fun G live h => ⟨⟨element, ⟨hit, Or.inl (element?_eq_some he)⟩, hassign⟩, h.1.1, h.1.2, h.2⟩
    | none =>
      simp only [he, bind_ok, require_ok, pure_ok, Prod.mk.injEq, decide_eq_true_eq] at h
      obtain ⟨n, s₂, hn, i, s₃, hi, _, s₄, hc, v, s₅, hv, _, _, ⟨hint, -, rfl⟩, rfl, rfl⟩ := h
      obtain ⟨harr, hs₂⟩ := indexable_ok hn
      obtain rfl : s₂ = s₁ := hs₂
      obtain ⟨hit, hs₄⟩ := checkIndex_ok hc
      obtain rfl : s₄ = s₃ := hs₄
      exact (((analyzeExpr_ok array ha).and (analyzeExpr_ok index hi)).and (analyzeExpr_ok value hv)).imp
        fun G live h => ⟨⟨.int, ⟨hit, Or.inr ⟨harr, rfl⟩⟩, by rw [hint]; exact assignable_refl _⟩, h.1.1, h.1.2, h.2⟩
  | fieldAccess targetPos obj field =>
    simp only [analyzeAssign, bind_ok, require_ok, pure_ok, Prod.mk.injEq] at h
    obtain ⟨o, s₁, ho, ft, s₂, hft, v, s₃, hv, _, _, ⟨hassign, -, rfl⟩, rfl, rfl⟩ := h
    exact (((analyzeExpr_ok obj ho).and (.fieldType hft)).and (analyzeExpr_ok value hv)).imp
      fun G live h => ⟨⟨ft, h.1.2, hassign⟩, h.1.1, h.2⟩
  | _ => simp [analyzeAssign] at h

theorem analyzeSimple_ok {st : Simple} {t : TSimple} (h : analyzeSimple fuel scope st s = .ok (t, s')) :
    Analyzed scope s s' fun G live => SimpleOk G live t := by
  cases st with
  | assign pos target value => exact analyzeAssign_ok h
  | expr pos e =>
    simp only [analyzeSimple, bind_ok, pure_ok, Prod.mk.injEq] at h
    obtain ⟨e', s₁, he, rfl, rfl⟩ := h
    exact analyzeExpr_ok e he

theorem analyzeForCondition_ok {cond : Option Expr} {pos : Pos} {c : Option TExpr}
    (h : analyzeForCondition fuel scope cond pos s = .ok (c, s')) :
    Analyzed scope s s' fun G live => ∀ t ∈ c, ConditionOk G live t := by
  cases cond with
  | none =>
    simp only [analyzeForCondition, pure_ok, Prod.mk.injEq] at h
    obtain ⟨rfl, rfl⟩ := h
    exact .of_ok fun _ _ _ _ _ => (by simp)
  | some cond =>
    simp only [analyzeForCondition, bind_ok, pure_ok, Prod.mk.injEq] at h
    obtain ⟨t, s₁, ht, rfl, rfl⟩ := h
    refine (analyzeCondition_ok ht).imp fun G live ht t' he => ?_
    cases he
    exact ht

theorem analyzeStep_ok {step : Option Simple} {t : Option TSimple}
    (h : analyzeStep fuel scope step s = .ok (t, s')) :
    Analyzed scope s s' fun G live => ∀ st ∈ t, SimpleOk G live st := by
  cases step with
  | none =>
    simp only [analyzeStep, pure_ok, Prod.mk.injEq] at h
    obtain ⟨rfl, rfl⟩ := h
    exact .of_ok fun _ _ _ _ _ => (by simp)
  | some st =>
    simp only [analyzeStep, bind_ok, pure_ok, Prod.mk.injEq] at h
    obtain ⟨t, s₁, ht, rfl, rfl⟩ := h
    refine (analyzeSimple_ok ht).imp fun G live ht t' he => ?_
    cases he
    exact ht

theorem analyzePrinted_ok {value : Expr} {pos : Pos} {v : TExpr}
    (h : analyzePrinted fuel scope value pos s = .ok (v, s')) :
    Analyzed scope s s' fun G live =>
      (v.type = .int ∨ v.type = .str ∨ v.type = .bool ∨ v.type = .float) ∧ ExprOk G live v := by
  simp only [analyzePrinted, bind_ok, require_ok, pure_ok, Prod.mk.injEq, decide_eq_true_eq] at h
  obtain ⟨v, s₁, hv, _, _, ⟨ht, -, rfl⟩, rfl, rfl⟩ := h
  exact (analyzeExpr_ok value hv).imp fun G live hv => ⟨ht, hv⟩

/-- A warning changes nothing. -/
theorem extends_warn (s : SemaState) (warnings : List Diagnostic) : Extends s { s with warnings := warnings } :=
  ⟨fun ok => ok.of_eq rfl rfl rfl rfl rfl rfl, fun _ => ⟨.refl _, List.prefix_rfl, List.Subset.refl _⟩, rfl, rfl, rfl,
    rfl, rfl, fun _ => .of_eq rfl rfl rfl⟩

theorem checkExitCode_ok {value : Expr} {x : Unit × SemaState} (h : checkExitCode value s = .ok x) :
    Extends s x.2 := by
  unfold checkExitCode at h
  cases hc : constInt value with
  | none =>
    simp only [hc, pure_ok] at h
    subst h
    exact .refl s
  | some n =>
    simp only [hc] at h
    split at h
    · simp only [pure_ok] at h
      subst h
      exact .refl s
    · simp only [modify_ok] at h
      subst h
      exact extends_warn s _

theorem analyzeReturn_ok {ret : Ty} {pos : Pos} {value : Option Expr} {t : TStmt}
    (h : analyzeReturn fuel ret scope pos value s = .ok (t, s')) :
    ∃ v, t = .return_ pos v ∧ Analyzed scope s s' fun G live => StmtOk G ret live (.return_ pos v) := by
  cases value with
  | none =>
    simp only [analyzeReturn, bind_ok, require_ok, pure_ok, Prod.mk.injEq, decide_eq_true_eq] at h
    obtain ⟨_, _, ⟨hret, -, rfl⟩, rfl, rfl⟩ := h
    exact ⟨none, rfl, .of_ok fun _ _ _ _ _ => by rw [StmtOk]; exact hret⟩
  | some e =>
    simp only [analyzeReturn, bind_ok, require_ok, get_ok, pure_ok, Prod.mk.injEq] at h
    obtain ⟨_, _, ⟨-, -, rfl⟩, v, s₁, hv, _, _, ⟨hassign, -, rfl⟩, _, _, ⟨rfl, rfl⟩, _, s₂, hcode, rfl, rfl⟩ := h
    have hext : Extends s₁ s₂ := by
      split at hcode
      · exact checkExitCode_ok hcode
      · simp only [pure_ok, Prod.mk.injEq] at hcode
        rw [← hcode.2]
        exact .refl s₁
    refine ⟨some v, rfl, ((analyzeExpr_ok e hv).and (.of_extends hext)).imp fun G live hboth => ?_⟩
    rw [StmtOk]
    exact ⟨hassign, hboth.1⟩

theorem armVariant_mem {info : EnumInfo} {name : Name} {v : VariantInfo} (h : armVariant info name = some v) :
    v ∈ info.variants := by
  cases name with
  | plain n => cases h
  | path enumName short =>
    unfold armVariant at h
    cases hf : info.variants.find? fun v => v.enumName = .named enumName ∧ v.shortName = short with
    | some w =>
      simp only [hf, Option.some.injEq] at h
      subst h
      exact List.mem_of_find?_eq_some hf
    | none =>
      simp only [hf] at h
      cases hn : info.name with
      | app base args =>
        simp only [hn] at h
        split at h
        · exact List.mem_of_find?_eq_some h
        · cases h
      | _ => simp [hn] at h

theorem checkArm_ok {info : EnumInfo} {covered : List String} {variant : Option Name} {bindings : List String}
    {pos : Pos} {x : Option VariantInfo × SemaState} (h : checkArm info covered variant bindings pos s = .ok x) :
    x.2 = s ∧ ∀ v, x.1 = some v → v ∈ info.variants ∧ bindings.length = v.fields.length := by
  cases variant with
  | none =>
    simp only [checkArm, pure_ok] at h
    subst h
    exact ⟨rfl, by simp⟩
  | some name =>
    simp only [checkArm] at h
    cases hv : armVariant info name with
    | none => simp [hv] at h
    | some v =>
      simp only [hv, bind_ok, require_ok, pure_ok, Prod.mk.injEq, decide_eq_true_eq] at h
      obtain ⟨_, _, ⟨-, -, rfl⟩, _, _, ⟨hl, -, rfl⟩, rfl⟩ := h
      refine ⟨rfl, fun w hw => ?_⟩
      cases hw
      exact ⟨armVariant_mem hv, hl⟩

theorem declareBindings_checks {pos : Pos} {names : List String} {flds : List StructField} {syms : List Symbol}
    {scope' : Scope} (hl : names.length = flds.length)
    (h : declareBindings pos scope names flds s = .ok ((syms, scope'), s')) :
    syms.map Symbol.type = flds.map StructField.type ∧
      Checks scope scope' s s' (syms.reverse ++ ·) fun _ frame _ => ∀ sym ∈ syms, frame[sym.index]? = some sym := by
  induction names generalizing scope flds syms s with
  | nil =>
    obtain rfl : flds = [] := List.length_eq_zero_iff.mp hl.symm
    simp only [declareBindings, pure_ok, Prod.mk.injEq] at h
    obtain ⟨⟨rfl, rfl⟩, rfl⟩ := h
    exact ⟨rfl, .nothing (by simp)⟩
  | cons name names ih =>
    cases flds with
    | nil => cases hl
    | cons fld flds =>
      simp only [declareBindings, bind_ok, pure_ok, Prod.mk.injEq] at h
      obtain ⟨⟨sym, scope₁⟩, s₁, hd, ⟨syms', scope₂⟩, s₂, hds, ⟨rfl, rfl⟩, rfl⟩ := h
      obtain ⟨hty, -, hc⟩ := declare_checks hd
      obtain ⟨htys, hcs⟩ := ih (by simpa using hl) hds
      refine ⟨by simp [hty, htys], ?_⟩
      have hseq := (hc.seq hcs).imp (Q := fun _ frame _ => ∀ x ∈ sym :: syms', frame[x.index]? = some x)
        fun _ frame _ h x hx => by
          rcases List.mem_cons.mp hx with rfl | hx
          · exact h.1
          · exact h.2 x hx
      simpa only [List.reverse_cons, List.append_assoc, List.singleton_append] using hseq

theorem checkCoverage_ok {info : EnumInfo} {covered : List String} {catchAll : Option Pos} {pos : Pos}
    {x : Unit × SemaState} (h : checkCoverage info covered catchAll pos s = .ok x) : Extends s x.2 := by
  unfold checkCoverage at h
  cases catchAll with
  | none =>
    simp only [require_ok] at h
    rw [← h.2]
    exact .refl s
  | some p =>
    simp only at h
    split at h
    · simp only [modify_ok] at h
      subst h
      exact extends_warn s _
    · simp only [pure_ok] at h
      subst h
      exact .refl s

end Parts

/-! A frame that holds what a statement declares, and loops around its jumps. -/

mutual
def StmtScoped (frame : List Symbol) (inLoop : Bool) : TStmt → Prop
  | .varDecl _ sym _ => frame[sym.index]? = some sym
  | .break_ _ | .continue_ _ => inLoop = true
  | .if_ _ _ thenBlock elseBlock => BlockScoped frame inLoop thenBlock ∧ BlockScoped frame inLoop elseBlock
  | .while_ _ _ body => BlockScoped frame true body
  | .for_ _ none _ _ body _ => BlockScoped frame true body
  | .for_ _ (some init) _ _ body _ => StmtScoped frame inLoop init ∧ BlockScoped frame true body
  | .match_ _ _ arms => ArmsScoped frame inLoop arms
  | .block _ body => BlockScoped frame inLoop body
  | .simple _ | .print _ _ | .println _ _ | .return_ _ _ | .vmAsm _ _ _ => True

def StmtsScoped (frame : List Symbol) (inLoop : Bool) : List TStmt → Prop
  | [] => True
  | s :: ss => StmtScoped frame inLoop s ∧ StmtsScoped frame inLoop ss

def BlockScoped (frame : List Symbol) (inLoop : Bool) : TBlock → Prop
  | .mk stmts _ => StmtsScoped frame inLoop stmts

def ArmsScoped (frame : List Symbol) (inLoop : Bool) : List TArm → Prop
  | [] => True
  | .mk _ variant bindings body :: arms =>
    (variant = none → arms = []) ∧ (∀ sym ∈ bindings, frame[sym.index]? = some sym) ∧
      BlockScoped frame inLoop body ∧ ArmsScoped frame inLoop arms
end

section Statements

variable {fuel : ℕ} {ret : Ty}

/-- No arm follows the catch-all. -/
theorem analyzeArms_catchAll {scope : Scope} {info : EnumInfo} {seen seen' : ArmsSeen} {arms : List MatchArm}
    {as : List TArm} (hseen : seen.catchAll.isSome = true)
    (h : analyzeArms fuel ret scope info seen arms s = .ok ((as, seen'), s')) : as = [] := by
  cases arms with
  | nil =>
    simp only [analyzeArms, pure_ok, Prod.mk.injEq] at h
    exact h.1.1.symm
  | cons arm arms =>
    obtain ⟨pos, variant, bindings, body⟩ := arm
    simp only [analyzeArms, bind_ok, require_ok] at h
    obtain ⟨_, _, ⟨hnone, -⟩, -⟩ := h
    rw [Option.isNone_iff_eq_none.mp hnone] at hseen
    cases hseen

/-- What the analysis of a statement establishes. -/
def StmtChecks (ret : Ty) (inLoop : Bool) (t : TStmt) (G : Globals) (frame live : List Symbol) : Prop :=
  StmtOk G ret live t ∧ StmtScoped frame inLoop t

theorem of_plain {scope : Scope} {inLoop : Bool} {t : TStmt} (hafter : ∀ live, liveAfter live t = live)
    {P : Globals → List Symbol → List Symbol → Prop} (h : Checks scope scope s s' id P)
    (hP : ∀ G frame live, P G frame live → StmtChecks ret inLoop t G frame live) :
    Checks scope scope s s' (liveAfter · t) (StmtChecks ret inLoop t) := by
  have : (fun live => liveAfter live t) = id := funext hafter
  rw [this]
  exact h.imp hP

mutual
/-- Checking a statement types it, and declares what it declares. -/
theorem analyzeStmt_ok : ∀ (st : Stmt) {inLoop : Bool} {scope scope' : Scope} {s s' : SemaState} {t : TStmt},
    (s.loopDepth ≠ 0 → inLoop = true) → analyzeStmt fuel ret scope st s = .ok ((t, scope'), s') →
      Checks scope scope' s s' (liveAfter · t) (StmtChecks ret inLoop t)
  | .varDecl pos name typeName init, inLoop, scope, scope', s, s', t, hl, h => by
    simp only [analyzeStmt, bind_ok, pure_ok, Prod.mk.injEq] at h
    obtain ⟨annotated, s₁, ha, v, s₂, hv, ty, s₃, hty, ⟨sym, scope₁⟩, s₄, hd, ⟨rfl, rfl⟩, rfl⟩ := h
    obtain ⟨hs₃, hassign⟩ := declaredType_ok hty
    obtain rfl : s₃ = s₂ := hs₃
    obtain ⟨hsym, -, hc⟩ := declare_checks hd
    have hann : Checks scope scope s s₁ id fun _ _ _ => True := .of_extends (resolveOptional_ok ha)
    have hinit := hann.seq (.of_analyzed (analyzeOptional_ok hv))
    refine (hinit.seq hc).imp fun G frame live ⟨⟨_, hv⟩, hfr⟩ => ⟨?_, hfr⟩
    rw [StmtOk]
    rw [hsym]
    exact fun e he => ⟨(hassign e he).1, (hassign e he).2, hv e he⟩
  | .simple st, inLoop, scope, scope', s, s', t, hl, h => by
    simp only [analyzeStmt, bind_ok, pure_ok, Prod.mk.injEq] at h
    obtain ⟨st', s₁, hst, ⟨rfl, rfl⟩, rfl⟩ := h
    exact of_plain (fun _ => rfl) (.of_analyzed (analyzeSimple_ok hst)) fun G frame live h =>
      ⟨by rw [StmtOk]; exact h, trivial⟩
  | .print pos value, inLoop, scope, scope', s, s', t, hl, h => by
    simp only [analyzeStmt, bind_ok, pure_ok, Prod.mk.injEq] at h
    obtain ⟨v, s₁, hv, ⟨rfl, rfl⟩, rfl⟩ := h
    exact of_plain (fun _ => rfl) (.of_analyzed (analyzePrinted_ok hv)) fun G frame live h =>
      ⟨by rw [StmtOk]; exact h, trivial⟩
  | .println pos value, inLoop, scope, scope', s, s', t, hl, h => by
    simp only [analyzeStmt, bind_ok, pure_ok, Prod.mk.injEq] at h
    obtain ⟨v, s₁, hv, ⟨rfl, rfl⟩, rfl⟩ := h
    exact of_plain (fun _ => rfl) (.of_analyzed (analyzePrinted_ok hv)) fun G frame live h =>
      ⟨by rw [StmtOk]; exact h, trivial⟩
  | .return_ pos value, inLoop, scope, scope', s, s', t, hl, h => by
    simp only [analyzeStmt, bind_ok, pure_ok, Prod.mk.injEq] at h
    obtain ⟨t', s₁, ht, ⟨rfl, rfl⟩, rfl⟩ := h
    obtain ⟨v, rfl, hv⟩ := analyzeReturn_ok ht
    exact of_plain (fun _ => rfl) (.of_analyzed hv) fun G frame live h => ⟨h, trivial⟩
  | .if_ pos cond thenBlock elseBlock, inLoop, scope, scope', s, s', t, hl, h => by
    simp only [analyzeStmt, bind_ok, pure_ok, Prod.mk.injEq] at h
    obtain ⟨c, s₁, hc, ⟨ts, inner₁⟩, s₂, ht, ⟨es, inner₂⟩, s₃, he, ⟨rfl, rfl⟩, rfl⟩ := h
    have hcond := Checks.of_analyzed (analyzeCondition_ok hc)
    have hl₁ : s₁.loopDepth ≠ 0 → inLoop = true := hcond.loopDepth ▸ hl
    have hthen := (analyzeStmts_ok thenBlock hl₁ ht).block
    have hl₂ : s₂.loopDepth ≠ 0 → inLoop = true := hthen.loopDepth ▸ hl₁
    have helse := (analyzeStmts_ok elseBlock hl₂ he).block
    refine of_plain (fun _ => rfl) ((hcond.seq hthen).seq helse)
      fun G frame live ⟨⟨hc, ⟨ht, hts⟩, htr⟩, ⟨he, hes⟩, her⟩ => ⟨?_, ?_⟩
    · rw [StmtOk, scopeBlock, scopeBlock, BlockOk, BlockOk]
      exact ⟨hc, ⟨ht, htr⟩, he, her⟩
    · rw [StmtScoped, scopeBlock, scopeBlock, BlockScoped, BlockScoped]
      exact ⟨hts, hes⟩
  | .match_ pos subject arms, inLoop, scope, scope', s, s', t, hl, h => by
    simp only [analyzeStmt, bind_ok] at h
    obtain ⟨subj, s₁, hsubj, h⟩ := h
    have hsubject := Checks.of_analyzed (analyzeExpr_ok subject hsubj)
    cases hn : subj.type.enumName? with
    | none => simp [hn] at h
    | some name =>
      simp only [hn, bind_ok, get_ok, Prod.mk.injEq] at h
      obtain ⟨_, _, ⟨rfl, rfl⟩, h⟩ := h
      cases hi : s₁.types.enum? name with
      | none => simp [hi] at h
      | some info =>
        simp only [hi, bind_ok, pure_ok, Prod.mk.injEq] at h
        obtain ⟨⟨as, seen⟩, s₂, has, _, s₃, hcov, ⟨rfl, rfl⟩, rfl⟩ := h
        have hl₁ : s₁.loopDepth ≠ 0 → inLoop = true := hsubject.loopDepth ▸ hl
        have harms := analyzeArms_ok arms name hl₁ has
        have hinfo : Checks scope scope s₁ s₁ id fun G _ _ => G.types.enum? name = some info :=
          .of_analyzed (.of_ok fun f _ _ hf _ => hf.types.enum name info hi)
        refine of_plain (fun _ => rfl)
          (((hsubject.seq hinfo).seq harms).seq (.of_extends (checkCoverage_ok hcov)))
          fun G frame live ⟨⟨⟨he, hinfo⟩, harms⟩, _⟩ => ⟨?_, ?_⟩
        · rw [StmtOk]
          refine ⟨name, ?_, he, (harms hinfo).1⟩
          cases ht : subj.type <;> simp [ht, Ty.enumName?] at hn
          rw [hn]
        · rw [StmtScoped]
          exact (harms hinfo).2
  | .while_ pos cond body, inLoop, scope, scope', s, s', t, hl, h => by
    simp only [analyzeStmt, enterLoop, leaveLoop, bind_ok, modify_ok, pure_ok, Prod.mk.injEq] at h
    obtain ⟨c, s₁, hc, _, _, ⟨-, rfl⟩, ⟨bs, inner⟩, s₂, hb, _, _, ⟨-, rfl⟩, ⟨rfl, rfl⟩, rfl⟩ := h
    have hbody := Checks.inLoop rfl rfl (analyzeStmts_ok body (fun _ => rfl) hb).block
    refine of_plain (fun _ => rfl) ((Checks.of_analyzed (analyzeCondition_ok hc)).seq hbody)
      fun G frame live ⟨hc, ⟨hb, hbs⟩, hbr⟩ => ⟨?_, ?_⟩
    · rw [StmtOk, scopeBlock, BlockOk]
      exact ⟨hc, hb, hbr⟩
    · rw [StmtScoped, scopeBlock, BlockScoped]
      exact hbs
  | .for_ pos none cond step body, inLoop, scope, scope', s, s', t, hl, h => by
    simp only [analyzeStmt, enterLoop, leaveLoop, bind_ok, modify_ok, pure_ok, Prod.mk.injEq] at h
    obtain ⟨c, s₁, hc, st, s₂, hst, _, _, ⟨-, rfl⟩, ⟨bs, inner⟩, s₃, hb, _, _, ⟨-, rfl⟩, ⟨rfl, rfl⟩, rfl⟩ := h
    have hbody := Checks.inLoop rfl rfl (analyzeStmts_ok body (fun _ => rfl) hb).block
    have hloop := (((Checks.of_analyzed (analyzeForCondition_ok hc)).seq
      (.of_analyzed (analyzeStep_ok hst))).seq hbody).block
    refine of_plain (fun _ => rfl) hloop fun G frame live ⟨⟨⟨hc, hst⟩, ⟨hb, hbs⟩, hbr⟩, _⟩ => ⟨?_, ?_⟩
    · rw [StmtOk, scopeBlock, BlockOk]
      exact ⟨hc, hst, ⟨hb, hbr⟩, rfl⟩
    · rw [StmtScoped, scopeBlock, BlockScoped]
      exact hbs
  | .for_ pos (some init) cond step body, inLoop, scope, scope', s, s', t, hl, h => by
    simp only [analyzeStmt, enterLoop, leaveLoop, bind_ok, modify_ok, pure_ok, Prod.mk.injEq] at h
    obtain ⟨⟨i, loopScope⟩, s₀, hi, c, s₁, hc, st, s₂, hst, _, _, ⟨-, rfl⟩, ⟨bs, inner⟩, s₃, hb, _, _, ⟨-, rfl⟩,
      ⟨rfl, rfl⟩, rfl⟩ := h
    have hbody := Checks.inLoop rfl rfl (analyzeStmts_ok body (fun _ => rfl) hb).block
    have hloop := ((((analyzeStmt_ok init hl hi).seq (Checks.of_analyzed (analyzeForCondition_ok hc))).seq
      (.of_analyzed (analyzeStep_ok hst))).seq hbody).block
    refine of_plain (fun _ => rfl) hloop
      fun G frame live ⟨⟨⟨⟨⟨hi, his⟩, hc⟩, hst⟩, ⟨hb, hbs⟩, hbr⟩, hr⟩ => ⟨?_, ?_⟩
    · rw [StmtOk, scopeBlock, BlockOk]
      exact ⟨hi, hc, hst, ⟨hb, hbr⟩, hr⟩
    · rw [StmtScoped, scopeBlock, BlockScoped]
      exact ⟨his, hbs⟩
  | .block pos stmts, inLoop, scope, scope', s, s', t, hl, h => by
    simp only [analyzeStmt, bind_ok, pure_ok, Prod.mk.injEq] at h
    obtain ⟨⟨bs, inner⟩, s₁, hb, ⟨rfl, rfl⟩, rfl⟩ := h
    refine of_plain (fun _ => rfl) (analyzeStmts_ok stmts hl hb).block fun G frame live ⟨⟨hb, hbs⟩, hbr⟩ => ⟨?_, ?_⟩
    · rw [StmtOk, scopeBlock, BlockOk]
      exact ⟨hb, hbr⟩
    · rw [StmtScoped, scopeBlock, BlockScoped]
      exact hbs
  | .break_ pos, inLoop, scope, scope', s, s', t, hl, h => by
    simp only [analyzeStmt, bind_ok, get_ok, require_ok, pure_ok, Prod.mk.injEq, decide_eq_true_eq] at h
    obtain ⟨_, _, ⟨rfl, rfl⟩, _, _, ⟨hd, -, rfl⟩, ⟨rfl, rfl⟩, rfl⟩ := h
    exact of_plain (fun _ => rfl) (.nothing fun _ _ _ => ⟨by rw [StmtOk]; trivial, hl hd⟩) fun _ _ _ h => h
  | .continue_ pos, inLoop, scope, scope', s, s', t, hl, h => by
    simp only [analyzeStmt, bind_ok, get_ok, require_ok, pure_ok, Prod.mk.injEq, decide_eq_true_eq] at h
    obtain ⟨_, _, ⟨rfl, rfl⟩, _, _, ⟨hd, -, rfl⟩, ⟨rfl, rfl⟩, rfl⟩ := h
    exact of_plain (fun _ => rfl) (.nothing fun _ _ _ => ⟨by rw [StmtOk]; trivial, hl hd⟩) fun _ _ _ h => h
  | .vmAsm pos code, inLoop, scope, scope', s, s', t, hl, h => by
    simp only [analyzeStmt, pure_ok, Prod.mk.injEq] at h
    obtain ⟨⟨rfl, rfl⟩, rfl⟩ := h
    exact of_plain (fun _ => rfl) (.nothing fun _ _ _ => ⟨by rw [StmtOk]; trivial, trivial⟩) fun _ _ _ h => h

theorem analyzeStmts_ok : ∀ (sts : List Stmt) {inLoop : Bool} {scope scope' : Scope} {s s' : SemaState}
    {ts : List TStmt}, (s.loopDepth ≠ 0 → inLoop = true) → analyzeStmts fuel ret scope sts s = .ok ((ts, scope'), s') →
      Checks scope scope' s s' (liveAfterAll · ts) fun G frame live => StmtsOk G ret live ts ∧ StmtsScoped frame inLoop ts
  | [], inLoop, scope, scope', s, s', ts, hl, h => by
    simp only [analyzeStmts, pure_ok, Prod.mk.injEq] at h
    obtain ⟨⟨rfl, rfl⟩, rfl⟩ := h
    exact .nothing fun _ _ _ => ⟨by rw [StmtsOk]; trivial, trivial⟩
  | st :: sts, inLoop, scope, scope', s, s', ts, hl, h => by
    simp only [analyzeStmts, bind_ok, pure_ok, Prod.mk.injEq] at h
    obtain ⟨⟨t, scope₁⟩, s₁, ht, ⟨ts', scope₂⟩, s₂, hts, ⟨rfl, rfl⟩, rfl⟩ := h
    have hfirst := analyzeStmt_ok st hl ht
    have hrest := analyzeStmts_ok sts (hfirst.loopDepth ▸ hl) hts
    refine (hfirst.seq hrest).imp fun G frame live ⟨⟨ht, hts⟩, hr, hrs⟩ => ⟨?_, hts, hrs⟩
    rw [StmtsOk]
    exact ⟨ht, hr⟩

theorem analyzeArms_ok : ∀ (arms : List MatchArm) {inLoop : Bool} {scope : Scope} {info : EnumInfo}
    {seen seen' : ArmsSeen} {s s' : SemaState} {as : List TArm} (name : TypeName),
    (s.loopDepth ≠ 0 → inLoop = true) → analyzeArms fuel ret scope info seen arms s = .ok ((as, seen'), s') →
      Checks scope scope s s' id fun G frame live => G.types.enum? name = some info →
        ArmsOk G ret name live as ∧ ArmsScoped frame inLoop as
  | [], inLoop, scope, info, seen, seen', s, s', as, name, hl, h => by
    simp only [analyzeArms, pure_ok, Prod.mk.injEq] at h
    obtain ⟨⟨rfl, rfl⟩, rfl⟩ := h
    exact .nothing fun _ _ _ _ => ⟨by rw [ArmsOk]; trivial, trivial⟩
  | .mk pos variant bindings body :: arms, inLoop, scope, info, seen, seen', s, s', as, name, hl, h => by
    simp only [analyzeArms, bind_ok, require_ok, pure_ok, Prod.mk.injEq] at h
    obtain ⟨_, _, ⟨-, -, rfl⟩, v, s₁, hv, ⟨syms, armScope⟩, s₂, hd, ⟨ts, inner⟩, s₃, hb, ⟨as', seen₁⟩, s₄, has,
      ⟨rfl, rfl⟩, rfl⟩ := h
    obtain ⟨hs₁, hvm⟩ := checkArm_ok hv
    obtain rfl : s₁ = _ := hs₁
    cases v with
    | none =>
      simp only [declareArm, pure_ok, Prod.mk.injEq] at hd
      obtain ⟨⟨rfl, rfl⟩, rfl⟩ := hd
      have hbody := (analyzeStmts_ok body hl hb).block
      refine (hbody.seq (analyzeArms_ok arms name (hbody.loopDepth ▸ hl) has)).imp
        fun G frame live ⟨⟨⟨hb, hbs⟩, hr⟩, hrest⟩ hinfo => ⟨?_, ?_⟩
      · rw [ArmsOk]
        exact ⟨hb, hr, (hrest hinfo).1⟩
      · rw [ArmsScoped, BlockScoped]
        exact ⟨fun _ => analyzeArms_catchAll rfl has, by simp, hbs, (hrest hinfo).2⟩
    | some v =>
      obtain ⟨hmem, hlen⟩ := hvm v rfl
      simp only [declareArm] at hd
      obtain ⟨htypes, hdecl⟩ := declareBindings_checks hlen hd
      have hbody := (hdecl.seq (analyzeStmts_ok body (hdecl.loopDepth ▸ hl) hb)).block
      refine (hbody.seq (analyzeArms_ok arms name (hbody.loopDepth ▸ hl) has)).imp
        fun G frame live ⟨⟨⟨hsyms, hb, hbs⟩, hr⟩, hrest⟩ hinfo => ⟨?_, ?_⟩
      · rw [ArmsOk]
        exact ⟨⟨⟨info, hinfo, hmem⟩, htypes⟩, hb, hr, (hrest hinfo).1⟩
      · rw [ArmsScoped, BlockScoped]
        exact ⟨by simp, hsyms, hbs, (hrest hinfo).2⟩
end

end Statements

end QuinLang
