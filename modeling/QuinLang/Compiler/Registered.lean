import QuinLang.Compiler.Typing

/-! What registering a program's declarations leaves: every plain type has its id and
its definition, and every template is kept for later. -/

namespace QuinLang

open StateExcept

/-- Templates as registration keeps them: the generic declarations, in order. -/
def EnumDef.isGeneric (ed : EnumDef) : Bool := ed.typeParams ≠ []

/-- A step of registering types. -/
structure Registers (s s' : SemaState) : Prop where
  ok : s.types.Ok → s'.types.Ok
  sourced : s.Sourced → s'.Sourced
  functions : s'.functions = s.functions
  generic : s'.genericFunctions = s.genericFunctions
  pending : s'.pending = s.pending
  emitted : s'.functionsToEmit = s.functionsToEmit
  wrapped : s'.wrapped = s.wrapped

variable {s s' s'' : SemaState}

theorem Registers.refl (s : SemaState) : Registers s s := ⟨id, id, rfl, rfl, rfl, rfl, rfl⟩

theorem Registers.trans (h : Registers s s') (h' : Registers s' s'') : Registers s s'' :=
  ⟨fun ok => h'.ok (h.ok ok), fun hs => h'.sourced (h.sourced hs), h'.functions.trans h.functions,
    h'.generic.trans h.generic, h'.pending.trans h.pending, h'.emitted.trans h.emitted, h'.wrapped.trans h.wrapped⟩

/-- Declaring types and nothing else. -/
theorem Declares.registers {name : Option TypeName} (h : Declares name s s')
    (hsourced : s.Sourced → s'.Sourced) : Registers s s' := by
  refine ⟨h.ok, hsourced, ?_, ?_, ?_, ?_, ?_⟩ <;> rw [h.rest]

theorem Declares.genericEnums {name : Option TypeName} (h : Declares name s s') :
    s'.genericEnums = s.genericEnums := by rw [h.rest]

section Structs

variable {fuel : ℕ} {sd : StructDef} {u : Unit}

/-- A plain struct takes the next id while no enum is registered. -/
theorem registerStruct_ok (h : registerStruct sd s = .ok (u, s')) (hen : s.types.enums = []) :
    Registers s s' ∧ s'.types.enums = [] ∧ s'.genericEnums = s.genericEnums := by
  simp only [registerStruct, bind_ok, get_ok, Prod.mk.injEq] at h
  obtain ⟨_, _, ⟨rfl, rfl⟩, h⟩ := h
  split at h
  · simp only [bind_ok, require_ok, set_ok, Prod.mk.injEq] at h
    obtain ⟨_, _, ⟨-, -, rfl⟩, -, rfl⟩ := h
    exact ⟨⟨id, fun hs => hs.congr rfl fun e he => ⟨e, he, rfl, rfl⟩, rfl, rfl, rfl, rfl, rfl⟩, hen, rfl⟩
  · simp only [bind_ok, require_ok, set_ok, Prod.mk.injEq] at h
    obtain ⟨_, _, ⟨hnew, -, rfl⟩, _, _, ⟨-, -, rfl⟩, _, _, ⟨-, -, rfl⟩, -, rfl⟩ := h
    have hid : s.types.structs.length = s.types.nextTypeId := by
      simp [TypeTable.nextTypeId, TypeTable.variants, hen]
    rw [hid]
    refine ⟨(declares_addStruct (by simpa using hnew)).registers fun hs => ?_, hen, rfl⟩
    exact hs.congr rfl fun e he => ⟨e, he, rfl, rfl⟩

theorem resolveStruct_ok (h : resolveStruct fuel sd s = .ok (u, s')) :
    Registers s s' ∧ s'.genericEnums = s.genericEnums := by
  unfold resolveStruct at h
  split at h
  · simp only [bind_ok, modify_ok, Prod.mk.injEq] at h
    obtain ⟨fields, s₁, hf, -, rfl⟩ := h
    obtain ⟨hi, hl⟩ := structFields_spec (fun _ _ _ _ h => (resolveType_spec h).1) hf
    have hset := declares_setStructFields (s := s₁) (n := .named sd.name) hl
    refine ⟨(hi.registers hi.sourced).trans (hset.registers fun hs => ?_), hset.genericEnums.trans hi.genericEnums⟩
    exact hs.congr rfl fun e he => ⟨e, he, rfl, rfl⟩
  · simp only [pure_ok, Prod.mk.injEq] at h
    obtain ⟨-, rfl⟩ := h
    exact ⟨.refl _, rfl⟩

theorem registerStructs_ok {structs : List StructDef} (h : registerStructs fuel structs s = .ok (u, s'))
    (hen : s.types.enums = []) : Registers s s' ∧ s'.genericEnums = s.genericEnums := by
  simp only [registerStructs, bind_ok] at h
  obtain ⟨_, s₁, h₁, h₂⟩ := h
  have hreg := forM_ok (R := fun s s' => s.types.enums = [] →
      Registers s s' ∧ s'.types.enums = [] ∧ s'.genericEnums = s.genericEnums)
    (fun s he => ⟨.refl s, he, rfl⟩)
    (fun h h' he => by
      obtain ⟨hr, he₁, hg⟩ := h he
      obtain ⟨hr', he₂, hg'⟩ := h' he₁
      exact ⟨hr.trans hr', he₂, hg'.trans hg⟩)
    (fun _ _ _ _ h => registerStruct_ok h) h₁ hen
  have hres := forM_ok (R := fun s s' => Registers s s' ∧ s'.genericEnums = s.genericEnums)
    (fun s => ⟨.refl s, rfl⟩) (fun h h' => ⟨h.1.trans h'.1, h'.2.trans h.2⟩)
    (fun _ _ _ _ h => resolveStruct_ok h) h₂
  exact ⟨hreg.1.trans hres.1, hres.2.trans hreg.2.2⟩

end Structs

section Enums

variable {fuel : ℕ} {ed : EnumDef} {u : Unit}

/-- A variant whose name is not in the flat table is declared nowhere. -/
theorem insertVariant_keeps {table : List VariantInfo} {v w : VariantInfo}
    (h : ∃ x ∈ table, x.sameName w) : ∃ x ∈ TypeTable.insertVariant table v, x.sameName w := by
  obtain ⟨x, hx, hsame⟩ := h
  unfold TypeTable.insertVariant
  split
  · refine ⟨_, List.mem_map_of_mem hx, ?_⟩
    split
    · rename_i hxv
      exact ⟨hsame.1.trans hxv.1, hsame.2.trans hxv.2⟩
    · exact hsame
  · exact ⟨x, List.mem_append_left _ hx, hsame⟩

theorem mem_insertVariant_self (table : List VariantInfo) (v : VariantInfo) :
    v ∈ TypeTable.insertVariant table v := by
  unfold TypeTable.insertVariant
  split
  · rename_i hany
    obtain ⟨w, hw, hp⟩ := List.any_eq_true.mp hany
    exact List.mem_map.mpr ⟨w, hw, if_pos (by simpa using hp)⟩
  · simp

theorem exists_foldl_insertVariant {vs : List VariantInfo} (table : List VariantInfo) {w : VariantInfo}
    (h : w ∈ vs ∨ ∃ x ∈ table, x.sameName w) : ∃ x ∈ vs.foldl TypeTable.insertVariant table, x.sameName w := by
  induction vs generalizing table with
  | nil => exact h.resolve_left List.not_mem_nil
  | cons v vs ih =>
    apply ih
    rcases h with h | h
    · rcases List.mem_cons.mp h with rfl | h
      · exact Or.inr ⟨w, mem_insertVariant_self table w, rfl, rfl⟩
      · exact Or.inl h
    · exact Or.inr (insertVariant_keeps h)

theorem variant?_eq_none {t : TypeTable} {n : TypeName} {short : String} (h : t.variant? n short = none) :
    ∀ v ∈ t.allVariants, v.enumName = n → v.shortName ≠ short := by
  intro v hv hn hshort
  obtain ⟨x, hx, hx₁, hx₂⟩ := exists_foldl_insertVariant [] (Or.inl hv)
  have := List.find?_eq_none.mp h x hx
  simp [hx₁.symm.trans hn, hx₂.symm.trans hshort] at this

theorem registerVariants_ok {index : ℕ} {vds : List VariantDef} {shorts : List String}
    (h : registerVariants ed index vds s = .ok (u, s')) (ok : s.types.Ok)
    (hin : ∃ e ∈ s.types.enums, e.name = .named ed.name) (hb : s.Building (.named ed.name) shorts)
    (hnd : shorts.Nodup) :
    Declares (some (.named ed.name)) s s' ∧ ∃ shorts', s'.Building (.named ed.name) shorts' ∧ shorts'.Nodup := by
  induction vds generalizing index s shorts with
  | nil =>
    simp only [registerVariants, pure_ok, Prod.mk.injEq] at h
    obtain ⟨-, rfl⟩ := h
    exact ⟨.refl _ _, shorts, hb, hnd⟩
  | cons vd vds ih =>
    simp only [registerVariants, bind_ok, get_ok, require_ok, set_ok, Prod.mk.injEq] at h
    obtain ⟨_, _, ⟨rfl, rfl⟩, _, _, ⟨hnew, -, rfl⟩, _, _, ⟨-, rfl⟩, h⟩ := h
    have hd := declares_modifyEnum (s := s) (n := .named ed.name) fun ok => ok.addVariant (.named ed.name) vd.name index
    obtain ⟨e, he, hen⟩ := hin
    have hfresh : vd.name ∉ shorts := by
      rcases hb e he with ⟨-, hvs⟩ | ⟨hne, -⟩
      · rw [← hvs]
        intro hm
        obtain ⟨v, hv, hvn⟩ := List.mem_map.mp hm
        refine variant?_eq_none (by simpa using hnew) v (List.mem_flatMap.mpr ⟨e, he, hv⟩) ?_ hvn
        rw [ok.owner e he v hv, hen]
      · exact absurd hen hne
    obtain ⟨hd', hrest⟩ := ih h (hd.ok ok) ⟨_, List.mem_map_of_mem he, by rw [if_pos hen]; exact hen⟩
      (hb.addVariant vd.name index)
      (List.Nodup.append hnd (List.nodup_singleton _) (List.disjoint_singleton.mpr hfresh))
    exact ⟨hd.trans hd', hrest⟩

/-- Keeping another template changes no instance. -/
theorem SemaState.Sourced.addGenericEnum (h : s.Sourced) :
    SemaState.Sourced { s with genericEnums := s.genericEnums ++ [ed] } := by
  intro e he
  obtain ⟨ht, hp⟩ := h e he
  refine ⟨fun base args hb => ?_, hp⟩
  obtain ⟨ed', hed, hes⟩ := ht base args hb
  exact ⟨ed', by rw [List.find?_append, hed]; rfl, hes⟩

/-- What registering enums does to the templates. -/
structure KeepsTemplates (eds : List EnumDef) (s s' : SemaState) : Prop where
  templates : s'.genericEnums = s.genericEnums ++ eds.filter EnumDef.isGeneric
  names : (s.genericEnums.map EnumDef.name).Nodup → (s'.genericEnums.map EnumDef.name).Nodup

theorem registerEnum_ok (h : registerEnum ed s = .ok (u, s')) (ok : s.types.Ok) (hs : s.Sourced) :
    (Registers s s' ∧ s'.Sourced ∧ s'.types.Ok) ∧ KeepsTemplates [ed] s s' := by
  simp only [registerEnum, bind_ok, get_ok, Prod.mk.injEq] at h
  obtain ⟨_, _, ⟨rfl, rfl⟩, h⟩ := h
  split at h
  · rename_i hgen
    simp only [bind_ok, require_ok, set_ok, Prod.mk.injEq] at h
    obtain ⟨_, _, ⟨hnew, -, rfl⟩, -, rfl⟩ := h
    refine ⟨⟨⟨id, fun hs => hs.addGenericEnum, rfl, rfl, rfl, rfl, rfl⟩, hs.addGenericEnum, ok⟩, ?_, fun hnd => ?_⟩
    · simp [EnumDef.isGeneric, hgen]
    · simp only [List.map_append, List.map_cons, List.map_nil]
      refine List.Nodup.append hnd (List.nodup_singleton _) (List.disjoint_singleton.mpr fun hm => ?_)
      obtain ⟨d, hd, hdn⟩ := List.mem_map.mp hm
      have hnone : s.genericEnum? ed.name = none := by simpa using hnew
      exact List.find?_eq_none.mp hnone d hd (by simpa using hdn)
  · rename_i hgen
    simp only [bind_ok, require_ok, set_ok, Prod.mk.injEq] at h
    obtain ⟨_, _, ⟨hnew, -, rfl⟩, _, _, ⟨-, -, rfl⟩, _, _, ⟨-, -, rfl⟩, _, _, ⟨-, -, rfl⟩, _, _, ⟨-, rfl⟩, h⟩ := h
    have hnone : s.types.enum? (.named ed.name) = none := by simpa using hnew
    have hadd := declares_addEnum hnone
    obtain ⟨hd, shorts, hb, hnd⟩ := registerVariants_ok h (hadd.ok ok)
      ⟨_, List.mem_append_right _ List.mem_cons_self, rfl⟩ (hs.addEnum hnone) List.nodup_nil
    have hall := hadd.trans hd
    have hs' : s'.Sourced := hb.sourced (by simp) fun _ => hnd
    refine ⟨⟨hall.registers fun _ => hs', hs', hall.ok ok⟩, ?_, fun hnd => ?_⟩
    · simp only [not_not] at hgen
      simp [hall.genericEnums, EnumDef.isGeneric, hgen]
    · rw [hall.genericEnums]
      exact hnd

theorem forM_registerEnum_ok {eds : List EnumDef} (h : eds.forM registerEnum s = .ok (u, s')) (ok : s.types.Ok)
    (hs : s.Sourced) : Registers s s' ∧ KeepsTemplates eds s s' := by
  induction eds generalizing s with
  | nil =>
    simp only [List.forM_eq_forM, List.forM_nil, pure_ok, Prod.mk.injEq] at h
    obtain ⟨-, rfl⟩ := h
    exact ⟨.refl _, by simp, id⟩
  | cons ed eds ih =>
    simp only [List.forM_eq_forM, List.forM_cons, bind_ok] at h
    obtain ⟨_, s₁, h₁, h₂⟩ := h
    obtain ⟨⟨hr, hs₁, ok₁⟩, hk⟩ := registerEnum_ok h₁ ok hs
    obtain ⟨hr', hk'⟩ := ih h₂ ok₁ hs₁
    refine ⟨hr.trans hr', ?_, fun hnd => hk'.names (hk.names hnd)⟩
    rw [hk'.templates, hk.templates, List.append_assoc, ← List.filter_append, List.singleton_append]

theorem resolveEnum_ok (h : resolveEnum fuel ed s = .ok (u, s')) :
    Registers s s' ∧ s'.genericEnums = s.genericEnums := by
  unfold resolveEnum at h
  split at h
  · obtain ⟨hd, hs⟩ := resolvePayloads_spec (fun _ _ _ _ h => (resolveType_spec h).1) h
    exact ⟨hd.registers hs, hd.genericEnums⟩
  · simp only [pure_ok, Prod.mk.injEq] at h
    obtain ⟨-, rfl⟩ := h
    exact ⟨.refl _, rfl⟩

theorem registerEnums_ok {eds : List EnumDef} (h : registerEnums fuel eds s = .ok (u, s')) (ok : s.types.Ok)
    (hs : s.Sourced) : Registers s s' ∧ KeepsTemplates eds s s' := by
  simp only [registerEnums, bind_ok] at h
  obtain ⟨_, s₁, h₁, h₂⟩ := h
  obtain ⟨hr, hk⟩ := forM_registerEnum_ok h₁ ok hs
  have hres := forM_ok (R := fun s s' => Registers s s' ∧ s'.genericEnums = s.genericEnums)
    (fun s => ⟨.refl s, rfl⟩) (fun h h' => ⟨h.1.trans h'.1, h'.2.trans h.2⟩)
    (fun _ _ _ _ h => resolveEnum_ok h) h₂
  refine ⟨hr.trans hres.1, hres.2.trans hk.templates, fun hnd => ?_⟩
  rw [hres.2]
  exact hk.names hnd

end Enums

section Functions

variable {fuel : ℕ} {fn : Function} {u : Unit}

/-- The state while functions are registered: nothing is analysed or instantiated yet. -/
structure SemaState.Declaring (s : SemaState) : Prop where
  ok : s.Ok
  plain : ∀ sig ∈ s.functions, ∃ n, sig.name = .named n
  pending : s.pending = []
  emitted : s.functionsToEmit = []
  wrapped : s.wrapped = []

theorem declaredParams_ok {ps : List Param} {ts : List Ty} (h : declaredParams fuel fn ps s = .ok (ts, s')) :
    Instantiates s s' ∧ ts.length = ps.length := by
  induction ps generalizing s ts with
  | nil =>
    simp only [declaredParams, pure_ok, Prod.mk.injEq] at h
    obtain ⟨rfl, rfl⟩ := h
    exact ⟨.refl _, rfl⟩
  | cons p ps ih =>
    simp only [declaredParams, bind_ok, require_ok, pure_ok, Prod.mk.injEq] at h
    obtain ⟨t, s₁, ht, _, _, ⟨-, -, rfl⟩, _, _, ⟨-, -, rfl⟩, rest, s₂, hrest, rfl, rfl⟩ := h
    obtain ⟨hi, hl⟩ := ih hrest
    exact ⟨(resolveType_spec ht).1.trans hi, by simp [hl]⟩

theorem Instantiates.declaring (h : Instantiates s s') (hs : s.Declaring) : s'.Declaring := by
  have hrest := h.rest
  refine ⟨h.extends.ok hs.ok, ?_, ?_, ?_, ?_⟩
  · rw [hrest]
    exact hs.plain
  · rw [hrest]
    exact hs.pending
  · rw [hrest]
    exact hs.emitted
  · rw [hrest]
    exact hs.wrapped

/-- A plain function has a signature of its arity. -/
def SemaState.HasSignature (s : SemaState) (fn : Function) : Prop :=
  ∃ sig, s.function? (.named fn.name) = some sig ∧ sig.params.length = fn.params.length

theorem SemaState.Le.hasSignature {f : SemaState} (h : s.Le f) (hs : s.HasSignature fn) : f.HasSignature fn := by
  obtain ⟨sig, hsig, hl⟩ := hs
  exact ⟨sig, h.function? hsig, hl⟩

theorem SemaState.Declaring.addGeneric (h : s.Declaring) (hnew : s.function? (.named fn.name) = none) :
    SemaState.Declaring { s with genericFunctions := s.genericFunctions ++ [fn] } := by
  obtain ⟨ok, hp, hpend, hem, hw⟩ := h
  refine ⟨⟨ok.types, ok.sourced, ok.builtins, ?_, ?_, ok.pending, ok.names, ok.wrapped, ok.wrappers⟩, hp, hpend, hem,
    hw⟩
  · intro g hg b hb
    rcases List.mem_append.mp hg with hg | hg
    · exact ok.generic g hg b hb
    · rw [List.mem_singleton.mp hg]
      intro hn
      exact List.find?_eq_none.mp hnew b (ok.builtins.subset hb) (by simpa using hn)
  · intro sig hs base args hn
    obtain ⟨n, hn'⟩ := hp sig hs
    rw [hn'] at hn
    cases hn

theorem SemaState.Declaring.addFunction (h : s.Declaring) {n : String} {params : List Ty} {ret : Ty}
    (hnew : s.function? (.named n) = none) :
    SemaState.Declaring { s with functions := s.functions ++ [FunctionSig.mk (.named n) params ret false] } := by
  obtain ⟨ok, hp, hpend, hem, hw⟩ := h
  have hplain : ∀ sig ∈ s.functions ++ [FunctionSig.mk (.named n) params ret false], ∃ n, sig.name = .named n := by
    intro sig hs
    rcases List.mem_append.mp hs with hs | hs
    · exact hp sig hs
    · exact ⟨n, by rw [List.mem_singleton.mp hs]⟩
  refine ⟨⟨ok.types, ok.sourced, ok.builtins.trans (List.prefix_append _ _), ok.generic, ?_, ?_, ?_, ok.wrapped,
    ok.wrappers⟩, hplain, hpend, hem, hw⟩
  · intro sig hs base args hn
    obtain ⟨n, hn'⟩ := hplain sig hs
    rw [hn'] at hn
    cases hn
  · intro p hm
    simp only [hpend, List.not_mem_nil] at hm
  · simp only [List.map_append, List.map_cons, List.map_nil]
    refine List.Nodup.append ok.names (List.nodup_singleton _) (List.disjoint_singleton.mpr fun hm => ?_)
    obtain ⟨sig, hsig, hn⟩ := List.mem_map.mp hm
    exact List.find?_eq_none.mp hnew sig hsig (by simpa using hn)

/-- A plain function needs code from its registration on. -/
theorem SemaState.Declaring.due (h : s.Declaring) :
    s.due = (s.functions.drop getBuiltins.length).map FunctionSig.name := by
  simp [SemaState.due, h.wrapped]

theorem registerFunction_ok (h : registerFunction fuel fn s = .ok (u, s')) (hs : s.Declaring) :
    s'.Declaring ∧ s.Le s' ∧ s'.genericEnums = s.genericEnums ∧ (fn.typeParams = [] → s'.HasSignature fn) ∧
      s'.due = s.due ++ if fn.typeParams = [] then [.named fn.name] else [] := by
  simp only [registerFunction, bind_ok, get_ok, Prod.mk.injEq] at h
  obtain ⟨_, _, ⟨rfl, rfl⟩, h⟩ := h
  split at h
  · rename_i hgen
    simp only [bind_ok, require_ok, set_ok, Prod.mk.injEq, Bool.and_eq_true] at h
    obtain ⟨_, _, ⟨⟨-, hnew⟩, -, rfl⟩, -, rfl⟩ := h
    refine ⟨hs.addGeneric (by simpa using hnew), ⟨.refl _, List.prefix_rfl, List.Subset.refl _⟩, rfl,
      fun he => absurd he hgen, ?_⟩
    rw [if_neg hgen, List.append_nil]
    rfl
  · rename_i hgen
    simp only [bind_ok, require_ok, get_ok, set_ok, Prod.mk.injEq] at h
    obtain ⟨_, _, ⟨-, -, rfl⟩, params, s₁, hp, ret, s₂, hr, _, _, ⟨-, -, rfl⟩, _, _, ⟨-, -, rfl⟩, _, _, ⟨rfl, rfl⟩,
      _, _, ⟨hnew, -, rfl⟩, -, rfl⟩ := h
    obtain ⟨hi, hl⟩ := declaredParams_ok hp
    have hi' := hi.trans (resolveReturn_ok hr)
    have hnone : s₂.function? (.named fn.name) = none := by simpa using hnew
    have hdecl := @SemaState.Declaring.addFunction s₂ (hi'.declaring hs) fn.name params ret hnone
    refine ⟨hdecl, ⟨hi'.le hs.ok.types, ?_, ?_⟩, hi'.genericEnums, fun _ => ?_, ?_⟩
    · rw [hi'.rest]
      exact List.prefix_append _ _
    · rw [hs.wrapped]
      exact List.nil_subset _
    · refine ⟨⟨.named fn.name, params, ret, false⟩, ?_, hl⟩
      simp only [SemaState.function?] at hnone ⊢
      rw [List.find?_append, hnone]
      simp
    · have hfn : s₂.functions = s.functions := by rw [hi'.rest]
      rw [hdecl.due, hs.due, if_pos (not_not.mp hgen)]
      simp only [hfn]
      rw [List.drop_append_of_le_length hs.ok.builtins.length_le, List.map_append]
      rfl

theorem forM_registerFunction_ok {fns : List Function} (h : fns.forM (registerFunction fuel) s = .ok (u, s'))
    (hs : s.Declaring) : s'.Declaring ∧ s.Le s' ∧ s'.genericEnums = s.genericEnums ∧
      (∀ fn ∈ fns, fn.typeParams = [] → s'.HasSignature fn) ∧
      s'.due = s.due ++ (fns.filter fun f => f.typeParams = []).map fun f => .named f.name := by
  induction fns generalizing s with
  | nil =>
    simp only [List.forM_eq_forM, List.forM_nil, pure_ok, Prod.mk.injEq] at h
    obtain ⟨-, rfl⟩ := h
    exact ⟨hs, .refl _, rfl, by simp, by simp⟩
  | cons fn fns ih =>
    simp only [List.forM_eq_forM, List.forM_cons, bind_ok] at h
    obtain ⟨_, s₁, h₁, h₂⟩ := h
    obtain ⟨hs₁, hle₁, hen₁, hsig₁, hdue₁⟩ := registerFunction_ok h₁ hs
    obtain ⟨hs', hle, hen, hsig, hdue⟩ := ih h₂ hs₁
    refine ⟨hs', hle₁.trans hle, hen.trans hen₁, fun g hg hp => ?_, ?_⟩
    · rcases List.mem_cons.mp hg with rfl | hg
      · exact hle.hasSignature (hsig₁ hp)
      · exact hsig g hg hp
    · rw [hdue, hdue₁, List.append_assoc]
      by_cases hp : fn.typeParams = [] <;> simp [hp]

theorem checkEntryPoint_ok {program : Program} (h : checkEntryPoint program s = .ok (u, s')) : s' = s := by
  simp only [checkEntryPoint, bind_ok, get_ok, Prod.mk.injEq] at h
  obtain ⟨_, _, ⟨rfl, rfl⟩, h⟩ := h
  cases hg : s.genericFunction? "main" with
  | some node => simp [hg] at h
  | none =>
    cases hf : s.function? (.named "main") with
    | none => simp [hg, hf] at h
    | some sig =>
      simp only [hg, hf, bind_ok, require_ok, Prod.mk.injEq] at h
      obtain ⟨_, _, ⟨-, -, rfl⟩, -, -, rfl⟩ := h
      rfl

end Functions

end QuinLang
