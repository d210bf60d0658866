import QuinLang.Compiler.Instantiate
import QuinLang.Lib.StateExcept

/-! What declaring and instantiating types keeps true of the type table, and what it
leaves alone. -/

namespace QuinLang

open StateExcept

/-- The fields of an object, one after the other from word `offset` on. -/
def LaidOut : ℕ → List StructField → Prop
  | _, [] => True
  | offset, f :: fs =>
    f.offset = offset ∧ f.type ≠ .void ∧ f.type.isFrameArray = false ∧ LaidOut (offset + f.type.wordCount) fs

/-- No enum has two variants of one name. -/
def TypeTable.DistinctVariants (t : TypeTable) : Prop :=
  ∀ e ∈ t.enums, (e.variants.map VariantInfo.shortName).Nodup

instance (t : TypeTable) : Decidable t.DistinctVariants := by
  unfold TypeTable.DistinctVariants
  infer_instance

def TypeTable.allVariants (t : TypeTable) : List VariantInfo := t.enums.flatMap EnumInfo.variants

def TypeTable.typeIds (t : TypeTable) : List ℕ :=
  t.structs.map StructInfo.typeId ++ t.allVariants.map VariantInfo.typeId

structure TypeTable.Ok (t : TypeTable) : Prop where
  structNames : (t.structs.map StructInfo.name).Nodup
  enumNames : (t.enums.map EnumInfo.name).Nodup
  owner : ∀ e ∈ t.enums, ∀ v ∈ e.variants, v.enumName = e.name
  structFields : ∀ i ∈ t.structs, LaidOut 0 i.fields
  variantFields : ∀ e ∈ t.enums, ∀ v ∈ e.variants, LaidOut 0 v.fields
  typeIds : t.DistinctVariants → t.typeIds.Perm (List.range t.typeIds.length)
  bounded : ∀ i ∈ t.typeIds, i < t.typeIds.length

/-- Every type there keeps its definition. -/
structure TypeTable.Le (t t' : TypeTable) : Prop where
  struct : ∀ n i, t.struct? n = some i → t'.struct? n = some i
  enum : ∀ n e, t.enum? n = some e → t'.enum? n = some e

theorem TypeTable.Le.refl (t : TypeTable) : t.Le t := ⟨fun _ _ => id, fun _ _ => id⟩

theorem TypeTable.Le.trans {t t' t'' : TypeTable} (h : t.Le t') (h' : t'.Le t'') : t.Le t'' :=
  ⟨fun n i hi => h'.struct n i (h.struct n i hi), fun n e he => h'.enum n e (h.enum n e he)⟩

section Variants

/-- A variant of the enum of the name, as its declaration lists it. -/
def TypeTable.HasVariant (t : TypeTable) (name : TypeName) (v : VariantInfo) : Prop :=
  ∃ e, t.enum? name = some e ∧ v ∈ e.variants

theorem TypeTable.Le.hasVariant {t t' : TypeTable} (h : t.Le t') {n : TypeName} {v : VariantInfo}
    (hv : t.HasVariant n v) : t'.HasVariant n v := by
  obtain ⟨e, he, hv⟩ := hv
  exact ⟨e, h.enum n e he, hv⟩

def VariantInfo.sameName (v w : VariantInfo) : Prop := w.enumName = v.enumName ∧ w.shortName = v.shortName

theorem mem_insertVariant {table : List VariantInfo} {v w : VariantInfo}
    (h : w ∈ TypeTable.insertVariant table v) : w = v ∨ w ∈ table := by
  unfold TypeTable.insertVariant at h
  split at h
  · obtain ⟨u, hu, rfl⟩ := List.mem_map.mp h
    split
    · exact Or.inl rfl
    · exact Or.inr hu
  · rcases List.mem_append.mp h with h | h
    · exact Or.inr h
    · exact Or.inl (List.mem_singleton.mp h)

theorem mem_foldl_insertVariant {vs : List VariantInfo} {table : List VariantInfo} {w : VariantInfo}
    (h : w ∈ vs.foldl TypeTable.insertVariant table) : w ∈ table ∨ w ∈ vs := by
  induction vs generalizing table with
  | nil => exact Or.inl h
  | cons v vs ih =>
    rcases ih h with h | h
    · rcases mem_insertVariant h with rfl | h
      · exact Or.inr List.mem_cons_self
      · exact Or.inl h
    · exact Or.inr (List.mem_cons_of_mem _ h)

theorem TypeTable.mem_allVariants {t : TypeTable} {v : VariantInfo} (h : v ∈ t.variants) :
    v ∈ t.allVariants :=
  (mem_foldl_insertVariant h).resolve_left List.not_mem_nil

theorem find?_eq_of_nodup {α β : Type} [DecidableEq β] {f : α → β} {xs : List α} (h : (xs.map f).Nodup)
    {x : α} (hx : x ∈ xs) : xs.find? (fun y => f y = f x) = some x := by
  induction xs with
  | nil => cases hx
  | cons y ys ih =>
    simp only [List.map_cons, List.nodup_cons] at h
    rcases List.mem_cons.mp hx with rfl | hx'
    · simp
    · have hne : f y ≠ f x := fun he => h.1 (he ▸ List.mem_map_of_mem hx')
      rw [List.find?_cons_of_neg (by simpa using hne)]
      exact ih h.2 hx'

theorem TypeTable.Ok.hasVariant {t : TypeTable} (h : t.Ok) {v : VariantInfo} (hv : v ∈ t.allVariants) :
    t.HasVariant v.enumName v := by
  obtain ⟨e, he, hv⟩ := List.mem_flatMap.mp hv
  exact ⟨e, by rw [h.owner e he v hv]; exact find?_eq_of_nodup h.enumNames he, hv⟩

theorem TypeTable.variant?_eq_some {t : TypeTable} {n : TypeName} {short : String} {v : VariantInfo}
    (h : t.variant? n short = some v) : v ∈ t.allVariants ∧ v.enumName = n ∧ v.shortName = short := by
  have hm := List.mem_of_find?_eq_some h
  have hp := List.find?_some h
  simp only [decide_eq_true_eq] at hp
  exact ⟨mem_allVariants hm, hp⟩

theorem TypeTable.struct?_name {t : TypeTable} {n : TypeName} {i : StructInfo} (h : t.struct? n = some i) :
    i.name = n := by
  simpa using List.find?_some h

theorem TypeTable.enum?_name {t : TypeTable} {n : TypeName} {e : EnumInfo} (h : t.enum? n = some e) :
    e.name = n := by
  simpa using List.find?_some h

/-- Folding distinct names into a table that has none of them appends them. -/
theorem foldl_insertVariant_of_distinct {vs table : List VariantInfo}
    (h : vs.Pairwise fun v w => ¬ v.sameName w)
    (h' : ∀ v ∈ vs, ∀ w ∈ table, ¬ w.sameName v) :
    vs.foldl TypeTable.insertVariant table = table ++ vs := by
  induction vs generalizing table with
  | nil => simp
  | cons v vs ih =>
    have hnew : TypeTable.insertVariant table v = table ++ [v] := by
      unfold TypeTable.insertVariant
      rw [if_neg]
      simp only [List.any_eq_true, decide_eq_true_eq, not_exists, not_and]
      exact fun w hw h1 h2 => h' v List.mem_cons_self w hw ⟨h1.symm, h2.symm⟩
    obtain ⟨hv, hvs⟩ := List.pairwise_cons.mp h
    rw [List.foldl_cons, hnew, ih hvs, List.append_assoc, List.singleton_append]
    intro u hu w hw
    rcases List.mem_append.mp hw with hw | hw
    · exact h' u (List.mem_cons_of_mem _ hu) w hw
    · rw [List.mem_singleton.mp hw]
      exact hv u hu

theorem TypeTable.Ok.variants_eq {t : TypeTable} (h : t.Ok) (hd : t.DistinctVariants) :
    t.variants = t.allVariants := by
  unfold variants
  rw [foldl_insertVariant_of_distinct _ (by simp), List.nil_append]
  · rfl
  · rw [List.pairwise_flatMap]
    refine ⟨fun e he => ?_, ?_⟩
    · refine List.pairwise_map.mp ((hd e he).imp fun {a b} hab => hab) |>.imp ?_
      exact fun {v w} hne hsame => hne hsame.2.symm
    · refine List.Pairwise.imp_of_mem ?_ (List.pairwise_map.mp h.enumNames)
      intro e e' he he' hne v hv w hw hsame
      exact hne (by rw [← h.owner e he v hv, ← h.owner e' he' w hw]; exact hsame.1.symm)

theorem TypeTable.Ok.nextTypeId_eq {t : TypeTable} (h : t.Ok) (hd : t.DistinctVariants) :
    t.nextTypeId = t.typeIds.length := by
  simp [nextTypeId, TypeTable.typeIds, h.variants_eq hd]

theorem length_foldl_insertVariant (vs table : List VariantInfo) :
    (vs.foldl TypeTable.insertVariant table).length ≤ table.length + vs.length := by
  induction vs generalizing table with
  | nil => simp
  | cons v vs ih =>
    have hone : (TypeTable.insertVariant table v).length ≤ table.length + 1 := by
      unfold TypeTable.insertVariant
      split <;> simp
    have := ih (TypeTable.insertVariant table v)
    simp only [List.foldl_cons, List.length_cons]
    omega

theorem TypeTable.nextTypeId_le (t : TypeTable) : t.nextTypeId ≤ t.typeIds.length := by
  have h : t.variants.length ≤ t.allVariants.length :=
    (length_foldl_insertVariant t.allVariants []).trans (by simp)
  simp only [TypeTable.nextTypeId, TypeTable.typeIds, List.length_append, List.length_map]
  omega

end Variants

section Changes

variable {s : SemaState}

theorem range_perm_append {xs : List ℕ} (h : xs.Perm (List.range xs.length)) {ys : List ℕ}
    (hy : ys.Perm (xs ++ [xs.length])) : ys.Perm (List.range ys.length) := by
  have hl : ys.length = xs.length + 1 := by rw [hy.length_eq]; simp
  rw [hl, List.range_succ]
  exact hy.trans (h.append_right _)

/-- A new id is at most the number of types before it. -/
theorem bounded_append {xs ys : List ℕ} {n : ℕ} (h : ∀ i ∈ xs, i < xs.length) (hn : n ≤ xs.length)
    (hy : ys.Perm (xs ++ [n])) : ∀ i ∈ ys, i < ys.length := by
  intro i hi
  have hl : ys.length = xs.length + 1 := by rw [hy.length_eq]; simp
  rcases List.mem_append.mp (hy.subset hi) with hi | hi
  · have := h i hi
    omega
  · rw [List.mem_singleton.mp hi]
    omega

theorem TypeTable.Ok.addStruct (h : s.types.Ok) {name : TypeName} (hn : s.types.struct? name = none) :
    (s.addStruct ⟨name, s.types.nextTypeId, []⟩).types.Ok := by
  have hperm : (s.addStruct ⟨name, s.types.nextTypeId, []⟩).types.typeIds.Perm
      (s.types.typeIds ++ [s.types.nextTypeId]) := by
    simp only [TypeTable.typeIds, SemaState.addStruct, List.map_append, List.map_cons, List.map_nil,
      List.append_assoc]
    exact List.perm_append_comm.append_left _ |>.trans (by simp [TypeTable.allVariants])
  refine ⟨?_, h.enumNames, h.owner, ?_, h.variantFields, fun hd => ?_,
    bounded_append h.bounded s.types.nextTypeId_le hperm⟩
  · simp only [SemaState.addStruct, List.map_append, List.map_cons, List.map_nil]
    refine List.Nodup.append h.structNames (List.nodup_singleton _) (List.disjoint_singleton.mpr fun hm => ?_)
    obtain ⟨i, hi, hin⟩ := List.mem_map.mp hm
    exact List.find?_eq_none.mp hn i hi (by simpa using hin)
  · intro i hi
    rcases List.mem_append.mp hi with hi | hi
    · exact h.structFields i hi
    · rw [List.mem_singleton.mp hi]
      trivial
  · have hd' : s.types.DistinctVariants := hd
    refine range_perm_append (h.typeIds hd') ?_
    rw [← h.nextTypeId_eq hd']
    exact hperm

theorem TypeTable.Ok.setStructFields (h : s.types.Ok) {name : TypeName} {fields : List StructField}
    (hf : LaidOut 0 fields) : (s.setStructFields name fields).types.Ok := by
  have hname : ∀ i : StructInfo, (if i.name = name then { i with fields := fields } else i).name = i.name :=
    fun i => by split <;> rfl
  have hid : ∀ i : StructInfo, (if i.name = name then { i with fields := fields } else i).typeId = i.typeId :=
    fun i => by split <;> rfl
  have hids : (s.setStructFields name fields).types.typeIds = s.types.typeIds := by
    simp [SemaState.setStructFields, TypeTable.typeIds, TypeTable.allVariants, Function.comp_def, hid]
  refine ⟨?_, h.enumNames, h.owner, ?_, h.variantFields, fun hd => ?_, hids ▸ h.bounded⟩
  · simpa [SemaState.setStructFields, Function.comp_def, hname] using h.structNames
  · intro i hi
    obtain ⟨j, hj, rfl⟩ := List.mem_map.mp hi
    split
    · exact hf
    · exact h.structFields j hj
  · rw [hids]
    exact h.typeIds hd

theorem TypeTable.Ok.addEnum (h : s.types.Ok) {name : TypeName} (hn : s.types.enum? name = none) :
    (s.addEnum name).types.Ok := by
  have hall : (s.addEnum name).types.allVariants = s.types.allVariants := by
    simp [SemaState.addEnum, TypeTable.allVariants]
  have hids : (s.addEnum name).types.typeIds = s.types.typeIds := by
    unfold TypeTable.typeIds
    rw [hall]
    rfl
  refine ⟨h.structNames, ?_, ?_, h.structFields, ?_, fun hd => ?_, hids ▸ h.bounded⟩
  · simp only [SemaState.addEnum, List.map_append, List.map_cons, List.map_nil]
    refine List.Nodup.append h.enumNames (List.nodup_singleton _) (List.disjoint_singleton.mpr fun hm => ?_)
    obtain ⟨i, hi, hin⟩ := List.mem_map.mp hm
    exact List.find?_eq_none.mp hn i hi (by simpa using hin)
  · intro e he v hv
    rcases List.mem_append.mp he with he | he
    · exact h.owner e he v hv
    · rw [List.mem_singleton.mp he] at hv
      cases hv
  · intro e he v hv
    rcases List.mem_append.mp he with he | he
    · exact h.variantFields e he v hv
    · rw [List.mem_singleton.mp he] at hv
      cases hv
  · rw [hids]
    exact h.typeIds fun e he => hd e (List.mem_append_left _ he)

/-- Changing the variants of the one enum of a name. -/
theorem mem_modifyEnum {name : TypeName} {f : List VariantInfo → List VariantInfo} {e : EnumInfo}
    (h : e ∈ (s.modifyEnum name f).types.enums) :
    ∃ e₀ ∈ s.types.enums, e.name = e₀.name ∧
      (e.variants = e₀.variants ∨ e₀.name = name ∧ e.variants = f e₀.variants) := by
  obtain ⟨e₀, he₀, rfl⟩ := List.mem_map.mp h
  refine ⟨e₀, he₀, ?_⟩
  split
  · exact ⟨rfl, Or.inr ⟨‹_›, rfl⟩⟩
  · exact ⟨rfl, Or.inl rfl⟩

theorem modifyEnum_names {name : TypeName} {f : List VariantInfo → List VariantInfo} :
    (s.modifyEnum name f).types.enums.map EnumInfo.name = s.types.enums.map EnumInfo.name := by
  simp only [SemaState.modifyEnum, List.map_map]
  refine List.map_congr_left fun e _ => ?_
  simp only [Function.comp_apply]
  split <;> rfl

theorem allVariants_append {es : List EnumInfo} (h : (es.map EnumInfo.name).Nodup) (name : TypeName)
    (v : VariantInfo) :
    let es' := es.map fun i => if i.name = name then { i with variants := i.variants ++ [v] } else i
    (es'.flatMap EnumInfo.variants).Perm
      (if name ∈ es.map EnumInfo.name then es.flatMap EnumInfo.variants ++ [v]
        else es.flatMap EnumInfo.variants) := by
  induction es with
  | nil => simp
  | cons e es ih =>
    obtain ⟨hn, hnd⟩ := List.nodup_cons.mp h
    have ih := ih hnd
    by_cases he : e.name = name
    · subst he
      rw [if_neg hn] at ih
      simp only [List.map_cons, List.flatMap_cons, if_true, List.mem_cons_self, List.append_assoc]
      refine (List.Perm.append_left _ ?_)
      exact (List.perm_append_comm).trans (ih.append_right _)
    · simp only [List.map_cons, List.flatMap_cons, he, if_false, List.mem_cons, Ne.symm he, false_or]
      refine (ih.append_left e.variants).trans ?_
      split <;> simp

theorem TypeTable.Ok.addVariant (h : s.types.Ok) (enumName : TypeName) (short : String) (index : ℕ) :
    (s.addVariant enumName short index).types.Ok := by
  have hperm : (s.addVariant enumName short index).types.typeIds.Perm
      (if enumName ∈ s.types.enums.map EnumInfo.name then s.types.typeIds ++ [s.types.nextTypeId]
        else s.types.typeIds) := by
    have hperm := allVariants_append h.enumNames enumName ⟨enumName, short, s.types.nextTypeId, index, []⟩
    simp only [TypeTable.typeIds, TypeTable.allVariants]
    refine (List.Perm.append_left (s.types.structs.map StructInfo.typeId) (hperm.map _)).trans ?_
    split <;> simp
  refine ⟨h.structNames, ?_, ?_, h.structFields, ?_, fun hd => ?_, ?_⟩
  · rw [SemaState.addVariant, modifyEnum_names]
    exact h.enumNames
  · intro e he v hv
    obtain ⟨e₀, he₀, hname, hvs | ⟨hen, hvs⟩⟩ := mem_modifyEnum he
    · rw [hname]
      exact h.owner e₀ he₀ v (hvs ▸ hv)
    · rw [hvs] at hv
      rcases List.mem_append.mp hv with hv | hv
      · rw [hname]
        exact h.owner e₀ he₀ v hv
      · rw [List.mem_singleton.mp hv, hname, hen]
  · intro e he v hv
    obtain ⟨e₀, he₀, -, hvs | ⟨-, hvs⟩⟩ := mem_modifyEnum he
    · exact h.variantFields e₀ he₀ v (hvs ▸ hv)
    · rw [hvs] at hv
      rcases List.mem_append.mp hv with hv | hv
      · exact h.variantFields e₀ he₀ v hv
      · rw [List.mem_singleton.mp hv]
        trivial
  · have hd' : s.types.DistinctVariants := by
      intro e he
      have hm : (if e.name = enumName then
          { e with variants := e.variants ++ [⟨enumName, short, s.types.nextTypeId, index, []⟩] } else e)
          ∈ (s.addVariant enumName short index).types.enums :=
        List.mem_map.mpr ⟨e, he, rfl⟩
      have := hd _ hm
      split at this
      · simp only [List.map_append] at this
        exact (List.nodup_append.mp this).1
      · exact this
    by_cases hin : enumName ∈ s.types.enums.map EnumInfo.name
    · rw [if_pos hin, h.nextTypeId_eq hd'] at hperm
      exact range_perm_append (h.typeIds hd') hperm
    · rw [if_neg hin] at hperm
      rw [hperm.length_eq]
      exact hperm.trans (h.typeIds hd')
  · by_cases hin : enumName ∈ s.types.enums.map EnumInfo.name
    · rw [if_pos hin] at hperm
      exact bounded_append h.bounded s.types.nextTypeId_le hperm
    · rw [if_neg hin] at hperm
      intro i hi
      rw [hperm.length_eq]
      exact h.bounded i (hperm.subset hi)

theorem TypeTable.Ok.setVariantFields (h : s.types.Ok) {enumName : TypeName} {index : ℕ}
    {fields : List StructField} (hf : LaidOut 0 fields) :
    (s.setVariantFields enumName index fields).types.Ok := by
  set g : VariantInfo → VariantInfo := fun v => if v.index = index then { v with fields := fields } else v
    with hg
  have hid : ∀ v, (g v).typeId = v.typeId := fun v => by simp only [hg]; split <;> rfl
  have hshort : ∀ v, (g v).shortName = v.shortName := fun v => by simp only [hg]; split <;> rfl
  have hown : ∀ v, (g v).enumName = v.enumName := fun v => by simp only [hg]; split <;> rfl
  have hids : (s.setVariantFields enumName index fields).types.typeIds = s.types.typeIds := by
    simp only [SemaState.setVariantFields, SemaState.modifyEnum, TypeTable.typeIds,
      TypeTable.allVariants, List.flatMap_map]
    congr 1
    simp only [List.map_flatMap]
    refine List.flatMap_congr fun e _ => ?_
    split
    · simp only [List.map_map]
      exact List.map_congr_left fun v _ => hid v
    · rfl
  refine ⟨h.structNames, ?_, ?_, h.structFields, ?_, fun hd => ?_, hids ▸ h.bounded⟩
  · rw [SemaState.setVariantFields, modifyEnum_names]
    exact h.enumNames
  · intro e he v hv
    obtain ⟨e₀, he₀, hname, hvs | ⟨-, hvs⟩⟩ := mem_modifyEnum he
    · rw [hname]
      exact h.owner e₀ he₀ v (hvs ▸ hv)
    · rw [hvs] at hv
      obtain ⟨w, hw, rfl⟩ := List.mem_map.mp hv
      rw [hname]
      exact (hown w).trans (h.owner e₀ he₀ w hw)
  · intro e he v hv
    obtain ⟨e₀, he₀, -, hvs | ⟨-, hvs⟩⟩ := mem_modifyEnum he
    · exact h.variantFields e₀ he₀ v (hvs ▸ hv)
    · rw [hvs] at hv
      obtain ⟨w, hw, rfl⟩ := List.mem_map.mp hv
      split
      · exact hf
      · exact h.variantFields e₀ he₀ w hw
  · have hd' : s.types.DistinctVariants := by
      intro e he
      have := hd _ (List.mem_map.mpr ⟨e, he, rfl⟩)
      split at this
      · have hmap : (e.variants.map g).map VariantInfo.shortName = e.variants.map VariantInfo.shortName := by
          rw [List.map_map]
          exact List.map_congr_left fun v _ => hshort v
        rw [← hmap]
        exact this
      · exact this
    rw [hids]
    exact h.typeIds hd'

end Changes

section Sourced

/-- The variants of an instance are those of its template; a plain enum's are distinct. -/
structure EnumInfo.Sourced (e : EnumInfo) (templates : List EnumDef) : Prop where
  template : ∀ base args, e.name = .app base args → ∃ ed, templates.find? (fun d => d.name = base) = some ed ∧
    e.variants.map VariantInfo.shortName = ed.variants.map VariantDef.name
  plain : (∀ base args, e.name ≠ .app base args) → (e.variants.map VariantInfo.shortName).Nodup

def SemaState.Sourced (s : SemaState) : Prop := ∀ e ∈ s.types.enums, e.Sourced s.genericEnums

/-- The enum `name` has the variants `shorts` so far, and the other enums are complete. -/
def SemaState.Building (s : SemaState) (name : TypeName) (shorts : List String) : Prop :=
  ∀ e ∈ s.types.enums, e.name = name ∧ e.variants.map VariantInfo.shortName = shorts ∨
    e.name ≠ name ∧ e.Sourced s.genericEnums

variable {s s' : SemaState}

theorem SemaState.Sourced.congr (h : s.Sourced) (hg : s'.genericEnums = s.genericEnums)
    (he : ∀ e ∈ s'.types.enums, ∃ e₀ ∈ s.types.enums, e.name = e₀.name ∧
      e.variants.map VariantInfo.shortName = e₀.variants.map VariantInfo.shortName) : s'.Sourced := by
  intro e hm
  obtain ⟨e₀, hm₀, hn, hv⟩ := he e hm
  obtain ⟨ht, hp⟩ := h e₀ hm₀
  refine ⟨fun base args hb => ?_, fun hb => ?_⟩
  · obtain ⟨ed, hed, hes⟩ := ht base args (hn ▸ hb)
    exact ⟨ed, hg ▸ hed, hv.trans hes⟩
  · rw [hv]
    exact hp fun base args h => hb base args (hn.trans h)

theorem SemaState.Sourced.addEnum (h : s.Sourced) {name : TypeName} (hn : s.types.enum? name = none) :
    (s.addEnum name).Building name [] := by
  intro e he
  rcases List.mem_append.mp he with he | he
  · right
    exact ⟨by simpa using List.find?_eq_none.mp hn e he, h e he⟩
  · left
    rw [List.mem_singleton.mp he]
    exact ⟨rfl, rfl⟩

theorem SemaState.Building.addVariant {name : TypeName} {shorts : List String} (h : s.Building name shorts)
    (short : String) (index : ℕ) : (s.addVariant name short index).Building name (shorts ++ [short]) := by
  intro e he
  obtain ⟨e₀, he₀, rfl⟩ := List.mem_map.mp he
  rcases h e₀ he₀ with ⟨hn, hv⟩ | ⟨hn, hs⟩
  · left
    rw [if_pos hn]
    exact ⟨hn, by simp [hv]⟩
  · right
    rw [if_neg hn]
    exact ⟨hn, hs⟩

theorem SemaState.Building.sourced {name : TypeName} {shorts : List String} (h : s.Building name shorts)
    (ht : ∀ base args, name = .app base args → ∃ ed, s.genericEnum? base = some ed ∧
      shorts = ed.variants.map VariantDef.name)
    (hp : (∀ base args, name ≠ .app base args) → shorts.Nodup) : s.Sourced := by
  intro e he
  rcases h e he with ⟨hn, hv⟩ | ⟨-, hs⟩
  · refine ⟨fun base args hb => ?_, fun hb => ?_⟩
    · rw [hv]
      exact ht base args (hn ▸ hb)
    · rw [hv]
      exact hp fun base args h => hb base args (hn.trans h)
  · exact hs

theorem SemaState.Sourced.setVariantFields (h : s.Sourced) (name : TypeName) (index : ℕ)
    (fields : List StructField) : (s.setVariantFields name index fields).Sourced := by
  refine h.congr rfl fun e he => ?_
  obtain ⟨e₀, he₀, rfl⟩ := List.mem_map.mp he
  refine ⟨e₀, he₀, by split <;> rfl, ?_⟩
  split
  · rw [List.map_map]
    refine List.map_congr_left fun v _ => ?_
    simp only [Function.comp_apply]
    split <;> rfl
  · rfl

end Sourced

section Instantiating

/-- Only the type table changes, it stays well formed, and types of other names than
`name` keep their definitions. -/
structure Declares (name : Option TypeName) (s s' : SemaState) : Prop where
  rest : s' = { s with types := s'.types }
  ok : s.types.Ok → s'.types.Ok
  struct : s.types.Ok → ∀ n i, some n ≠ name → s.types.struct? n = some i → s'.types.struct? n = some i
  enum : s.types.Ok → ∀ n e, some n ≠ name → s.types.enum? n = some e → s'.types.enum? n = some e

structure Instantiates (s s' : SemaState) : Prop extends Declares none s s' where
  sourced : s.Sourced → s'.Sourced

variable {name : Option TypeName} {s s' s'' : SemaState}

theorem Declares.refl (name : Option TypeName) (s : SemaState) : Declares name s s :=
  ⟨rfl, id, fun _ _ _ _ => id, fun _ _ _ _ => id⟩

theorem Declares.trans (h : Declares name s s') (h' : Declares name s' s'') : Declares name s s'' := by
  refine ⟨?_, fun ok => h'.ok (h.ok ok), fun ok n i hn hi => h'.struct (h.ok ok) n i hn (h.struct ok n i hn hi),
    fun ok n e hn he => h'.enum (h.ok ok) n e hn (h.enum ok n e hn he)⟩
  rw [h'.rest, h.rest]

theorem Instantiates.refl (s : SemaState) : Instantiates s s := ⟨.refl none s, id⟩

theorem Instantiates.trans (h : Instantiates s s') (h' : Instantiates s' s'') : Instantiates s s'' :=
  ⟨h.toDeclares.trans h'.toDeclares, fun hs => h'.sourced (h.sourced hs)⟩

theorem Instantiates.declares (h : Instantiates s s') (name : Option TypeName) : Declares name s s' :=
  ⟨h.rest, h.ok, fun ok n i _ => h.struct ok n i (by simp), fun ok n e _ => h.enum ok n e (by simp)⟩

theorem Instantiates.le (h : Instantiates s s') (ok : s.types.Ok) : s.types.Le s'.types :=
  ⟨fun n i => h.struct ok n i (by simp), fun n e => h.enum ok n e (by simp)⟩

/-- A new type may change while it is declared. -/
theorem Declares.instantiates {n : TypeName} (h : Declares (some n) s s')
    (hs : s.types.struct? n = none) (he : s.types.enum? n = none) (hsourced : s.Sourced → s'.Sourced) :
    Instantiates s s' := by
  refine ⟨⟨h.rest, h.ok, fun ok m i _ hi => h.struct ok m i ?_ hi, fun ok m e _ hi => h.enum ok m e ?_ hi⟩, hsourced⟩
  · rintro ⟨⟩
    rw [hs] at hi
    cases hi
  · rintro ⟨⟩
    rw [he] at hi
    cases hi

theorem declares_addStruct {n : TypeName} (hn : s.types.struct? n = none) :
    Declares (some n) s (s.addStruct ⟨n, s.types.nextTypeId, []⟩) := by
  refine ⟨rfl, fun ok => ok.addStruct hn, fun _ m i _ hi => ?_, fun _ _ _ _ => id⟩
  simp only [TypeTable.struct?, SemaState.addStruct, List.find?_append] at hi ⊢
  rw [hi]
  rfl

theorem declares_setStructFields {n : TypeName} {fields : List StructField} (hf : LaidOut 0 fields) :
    Declares (some n) s (s.setStructFields n fields) := by
  refine ⟨rfl, fun ok => ok.setStructFields hf, fun _ m i hm hi => ?_, fun _ _ _ _ => id⟩
  have hne : m ≠ n := fun h => hm (h ▸ rfl)
  have hin := TypeTable.struct?_name hi
  simp only [TypeTable.struct?, SemaState.setStructFields, List.find?_map] at hi ⊢
  have hp : ((fun i : StructInfo => decide (i.name = m)) ∘ fun i =>
      if i.name = n then { i with fields := fields } else i) = fun i => decide (i.name = m) := by
    funext j
    simp only [Function.comp_apply]
    split <;> rfl
  rw [hp, hi, Option.map_some, if_neg (hin ▸ hne)]

theorem declares_modifyEnum {n : TypeName} {f : List VariantInfo → List VariantInfo}
    (hok : s.types.Ok → (s.modifyEnum n f).types.Ok) : Declares (some n) s (s.modifyEnum n f) := by
  refine ⟨rfl, hok, fun _ _ _ _ => id, fun _ m e hm he => ?_⟩
  have hne : m ≠ n := fun h => hm (h ▸ rfl)
  have hen := TypeTable.enum?_name he
  simp only [TypeTable.enum?, SemaState.modifyEnum, List.find?_map] at he ⊢
  have hp : ((fun i : EnumInfo => decide (i.name = m)) ∘ fun i =>
      if i.name = n then { i with variants := f i.variants } else i) = fun i => decide (i.name = m) := by
    funext j
    simp only [Function.comp_apply]
    split <;> rfl
  rw [hp, he, Option.map_some, if_neg (hen ▸ hne)]

theorem declares_addEnum {n : TypeName} (hn : s.types.enum? n = none) :
    Declares (some n) s (s.addEnum n) := by
  refine ⟨rfl, fun ok => ok.addEnum hn, fun _ _ _ _ => id, fun _ m e _ he => ?_⟩
  simp only [TypeTable.enum?, SemaState.addEnum, List.find?_append] at he ⊢
  rw [he]
  rfl

@[simp]
theorem reject_ok {α : Type} {message : String} {pos : Pos} {r : α × SemaState} :
    (reject message pos : Sema α) s = .ok r ↔ False :=
  throw_ok

@[simp]
theorem rejectNoted_ok {α : Type} {message : String} {pos : Pos} {r : α × SemaState} :
    (rejectNoted message pos : Sema α) s = .ok r ↔ False := by
  simp [rejectNoted]

@[simp]
theorem require_ok {ok : Bool} {message : String} {pos : Pos} {r : Unit × SemaState} :
    require ok message pos s = .ok r ↔ ok = true ∧ ((), s) = r := by
  unfold require
  split <;> simp_all

@[simp]
theorem requireNoted_ok {ok : Bool} {message : String} {pos : Pos} {r : Unit × SemaState} :
    requireNoted ok message pos s = .ok r ↔ ok = true ∧ ((), s) = r := by
  unfold requireNoted
  split <;> simp_all

theorem forM_ok {α : Type} {R : SemaState → SemaState → Prop} {f : α → Sema Unit} {xs : List α}
    (hrefl : ∀ s, R s s) (htrans : ∀ {a b c}, R a b → R b c → R a c)
    (hf : ∀ x ∈ xs, ∀ s r, f x s = .ok r → R s r.2) {s : SemaState} {r : Unit × SemaState}
    (h : xs.forM f s = .ok r) : R s r.2 := by
  induction xs generalizing s with
  | nil =>
    simp only [List.forM_eq_forM, List.forM_nil, pure_ok] at h
    subst h
    exact hrefl s
  | cons x xs ih =>
    simp only [List.forM_eq_forM, List.forM_cons, bind_ok] at h
    obtain ⟨_, s₁, h1, h2⟩ := h
    exact htrans (hf x List.mem_cons_self s _ h1) (ih (fun y hy => hf y (List.mem_cons_of_mem _ hy)) h2)

theorem resolveTypeWith_spec {ensure : TypeName → Pos → Sema Unit} {n : TypeName} {pos : Pos} {t : Ty}
    (hens : ∀ n pos s r, ensure n pos s = .ok r → Instantiates s r.2)
    (h : resolveTypeWith ensure n pos s = .ok (t, s')) :
    Instantiates s s' ∧ typeFromName s'.types n = .ok t := by
  simp only [resolveTypeWith, bind_ok, get_ok] at h
  obtain ⟨u, s₁, h1, _, _, ⟨rfl, rfl⟩, h⟩ := h
  have hi := hens _ _ _ _ h1
  cases ht : typeFromName s₁.types n with
  | error message => simp [ht] at h
  | ok ty =>
    simp only [ht, pure_ok, Prod.mk.injEq] at h
    obtain ⟨rfl, rfl⟩ := h
    exact ⟨hi, ht⟩

section Fields

variable {resolve : TypeName → Pos → Sema Ty}

theorem structFields_spec (hres : ∀ n pos s r, resolve n pos s = .ok r → Instantiates s r.2)
    {owner : TypeName} {seen : List String} {offset : ℕ} {fs : List FieldDef} {out : List StructField}
    (h : structFields resolve owner seen offset fs s = .ok (out, s')) :
    Instantiates s s' ∧ LaidOut offset out := by
  induction fs generalizing seen offset out s with
  | nil =>
    simp only [structFields, pure_ok, Prod.mk.injEq] at h
    obtain ⟨rfl, rfl⟩ := h
    exact ⟨.refl _, trivial⟩
  | cons f fs ih =>
    simp only [structFields, bind_ok, requireNoted_ok, pure_ok, Prod.mk.injEq] at h
    obtain ⟨_, _, ⟨-, -, rfl⟩, t, s₁, ht, _, _, ⟨harr, -, rfl⟩, _, _, ⟨hvoid, -, rfl⟩, rest, s₂, hrest, rfl,
      rfl⟩ := h
    obtain ⟨hi, hl⟩ := ih hrest
    exact ⟨(hres _ _ _ _ ht).trans hi, rfl, by simpa using hvoid, by simpa using harr, hl⟩

theorem variantFields_spec (hres : ∀ n pos s r, resolve n pos s = .ok r → Instantiates s r.2)
    {vd : VariantDef} {position offset : ℕ} {ns : List TypeName} {out : List StructField}
    (h : variantFields resolve vd position offset ns s = .ok (out, s')) :
    Instantiates s s' ∧ LaidOut offset out := by
  induction ns generalizing position offset out s with
  | nil =>
    simp only [variantFields, pure_ok, Prod.mk.injEq] at h
    obtain ⟨rfl, rfl⟩ := h
    exact ⟨.refl _, trivial⟩
  | cons n ns ih =>
    simp only [variantFields, bind_ok, requireNoted_ok, pure_ok, Prod.mk.injEq] at h
    obtain ⟨t, s₁, ht, _, _, ⟨harr, -, rfl⟩, _, _, ⟨hvoid, -, rfl⟩, rest, s₂, hrest, rfl, rfl⟩ := h
    obtain ⟨hi, hl⟩ := ih hrest
    exact ⟨(hres _ _ _ _ ht).trans hi, rfl, by simpa using hvoid, by simpa using harr, hl⟩

theorem resolvePayloads_spec (hres : ∀ n pos s r, resolve n pos s = .ok r → Instantiates s r.2)
    {enumName : TypeName} {index : ℕ} {vds : List VariantDef} {u : Unit}
    (h : resolvePayloads resolve enumName index vds s = .ok (u, s')) :
    Declares (some enumName) s s' ∧ (s.Sourced → s'.Sourced) := by
  induction vds generalizing index s with
  | nil =>
    simp only [resolvePayloads, pure_ok, Prod.mk.injEq] at h
    obtain ⟨-, rfl⟩ := h
    exact ⟨.refl _ _, id⟩
  | cons vd vds ih =>
    simp only [resolvePayloads, bind_ok, modify_ok, Prod.mk.injEq] at h
    obtain ⟨fields, s₁, hf, _, _, ⟨-, rfl⟩, h⟩ := h
    obtain ⟨hi, hl⟩ := variantFields_spec hres hf
    obtain ⟨hd, hs⟩ := ih h
    exact ⟨((hi.declares _).trans (declares_modifyEnum fun ok => ok.setVariantFields hl)).trans hd,
      fun hsourced => hs ((hi.sourced hsourced).setVariantFields _ _ _)⟩

end Fields

theorem addVariants_spec {enumName : TypeName} {index : ℕ} {vds : List VariantDef} {u : Unit}
    (h : addVariants enumName index vds s = .ok (u, s')) :
    Declares (some enumName) s s' ∧ ∀ shorts, s.Building enumName shorts →
      s'.Building enumName (shorts ++ vds.map VariantDef.name) := by
  induction vds generalizing index s with
  | nil =>
    simp only [addVariants, pure_ok, Prod.mk.injEq] at h
    obtain ⟨-, rfl⟩ := h
    exact ⟨.refl _ _, fun shorts hb => by simpa using hb⟩
  | cons vd vds ih =>
    simp only [addVariants, bind_ok, modify_ok, Prod.mk.injEq] at h
    obtain ⟨_, _, ⟨-, rfl⟩, h⟩ := h
    obtain ⟨hd, hb⟩ := ih h
    refine ⟨(declares_modifyEnum fun ok => ok.addVariant enumName vd.name index).trans hd, fun shorts hs => ?_⟩
    have := hb _ (hs.addVariant vd.name index)
    rwa [List.append_assoc, List.singleton_append] at this

theorem checkDepth_ok {n : TypeName} {pos : Pos} {u : Unit} (h : checkDepth n pos s = .ok (u, s')) :
    s' = s := by
  simp only [checkDepth, bind_ok, get_ok, requireNoted_ok, Prod.mk.injEq] at h
  obtain ⟨_, _, ⟨rfl, rfl⟩, -, -, rfl⟩ := h
  rfl

theorem instantiateTypeWith_spec {resolve : TypeName → Pos → Sema Ty}
    (hres : ∀ n pos s r, resolve n pos s = .ok r → Instantiates s r.2) {base : String}
    {args : List TypeName} {pos : Pos} {u : Unit}
    (h : instantiateTypeWith resolve base args pos s = .ok (u, s')) : Instantiates s s' := by
  simp only [instantiateTypeWith, bind_ok, get_ok, Prod.mk.injEq] at h
  obtain ⟨_, _, ⟨rfl, rfl⟩, h⟩ := h
  split at h
  · simp only [pure_ok, Prod.mk.injEq] at h
    obtain ⟨-, rfl⟩ := h
    exact .refl _
  · rename_i hnew
    simp only [not_or, Option.not_isSome_iff_eq_none] at hnew
    obtain ⟨hs, he⟩ := hnew
    simp only [bind_ok] at h
    obtain ⟨_, s₁, hd, h⟩ := h
    obtain rfl := checkDepth_ok hd
    cases hg : s₁.genericStruct? base with
    | some sd =>
      simp only [hg, templateArity, bind_ok, requireNoted_ok, modify_ok, Prod.mk.injEq] at h
      obtain ⟨_, _, ⟨-, -, rfl⟩, _, _, ⟨-, rfl⟩, fields, s₂, hf, -, rfl⟩ := h
      obtain ⟨hi, hl⟩ := structFields_spec hres hf
      refine Declares.instantiates (((declares_addStruct hs).trans (hi.declares _)).trans
        (declares_setStructFields hl)) hs he fun hsourced => ?_
      have hadd : (s₁.addStruct ⟨.app base args, s₁.types.nextTypeId, []⟩).Sourced :=
        hsourced.congr rfl fun e he => ⟨e, he, rfl, rfl⟩
      exact (hi.sourced hadd).congr rfl fun e he => ⟨e, he, rfl, rfl⟩
    | none =>
      cases he' : s₁.genericEnum? base with
      | none => simp [hg, he'] at h
      | some ed =>
        simp only [hg, he', templateArity, bind_ok, requireNoted_ok, modify_ok, Prod.mk.injEq] at h
        obtain ⟨_, _, ⟨-, -, rfl⟩, _, _, ⟨-, rfl⟩, _, s₂, ha, h⟩ := h
        obtain ⟨hadd, hbuilt⟩ := addVariants_spec ha
        obtain ⟨hpay, hsrc⟩ := resolvePayloads_spec hres h
        refine Declares.instantiates (((declares_addEnum he).trans hadd).trans hpay) hs he fun hsourced => hsrc ?_
        refine (hbuilt [] (hsourced.addEnum he)).sourced (fun base' args' hb => ?_) fun hb => absurd rfl (hb base args)
        cases hb
        refine ⟨ed, ?_, by simp [Function.comp_def]⟩
        rw [hadd.rest]
        exact he'

/-- Instantiating what a spelling names only declares new types. -/
theorem ensureInstantiated_spec (fuel : ℕ) (n : TypeName) (pos : Pos) (s : SemaState)
    (r : Unit × SemaState) (h : ensureInstantiated fuel n pos s = .ok r) : Instantiates s r.2 := by
  induction fuel generalizing n pos s r with
  | zero => cases n <;> simp [ensureInstantiated] at h <;> subst h <;> exact .refl _
  | succ fuel ih =>
    cases n with
    | named | frameArray =>
      simp only [ensureInstantiated, pure_ok] at h
      subst h
      exact .refl _
    | fn params ret =>
      simp only [ensureInstantiated, bind_ok] at h
      obtain ⟨_, s₁, hp, h⟩ := h
      exact (forM_ok Instantiates.refl Instantiates.trans (fun p _ => ih p pos) hp).trans (ih _ _ _ _ h)
    | app base args =>
      simp only [ensureInstantiated, bind_ok, get_ok, Prod.mk.injEq] at h
      obtain ⟨_, s₁, ha, _, _, ⟨rfl, rfl⟩, h⟩ := h
      refine (forM_ok Instantiates.refl Instantiates.trans (fun p _ => ih p pos) ha).trans ?_
      split at h
      · exact instantiateTypeWith_spec
          (fun _ _ _ _ h => (resolveTypeWith_spec ih h).1) h
      · simp only [pure_ok] at h
        subst h
        exact .refl _

theorem resolveType_spec {fuel : ℕ} {n : TypeName} {pos : Pos} {t : Ty}
    (h : resolveType fuel n pos s = .ok (t, s')) :
    Instantiates s s' ∧ typeFromName s'.types n = .ok t :=
  resolveTypeWith_spec (ensureInstantiated_spec fuel) h

end Instantiating

end QuinLang
