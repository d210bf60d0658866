import QuinLang.Collection.Allocation
import QuinLang.Compiler.Calling
import QuinLang.Compiler.TypeIds

/-! The tables that code generation writes are such that headers and frames can be trusted. -/

namespace QuinLang

section StackMaps

/-- Every variable has a slot of its own, so no stack map names one twice. -/
theorem refSlots_nodup (fn : TFunction) : (buildLayout fn).refSlots.Nodup := by
  have hslots : (fn.frame.zip (assignSlots 0 fn.frame)).Pairwise fun p q => p.2.index ≠ q.2.index := by
    rw [List.pairwise_iff_getElem]
    intro i j hi hj hlt
    obtain ⟨hsym, hslot⟩ := List.getElem?_zip_eq_some.mp (List.getElem?_eq_getElem hi)
    obtain ⟨hsym', hslot'⟩ := List.getElem?_zip_eq_some.mp (List.getElem?_eq_getElem hj)
    have hapart := assignSlots_lt hlt hsym hsym' hslot hslot'
    have hwidth := slotWidth_pos (fn.frame.zip (assignSlots 0 fn.frame))[i].1.type
    omega
  refine List.Pairwise.filterMap _ (fun p q hne k hk k' hk' => ?_) hslots
  split at hk
  · split at hk'
    · cases hk
      cases hk'
      exact hne
    · cases hk'
  · cases hk

theorem stackMapsOk_compiled {fuel : ℕ} {program : Program} {g : Generated} (h : compile fuel program = .ok g) : StackMapsOk g.program := by
  intro fn hfn
  obtain ⟨i, hi⟩ := List.mem_iff_getElem?.mp hfn
  have hlt : i < g.functions.length := length_compiled h ▸ (List.getElem?_eq_some_iff.mp hi).1
  obtain ⟨entry, -, -, -, -, -, hinfo⟩ := compile_function h (List.getElem?_eq_getElem hlt)
  obtain rfl := Option.some.inj (hi.symm.trans hinfo)
  exact refSlots_nodup _

end StackMaps

section Layouts

/-- Fields laid out one after the other keep inside the object, each after those before it. -/
theorem LaidOut.offsets {offset : ℕ} {fields : List StructField} (h : LaidOut offset fields) :
    (fields.map StructField.offset).Pairwise (· < ·) ∧
      ∀ f ∈ fields, offset ≤ f.offset ∧ f.offset < offset + wordSize fields := by
  induction fields generalizing offset with
  | nil => exact ⟨.nil, fun f hf => absurd hf List.not_mem_nil⟩
  | cons f fs ih =>
    obtain ⟨rfl, -, -, hrest⟩ := h
    obtain ⟨hsorted, hinside⟩ := ih hrest
    have hwords := wordCount_cases f.type
    have hsize : wordSize (f :: fs) = f.type.wordCount + wordSize fs := by simp [wordSize]
    refine ⟨List.pairwise_cons.mpr ⟨fun x hx => ?_, hsorted⟩, fun f' hf' => ?_⟩
    · obtain ⟨f', hf', rfl⟩ := List.mem_map.mp hx
      have := (hinside f' hf').1
      omega
    · rcases List.mem_cons.mp hf' with rfl | hf'
      · omega
      · have := hinside f' hf'
        omega

theorem LaidOut.wellFormed {fields : List StructField} (h : LaidOut 0 fields) (typeId : ℕ) (name : String) (isVariant : Bool) :
    (describe typeId name fields isVariant).2.WellFormed := by
  obtain ⟨hsorted, hinside⟩ := h.offsets
  refine ⟨?_, fun off hoff => ?_⟩
  · exact ((hsorted.sublist (List.filter_sublist.map _)).imp fun h => h.ne)
  · obtain ⟨f, hf, rfl⟩ := List.mem_map.mp hoff
    exact (hinside f (List.mem_of_mem_filter hf)).2.trans_eq (Nat.zero_add _)

/-- More type ids than a header has room for are refused. -/
theorem generate_typeIds {checked : CheckedProgram} {g : Generated} (h : generate checked = .ok g) :
    g.program.structs.length ≤ MAX_TYPE_ID + 1 := by
  rw [generate_structs h, structTable, length_foldl_set, List.length_replicate]
  unfold generate at h
  split at h
  · cases h
  · split at h
    · cases h
    · dsimp only at h
      split at h
      · cases h
      · exact Nat.le_of_not_lt ‹_›

/-- The tables of a compiled program can be trusted, unless a template that declares a variant
twice is instantiated. -/
theorem tablesOk_compiled {fuel : ℕ} {program : Program} {g : Generated} (h : compile fuel program = .ok g)
    (hvariants : ∀ ed ∈ program.enums, ed.isGeneric = true → g.types.Instance ed → (ed.variants.map VariantDef.name).Nodup) :
    TablesOk g.program := by
  have hmaps := stackMapsOk_compiled h
  obtain ⟨checked, -, -, hchecked, -, -, htypes, -⟩ := compile_ok h
  have hg : generate checked = .ok g := by
    rw [compile, hchecked] at h
    dsimp only at h
    split at h
    · cases h
    · cases h
      assumption
  obtain ⟨s, hacc, hs, -, -⟩ := analyze_ok hchecked
  rw [htypes, hs] at hvariants
  have hdense := hacc.ok.types.dense (hacc.distinct_iff.mpr hvariants)
  rw [← hs, ← generate_structs hg] at hdense
  refine ⟨fun o ho => ?_, generate_typeIds hg, hmaps⟩
  obtain ⟨i, hi⟩ := List.mem_iff_getElem?.mp ho
  cases o with
  | none => exact absurd ho hdense.filled
  | some l =>
    refine ⟨l, rfl, ?_⟩
    rw [generate_structs hg] at hi
    have hl := mem_of_structTable hi
    rw [hs, described, hacc.ok.types.variants_eq (hacc.distinct_iff.mpr hvariants)] at hl
    rcases List.mem_append.mp hl with hl | hl
    · obtain ⟨info, hinfo, heq⟩ := List.mem_map.mp hl
      have hsame : (describe info.typeId info.name.spell info.fields false).2 = l := congrArg Prod.snd heq
      rw [← hsame]
      exact (hacc.ok.types.structFields info hinfo).wellFormed ..
    · obtain ⟨v, hv, heq⟩ := List.mem_map.mp hl
      obtain ⟨e, he, hv⟩ := List.mem_flatMap.mp hv
      have hsame : (describe v.typeId v.name v.fields true).2 = l := congrArg Prod.snd heq
      rw [← hsame]
      exact (hacc.ok.types.variantFields e he v hv).wellFormed ..

end Layouts

end QuinLang
