import QuinLang.Compiler.Programs

/-! Type ids and the struct table the collector reads them in. -/

namespace QuinLang

section Table

theorem foldl_max_le {xs : List ℕ} {a b : ℕ} : xs.foldl max a ≤ b ↔ a ≤ b ∧ ∀ x ∈ xs, x ≤ b := by
  induction xs generalizing a with
  | nil => simp
  | cons x xs ih =>
    rw [List.foldl_cons, ih, max_le_iff]
    simp only [List.mem_cons, forall_eq_or_imp, and_assoc]

/-- A slot of the table is the last layout written there. -/
theorem getElem?_foldl_set {ds : List (ℕ × StructLayout)} {table : List (Option StructLayout)} {i : ℕ}
    {l : StructLayout} (h : (ds.foldl (fun table d => table.set d.1 (some d.2)) table)[i]? = some (some l)) :
    (i, l) ∈ ds ∨ table[i]? = some (some l) := by
  induction ds generalizing table with
  | nil => exact Or.inr h
  | cons d ds ih =>
    rcases ih h with h | h
    · exact Or.inl (List.mem_cons_of_mem _ h)
    · by_cases hi : d.1 = i
      · subst hi
        rw [List.getElem?_set_self'] at h
        cases ht : table[d.1]? with
        | none => simp [ht] at h
        | some o =>
          simp only [ht, Option.map_eq_map, Option.map_some, Function.const_apply, Option.some.injEq] at h
          subst h
          exact Or.inl List.mem_cons_self
      · rw [List.getElem?_set_ne hi] at h
        exact Or.inr h

theorem length_foldl_set (ds : List (ℕ × StructLayout)) (table : List (Option StructLayout)) :
    (ds.foldl (fun table d => table.set d.1 (some d.2)) table).length = table.length := by
  induction ds generalizing table with
  | nil => rfl
  | cons d ds ih => rw [List.foldl_cons, ih, List.length_set]

/-- Layouts under distinct ids are all there. -/
theorem foldl_set_of_nodup {ds : List (ℕ × StructLayout)} {table : List (Option StructLayout)}
    (h : (ds.map Prod.fst).Nodup) (hl : ∀ d ∈ ds, d.1 < table.length) :
    (∀ d ∈ ds, (ds.foldl (fun table d => table.set d.1 (some d.2)) table)[d.1]? = some (some d.2)) ∧
      ∀ i ∉ ds.map Prod.fst, (ds.foldl (fun table d => table.set d.1 (some d.2)) table)[i]? = table[i]? := by
  induction ds generalizing table with
  | nil => exact ⟨by simp, fun _ _ => rfl⟩
  | cons d ds ih =>
    obtain ⟨hd, hnd⟩ := List.nodup_cons.mp h
    obtain ⟨hin, hout⟩ := @ih (table.set d.1 (some d.2)) hnd fun e he => by
      rw [List.length_set]
      exact hl e (List.mem_cons_of_mem _ he)
    refine ⟨fun e he => ?_, fun i hi => ?_⟩
    · rcases List.mem_cons.mp he with rfl | he
      · rw [List.foldl_cons, hout _ hd]
        exact List.getElem?_set_self (hl e List.mem_cons_self)
      · exact hin e he
    · simp only [List.map_cons, List.mem_cons, not_or] at hi
      rw [List.foldl_cons, hout i hi.2, List.getElem?_set_ne (Ne.symm hi.1)]

variable {ds : List (ℕ × StructLayout)}

theorem structTable_length_of_perm (h : (ds.map Prod.fst).Perm (List.range ds.length)) :
    (structTable ds).length = ds.length := by
  have hmem : ∀ i, i ∈ ds.map Prod.fst ↔ i < ds.length := fun i => by rw [h.mem_iff, List.mem_range]
  rw [structTable, length_foldl_set, List.length_replicate]
  apply Nat.le_antisymm
  · refine foldl_max_le.mpr ⟨Nat.zero_le _, fun x hx => ?_⟩
    obtain ⟨d, hd, rfl⟩ := List.mem_map.mp hx
    exact (hmem d.1).mp (List.mem_map_of_mem hd)
  · cases hn : ds.length with
    | zero => exact Nat.zero_le _
    | succ n =>
      obtain ⟨d, hd, hdn⟩ := List.mem_map.mp ((hmem n).mpr (by omega))
      have := (foldl_max_le.mp (le_refl ((ds.map fun d => d.1 + 1).foldl max 0))).2 _ (List.mem_map_of_mem hd)
      omega

/-- Dense distinct ids give every layout its own slot. -/
theorem structTable_of_perm (h : (ds.map Prod.fst).Perm (List.range ds.length)) :
    ∀ d ∈ ds, (structTable ds)[d.1]? = some (some d.2) := by
  have hlen := structTable_length_of_perm h
  refine (foldl_set_of_nodup (h.nodup_iff.mpr List.nodup_range) fun d hd => ?_).1
  rw [structTable, length_foldl_set] at hlen
  rw [hlen]
  exact List.mem_range.mp (h.subset (List.mem_map_of_mem hd))

/-- A filled slot was described. -/
theorem mem_of_structTable {i : ℕ} {l : StructLayout} (h : (structTable ds)[i]? = some (some l)) : (i, l) ∈ ds := by
  refine (getElem?_foldl_set h).resolve_right fun hr => ?_
  simp [List.getElem?_replicate] at hr

end Table

namespace TypeTable

variable {t : TypeTable}

/-- Ids are exactly `0..n-1`, and the table has the layout of every type at its id. -/
structure Dense (t : TypeTable) (table : List (Option StructLayout)) : Prop where
  ids : t.typeIds.Perm (List.range t.typeIds.length)
  length : table.length = t.typeIds.length
  filled : none ∉ table
  structs : ∀ i ∈ t.structs, table[i.typeId]? = some (some (describe i.typeId i.name.spell i.fields false).2)
  variants : ∀ v ∈ t.allVariants, table[v.typeId]? = some (some (describe v.typeId v.name v.fields true).2)

theorem dense_iff (t : TypeTable) (table : List (Option StructLayout)) : t.Dense table ↔
    t.typeIds.Perm (List.range t.typeIds.length) ∧ table.length = t.typeIds.length ∧ none ∉ table ∧
      (∀ i ∈ t.structs, table[i.typeId]? = some (some (describe i.typeId i.name.spell i.fields false).2)) ∧
      ∀ v ∈ t.allVariants, table[v.typeId]? = some (some (describe v.typeId v.name v.fields true).2) :=
  ⟨fun h => ⟨h.ids, h.length, h.filled, h.structs, h.variants⟩, fun h => ⟨h.1, h.2.1, h.2.2.1, h.2.2.2.1, h.2.2.2.2⟩⟩

instance (t : TypeTable) (table : List (Option StructLayout)) : Decidable (t.Dense table) :=
  decidable_of_iff' _ (t.dense_iff table)

theorem Ok.described_ids (h : t.Ok) (hd : t.DistinctVariants) : (described t).map Prod.fst = t.typeIds := by
  simp only [described, h.variants_eq hd, List.map_append, List.map_map]
  rfl

/-- With no variant declared twice the ids are dense. -/
theorem Ok.dense (h : t.Ok) (hd : t.DistinctVariants) : t.Dense (structTable (described t)) := by
  have hids := h.described_ids hd
  have hlen : (described t).length = t.typeIds.length := by rw [← hids, List.length_map]
  have hperm : ((described t).map Prod.fst).Perm (List.range (described t).length) := by
    rw [hids, hlen]
    exact h.typeIds hd
  have hget := structTable_of_perm hperm
  have hsize := structTable_length_of_perm hperm
  refine ⟨h.typeIds hd, hsize.trans hlen, fun hnone => ?_, fun i hi => ?_, fun v hv => ?_⟩
  · obtain ⟨i, hi⟩ := List.mem_iff_getElem?.mp hnone
    have hlt : i < (described t).length := hsize ▸ (List.getElem?_eq_some_iff.mp hi).1
    obtain ⟨d, hdm, rfl⟩ := List.mem_map.mp (hperm.mem_iff.mpr (List.mem_range.mpr hlt))
    rw [hget d hdm] at hi
    cases hi
  · exact hget _ (List.mem_append_left _ (List.mem_map_of_mem hi))
  · refine hget (v.typeId, _) (List.mem_append_right _ ?_)
    rw [h.variants_eq hd]
    exact List.mem_map_of_mem hv

/-- The flat table has room for every variant only where no two share a name. -/
theorem pairwise_of_length_foldl {vs table : List VariantInfo}
    (h : table.length + vs.length ≤ (vs.foldl insertVariant table).length) :
    (∀ v ∈ vs, ∀ w ∈ table, ¬ w.sameName v) ∧ vs.Pairwise fun v w => ¬ v.sameName w := by
  induction vs generalizing table with
  | nil => exact ⟨by simp, .nil⟩
  | cons v vs ih =>
    have hrest := length_foldl_insertVariant vs (insertVariant table v)
    simp only [List.foldl_cons, List.length_cons] at h
    by_cases hany : table.any fun w => w.enumName = v.enumName ∧ w.shortName = v.shortName
    · have hsame : (insertVariant table v).length = table.length := by
        unfold insertVariant
        rw [if_pos hany, List.length_map]
      omega
    · have hnew : insertVariant table v = table ++ [v] := by
        unfold insertVariant
        rw [if_neg hany]
      rw [hnew] at h
      obtain ⟨hold, hpair⟩ := @ih (table ++ [v]) (by simp only [List.length_append, List.length_singleton]; omega)
      refine ⟨fun u hu w hw => ?_, List.pairwise_cons.mpr ⟨fun w hw => ?_, hpair⟩⟩
      · rcases List.mem_cons.mp hu with rfl | hu
        · intro hs
          refine hany (List.any_eq_true.mpr ⟨w, hw, ?_⟩)
          simp [hs.1, hs.2]
        · exact hold u hu w (List.mem_append_left _ hw)
      · exact hold w hw v (List.mem_append_right _ List.mem_cons_self)

/-- A table with no hole leaves no variant out of the flat table. -/
theorem Dense.distinctVariants (h : t.Ok) (hd : t.Dense (structTable (described t))) : t.DistinctVariants := by
  have hsub : List.range t.typeIds.length ⊆ (described t).map Prod.fst := by
    intro i hi
    have hlt : i < (structTable (described t)).length := hd.length ▸ List.mem_range.mp hi
    cases hs : (structTable (described t))[i] with
    | none => exact absurd (hs ▸ List.getElem_mem hlt) hd.filled
    | some l => exact List.mem_map_of_mem (mem_of_structTable (by rw [List.getElem?_eq_getElem hlt, hs]))
  have hle := (List.nodup_range.subperm hsub).length_le
  have hroom : ([] : List VariantInfo).length + t.allVariants.length ≤ t.variants.length := by
    simp only [typeIds, described, List.length_range, List.length_map, List.length_append] at hle
    simp only [List.length_nil]
    omega
  have hpair := (pairwise_of_length_foldl hroom).2
  intro e he
  refine List.pairwise_map.mpr (((List.pairwise_flatMap.mp hpair).1 e he).imp_of_mem fun {v w} hv hw hne hs => ?_)
  exact hne ⟨by rw [h.owner e he v hv, h.owner e he w hw], hs.symm⟩

theorem Ok.dense_iff_distinct (h : t.Ok) : t.Dense (structTable (described t)) ↔ t.DistinctVariants :=
  ⟨fun hd => hd.distinctVariants h, h.dense⟩

/-- The program has a concrete type made of the template. -/
def Instance (t : TypeTable) (ed : EnumDef) : Prop := ∃ args, (t.enum? (.app ed.name args)).isSome

end TypeTable

/-- The struct table is made of the checked types alone. -/
theorem generate_structs {checked : CheckedProgram} {g : Generated} (h : generate checked = .ok g) :
    g.program.structs = structTable (described checked.types) := by
  unfold generate at h
  split at h
  · cases h
  · split at h
    · cases h
    · dsimp only at h
      split at h
      · cases h
      · cases h
        rfl

section Accepted

variable {program : Program} {s : SemaState}

/-- The one template of a generic enum's name is its declaration. -/
theorem Accepted.template (h : Accepted program s) {ed : EnumDef} (hed : ed ∈ program.enums)
    (hg : ed.isGeneric = true) : s.genericEnums.find? (fun d => d.name = ed.name) = some ed := by
  refine find?_eq_of_nodup h.names ?_
  rw [h.templates]
  exact List.mem_filter.mpr ⟨hed, hg⟩

/-- Only an instance of a template can have two variants of one name. -/
theorem Accepted.distinct_iff (h : Accepted program s) : s.types.DistinctVariants ↔
    ∀ ed ∈ program.enums, ed.isGeneric = true → s.types.Instance ed → (ed.variants.map VariantDef.name).Nodup := by
  refine ⟨fun hd ed hed hg hi => ?_, fun hd e he => ?_⟩
  · obtain ⟨args, hsome⟩ := hi
    obtain ⟨e, he⟩ := Option.isSome_iff_exists.mp hsome
    have hm := List.mem_of_find?_eq_some he
    obtain ⟨ed', hed', hes⟩ := (h.ok.sourced e hm).template ed.name args (TypeTable.enum?_name he)
    rw [h.template hed hg] at hed'
    cases hed'
    rw [← hes]
    exact hd e hm
  · by_cases happ : ∃ base args, e.name = .app base args
    · obtain ⟨base, args, hn⟩ := happ
      obtain ⟨ed, hfind, hes⟩ := (h.ok.sourced e he).template base args hn
      have hname : ed.name = base := by simpa using List.find?_some hfind
      have hmem := List.mem_of_find?_eq_some hfind
      rw [h.templates] at hmem
      obtain ⟨hed, hg⟩ := List.mem_filter.mp hmem
      rw [hes]
      refine hd ed hed hg ⟨args, ?_⟩
      have hsome : s.types.enum? e.name = some e := find?_eq_of_nodup h.ok.types.enumNames he
      rw [hname, ← hn, hsome]
      rfl
    · exact (h.ok.sourced e he).plain fun base args hn => happ ⟨base, args, hn⟩

end Accepted

/-- Type ids are dense and distinct, and the struct table has every type at its id,
unless a template that declares a variant twice is instantiated. -/
theorem typeIds_dense_iff {fuel : ℕ} {program : Program} {checked : CheckedProgram}
    (h : analyze fuel program = .ok checked) :
    (∀ g, generate checked = .ok g → g.program.structs = structTable (described checked.types)) ∧
      (checked.types.Dense (structTable (described checked.types)) ↔
        ∀ ed ∈ program.enums, ed.isGeneric = true → checked.types.Instance ed →
          (ed.variants.map VariantDef.name).Nodup) := by
  obtain ⟨s, hacc, htypes, -, -⟩ := analyze_ok h
  refine ⟨fun g => generate_structs, ?_⟩
  rw [htypes]
  exact hacc.ok.types.dense_iff_distinct.trans hacc.distinct_iff

/-- `struct Point { x: int, weight: float }` and `enum Opt<T> { None, Some(T) }`, used at
one type. -/
def optSource : Program where
  functions := [{
    name := "main", params := [], returnType := none,
    body := [.varDecl {} "e" (some (.app "Opt" [.named "Point"])) (some (.literal {} .null))] }]
  structs := [{ name := "Point", fields := [⟨"x", .named "int", {}⟩, ⟨"weight", .named "float", {}⟩] }]
  enums := [{ name := "Opt", variants := [{ name := "None" }, { name := "Some", payload := [.named "T"] }],
              typeParams := ["T"] }]

theorem optSource_dense : ∃ checked, analyze 4 optSource = .ok checked ∧
    checked.types.Dense (structTable (described checked.types)) := by
  have h : (analyze 4 optSource).toOption.isSome = true := by decide +kernel
  cases ha : analyze 4 optSource with
  | error e =>
    rw [ha] at h
    cases h
  | ok checked =>
    refine ⟨checked, rfl, (typeIds_dense_iff ha).2.mpr fun ed hed _ _ => ?_⟩
    rw [List.mem_singleton.mp hed]
    decide

/-- `enum Twice<T> { Same, Same }`, used at one type. -/
def twiceSource : Program where
  functions := [{
    name := "main", params := [], returnType := none,
    body := [.varDecl {} "e" (some (.app "Twice" [.named "int"])) (some (.literal {} .null))] }]
  enums := [{ name := "Twice", variants := [{ name := "Same" }, { name := "Same" }], typeParams := ["T"] }]

/-- A template's variants are not checked for names used twice: the slot of the first of
the two stays empty. -/
theorem twiceSource_not_dense : ∃ checked, analyze 4 twiceSource = .ok checked ∧
    ¬ checked.types.Dense (structTable (described checked.types)) := by
  have h : (analyze 4 twiceSource).toOption.map (fun checked => structTable (described checked.types)) =
      some [none, some (describe 1 "Twice<int>::Same" [] true).2] := by decide +kernel
  cases ha : analyze 4 twiceSource with
  | error e =>
    rw [ha] at h
    cases h
  | ok checked =>
    rw [ha] at h
    refine ⟨checked, rfl, fun hd => hd.filled ?_⟩
    have h : structTable (described checked.types) = _ := Option.some.inj h
    rw [h]
    exact List.mem_cons_self

end QuinLang
