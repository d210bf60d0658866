import QuinLang.Compiler.Resolver
import QuinLang.Lib.DepthFirst

/-! What include resolution comes to: the declarations of the files the entry reaches,
each file after those it includes, or an error that a file or a name accounts for. -/

namespace QuinLang

open DepthFirst Relation

section Merging

variable {Path : Type} {s : ImportResolver Path}

def structNames (structs : List StructDef) : List String := structs.map StructDef.name

def enumNames (enums : List EnumDef) : List String := enums.map EnumDef.name

def functionNames (functions : List Function) : List String := functions.map Function.name

/-- The tables of origins know the names merged so far, and no name twice. -/
structure SoundResolver (s : ImportResolver Path) : Prop where
  functionOrigin : ∀ n, (s.function_origins.lookup n).isSome = true ↔ n ∈ functionNames s.all_functions
  structOrigin : ∀ n, (s.struct_origins.lookup n).isSome = true ↔ n ∈ structNames s.all_structs
  enumOrigin : ∀ n, (s.enum_origins.lookup n).isSome = true ↔ n ∈ enumNames s.all_enums
  functions : (functionNames s.all_functions).Nodup
  types : (structNames s.all_structs ++ enumNames s.all_enums).Nodup

/-- Whether a name is known once another is. -/
theorem lookup_cons_isSome {origins : List (String × Path)} {names : List String} {a : String} {file : Path}
    (h : ∀ n, (origins.lookup n).isSome = true ↔ n ∈ names) (n : String) :
    ((List.lookup n ((a, file) :: origins)).isSome = true ↔ n ∈ names ++ [a]) := by
  rw [List.lookup_cons, List.mem_append, List.mem_singleton, ← h n]
  by_cases hn : n = a
  · simp [hn]
  · have hb : (n == a) = false := by simpa using hn
    simp [hb, hn]


theorem addStruct_spec (fs : FileSystem Path) (p : Path) (h : SoundResolver s) (sd : StructDef) :
    (∃ s', addStruct fs p s sd = .ok s' ∧ SoundResolver s' ∧
      s' = { s with all_structs := s.all_structs ++ [sd], struct_origins := s'.struct_origins }) ∨
    (∃ m, addStruct fs p s sd = .error (.error m)) ∧
      ¬ (structNames (s.all_structs ++ [sd]) ++ enumNames s.all_enums).Nodup := by
  have hclash (hn : sd.name ∈ structNames s.all_structs ∨ sd.name ∈ enumNames s.all_enums) :
      ¬ (structNames (s.all_structs ++ [sd]) ++ enumNames s.all_enums).Nodup := by
    intro hnodup
    rw [structNames, List.map_append, List.append_assoc] at hnodup
    obtain ⟨-, hright, hdisj⟩ := List.nodup_append'.mp hnodup
    rcases hn with hn | hn
    · exact hdisj hn List.mem_cons_self
    · exact (List.nodup_cons.mp hright).1 hn
  unfold addStruct
  cases hs : s.struct_origins.lookup sd.name with
  | some orig => exact .inr ⟨⟨_, rfl⟩, hclash (.inl ((h.structOrigin _).mp (by rw [hs]; rfl)))⟩
  | none =>
    cases he : s.enum_origins.lookup sd.name with
    | some orig => exact .inr ⟨⟨_, rfl⟩, hclash (.inr ((h.enumOrigin _).mp (by rw [he]; rfl)))⟩
    | none =>
      have hns : sd.name ∉ structNames s.all_structs := fun hn => by
        have := (h.structOrigin _).mpr hn
        rw [hs] at this
        cases this
      have hne : sd.name ∉ enumNames s.all_enums := fun hn => by
        have := (h.enumOrigin _).mpr hn
        rw [he] at this
        cases this
      refine .inl ⟨_, rfl, ⟨h.functionOrigin, fun n => ?_, h.enumOrigin, h.functions, ?_⟩, rfl⟩
      · rw [structNames, List.map_append]
        exact lookup_cons_isSome h.structOrigin n
      · have hperm : (structNames (s.all_structs ++ [sd]) ++ enumNames s.all_enums).Perm
            (sd.name :: (structNames s.all_structs ++ enumNames s.all_enums)) := by
          rw [structNames, List.map_append, List.append_assoc]
          exact List.perm_middle
        exact hperm.nodup_iff.mpr (List.nodup_cons.mpr ⟨by simp [hns, hne], h.types⟩)

theorem addEnum_spec (fs : FileSystem Path) (p : Path) (h : SoundResolver s) (ed : EnumDef) :
    (∃ s', addEnum fs p s ed = .ok s' ∧ SoundResolver s' ∧
      s' = { s with all_enums := s.all_enums ++ [ed], enum_origins := s'.enum_origins }) ∨
    (∃ m, addEnum fs p s ed = .error (.error m)) ∧
      ¬ (structNames s.all_structs ++ enumNames (s.all_enums ++ [ed])).Nodup := by
  have hnames : structNames s.all_structs ++ enumNames (s.all_enums ++ [ed]) =
      (structNames s.all_structs ++ enumNames s.all_enums) ++ [ed.name] := by
    rw [enumNames, List.map_append, ← List.append_assoc]
    rfl
  rw [hnames]
  have hclash (hn : ed.name ∈ structNames s.all_structs ++ enumNames s.all_enums) :
      ¬ ((structNames s.all_structs ++ enumNames s.all_enums) ++ [ed.name]).Nodup :=
    fun hnodup => (List.nodup_append'.mp hnodup).2.2 hn (List.mem_singleton_self _)
  unfold addEnum
  cases he : s.enum_origins.lookup ed.name with
  | some orig => exact .inr ⟨⟨_, rfl⟩, hclash (List.mem_append_right _ ((h.enumOrigin _).mp (by rw [he]; rfl)))⟩
  | none =>
    cases hs : s.struct_origins.lookup ed.name with
    | some orig => exact .inr ⟨⟨_, rfl⟩, hclash (List.mem_append_left _ ((h.structOrigin _).mp (by rw [hs]; rfl)))⟩
    | none =>
      refine .inl ⟨_, rfl, ⟨h.functionOrigin, h.structOrigin, fun n => ?_, h.functions, ?_⟩, rfl⟩
      · rw [enumNames, List.map_append]
        exact lookup_cons_isSome h.enumOrigin n
      · rw [hnames]
        refine List.nodup_append'.mpr ⟨h.types, List.nodup_singleton _, fun n hn hed => ?_⟩
        obtain rfl := List.mem_singleton.mp hed
        rcases List.mem_append.mp hn with hn | hn
        · have := (h.structOrigin _).mpr hn
          rw [hs] at this
          cases this
        · have := (h.enumOrigin _).mpr hn
          rw [he] at this
          cases this

/-- A function as it is merged, with the file it is from. -/
def FileSystem.stamped (fs : FileSystem Path) (p : Path) (fn : Function) : Function := { fn with sourceFile := fs.str p }

theorem addFunction_spec (fs : FileSystem Path) (p : Path) (h : SoundResolver s) (fn : Function) :
    (∃ s', addFunction fs p s fn = .ok s' ∧ SoundResolver s' ∧
      s' = { s with all_functions := s.all_functions ++ [fs.stamped p fn], function_origins := s'.function_origins }) ∨
    (∃ m, addFunction fs p s fn = .error (.error m)) ∧ ¬ (functionNames (s.all_functions ++ [fs.stamped p fn])).Nodup := by
  have hnames : functionNames (s.all_functions ++ [fs.stamped p fn]) = functionNames s.all_functions ++ [fn.name] := by
    rw [functionNames, List.map_append]
    rfl
  unfold addFunction
  cases hf : s.function_origins.lookup fn.name with
  | some orig =>
    refine .inr ⟨⟨_, rfl⟩, fun hnodup => ?_⟩
    rw [hnames] at hnodup
    exact (List.nodup_append'.mp hnodup).2.2 ((h.functionOrigin _).mp (by rw [hf]; rfl)) (List.mem_singleton_self _)
  | none =>
    refine .inl ⟨_, rfl, ⟨fun n => ?_, h.structOrigin, h.enumOrigin, ?_, h.types⟩, rfl⟩
    · exact hnames ▸ lookup_cons_isSome h.functionOrigin n
    · show (functionNames (s.all_functions ++ [fs.stamped p fn])).Nodup
      rw [hnames]
      refine List.nodup_append'.mpr ⟨h.functions, List.nodup_singleton _, fun n hn hfn => ?_⟩
      obtain rfl := List.mem_singleton.mp hfn
      have := (h.functionOrigin _).mpr hn
      rw [hf] at this
      cases this

end Merging

/-- A loop whose steps each grow the state or fail for a reason the rest of the loop cannot mend. -/
theorem foldlM_spec {S D : Type} {add : S → D → Except ResolveStop S} (Ok : S → Prop) (Grows : S → List D → S → Prop)
    (Bad : S → List D → Prop)
    (hstep : ∀ s d, Ok s → (∃ s', add s d = .ok s' ∧ Ok s' ∧ Grows s [d] s') ∨
      (∃ m, add s d = .error (.error m)) ∧ Bad s [d])
    (hnil : ∀ s, Grows s [] s) (hcons : ∀ s d s' ds s'', Grows s [d] s' → Grows s' ds s'' → Grows s (d :: ds) s'')
    (hnow : ∀ s d ds, Bad s [d] → Bad s (d :: ds)) (hlater : ∀ s d s' ds, Grows s [d] s' → Bad s' ds → Bad s (d :: ds))
    (ds : List D) {s : S} (h : Ok s) :
    (∃ s', ds.foldlM add s = .ok s' ∧ Ok s' ∧ Grows s ds s') ∨ (∃ m, ds.foldlM add s = .error (.error m)) ∧ Bad s ds := by
  induction ds generalizing s with
  | nil => exact .inl ⟨s, rfl, h, hnil s⟩
  | cons d ds ih =>
    rw [List.foldlM_cons]
    rcases hstep s d h with ⟨s', hs', hok, hgrows⟩ | ⟨⟨m, hm⟩, hbad⟩
    · rw [hs']
      rcases ih hok with ⟨s'', hs'', hok', hgrows'⟩ | ⟨⟨m, hm⟩, hbad⟩
      · exact .inl ⟨s'', hs'', hok', hcons s d s' ds s'' hgrows hgrows'⟩
      · exact .inr ⟨⟨m, hm⟩, hlater s d s' ds hgrows hbad⟩
    · rw [hm]
      exact .inr ⟨⟨m, rfl⟩, hnow s d ds hbad⟩

section Files

variable {Path : Type} {s : ImportResolver Path}

/-- The declarations of a file appended to those merged so far. -/
structure Appended (fs : FileSystem Path) (p : Path) (program : Program) (s s' : ImportResolver Path) : Prop where
  included : s'.included = s.included
  source_files : s'.source_files = s.source_files
  functions : s'.all_functions = s.all_functions ++ program.functions.map (fs.stamped p)
  structs : s'.all_structs = s.all_structs ++ program.structs
  enums : s'.all_enums = s.all_enums ++ program.enums

theorem addDeclarations_spec (fs : FileSystem Path) (p : Path) (h : SoundResolver s) (program : Program) :
    (∃ s', addDeclarations fs p program s = .ok s' ∧ SoundResolver s' ∧ Appended fs p program s s') ∨
    (∃ m, addDeclarations fs p program s = .error (.error m)) ∧
      (¬ (functionNames (s.all_functions ++ program.functions.map (fs.stamped p))).Nodup ∨
        ¬ (structNames (s.all_structs ++ program.structs) ++ enumNames (s.all_enums ++ program.enums)).Nodup) := by
  unfold addDeclarations
  rcases foldlM_spec SoundResolver
      (fun s ds s' => s' = { s with all_structs := s.all_structs ++ ds, struct_origins := s'.struct_origins })
      (fun s ds => ¬ (structNames (s.all_structs ++ ds) ++ enumNames s.all_enums).Nodup)
      (fun s d hs => addStruct_spec fs p hs d) (fun s => by rw [List.append_nil])
      (fun s d s' ds s'' h h' => by rw [h', h, List.append_assoc]; rfl)
      (fun s d ds hbad hnodup => hbad (hnodup.sublist (by simp [structNames])))
      (fun s d s' ds h hbad => by rw [h] at hbad; simpa using hbad) program.structs h with
    ⟨s₁, hs₁, hsound₁, hgrows₁⟩ | ⟨⟨m, hm⟩, hbad⟩
  swap
  · refine .inr ⟨⟨m, by rw [hm]; rfl⟩, .inr fun hnodup => hbad (hnodup.sublist ?_)⟩
    simp [structNames, enumNames]
  have hstructs₁ : s₁.all_structs = s.all_structs ++ program.structs := by rw [hgrows₁]
  have henums₁ : s₁.all_enums = s.all_enums := by rw [hgrows₁]
  rcases foldlM_spec SoundResolver
      (fun s ds s' => s' = { s with all_enums := s.all_enums ++ ds, enum_origins := s'.enum_origins })
      (fun s ds => ¬ (structNames s.all_structs ++ enumNames (s.all_enums ++ ds)).Nodup)
      (fun s d hs => addEnum_spec fs p hs d) (fun s => by rw [List.append_nil])
      (fun s d s' ds s'' h h' => by rw [h', h, List.append_assoc]; rfl)
      (fun s d ds hbad hnodup => hbad (hnodup.sublist (by simp [enumNames])))
      (fun s d s' ds h hbad => by rw [h] at hbad; simpa using hbad) program.enums hsound₁ with
    ⟨s₂, hs₂, hsound₂, hgrows₂⟩ | ⟨⟨m, hm⟩, hbad⟩
  swap
  · rw [hstructs₁, henums₁] at hbad
    refine .inr ⟨⟨m, ?_⟩, .inr hbad⟩
    rw [hs₁]
    show (program.enums.foldlM (addEnum fs p) s₁ >>= _) = _
    rw [hm]
    rfl
  rcases foldlM_spec SoundResolver
      (fun s ds s' => s' = { s with
        all_functions := s.all_functions ++ ds.map (fs.stamped p), function_origins := s'.function_origins })
      (fun s ds => ¬ (functionNames (s.all_functions ++ ds.map (fs.stamped p))).Nodup)
      (fun s d hs => addFunction_spec fs p hs d) (fun s => by rw [List.map_nil, List.append_nil])
      (fun s d s' ds s'' h h' => by rw [h', h, List.append_assoc]; rfl)
      (fun s d ds hbad hnodup => hbad (hnodup.sublist (by simp [functionNames])))
      (fun s d s' ds h hbad => by rw [h] at hbad; simpa using hbad) program.functions hsound₂ with
    ⟨s₃, hs₃, hsound₃, hgrows₃⟩ | ⟨⟨m, hm⟩, hbad⟩
  swap
  · have hfunctions₂ : s₂.all_functions = s.all_functions := by rw [hgrows₂, hgrows₁]
    rw [hfunctions₂] at hbad
    refine .inr ⟨⟨m, ?_⟩, .inl hbad⟩
    rw [hs₁]
    show (program.enums.foldlM (addEnum fs p) s₁ >>= _) = _
    rw [hs₂]
    exact hm
  refine .inl ⟨s₃, ?_, hsound₃, ?_⟩
  · rw [hs₁]
    show (program.enums.foldlM (addEnum fs p) s₁ >>= _) = _
    rw [hs₂]
    exact hs₃
  · constructor
    · rw [hgrows₃, hgrows₂, hgrows₁]
    · rw [hgrows₃, hgrows₂, hgrows₁]
    · rw [hgrows₃, hgrows₂, hgrows₁]
    · rw [hgrows₃, hgrows₂, hgrows₁]
    · rw [hgrows₃, hgrows₂, hgrows₁]

end Files

section Graph

variable {Path : Type} (fs : FileSystem Path)

/-- What is declared in the file at a path, nothing if it has not been parsed. -/
def FileSystem.programAt (p : Path) : Program :=
  match fs.read p with
  | .parsed file => file.program
  | _ => ⟨[], [], []⟩

def FileSystem.Parsed (p : Path) : Prop := ∃ file, fs.read p = .parsed file

/-- The file at `p` has a directive for the one at `q`. -/
def FileSystem.Includes (p q : Path) : Prop := ∃ file, fs.read p = .parsed file ∧ ∃ inc ∈ file.includes, fs.resolvePath inc p = q

/-- The files the entry includes, directly or not, and the entry. -/
def FileSystem.Reachable (entry p : Path) : Prop := ReflTransGen fs.Includes entry p

def FileSystem.functionsAt (p : Path) : List Function := (fs.programAt p).functions.map (fs.stamped p)

def FileSystem.structsAt (p : Path) : List StructDef := (fs.programAt p).structs

def FileSystem.enumsAt (p : Path) : List EnumDef := (fs.programAt p).enums

/-- The names of the structs and enums of a file, which share one name space. -/
def FileSystem.typeNamesAt (p : Path) : List String := structNames (fs.structsAt p) ++ enumNames (fs.enumsAt p)

def FileSystem.functionNamesAt (p : Path) : List String := functionNames (fs.functionsAt p)

/-- Two of the declarations of the files of `R` have one name. -/
def Clash (names : Path → List String) (R : Path → Prop) : Prop :=
  (∃ p, R p ∧ ¬ (names p).Nodup) ∨ ∃ p q a, R p ∧ R q ∧ p ≠ q ∧ a ∈ names p ∧ a ∈ names q

variable {fs}

theorem clash_of_flatMap {names : Path → List String} {R : Path → Prop} {files : List Path} (hfiles : files.Nodup)
    (hR : ∀ p ∈ files, R p) (h : ¬ (files.flatMap names).Nodup) : Clash names R := by
  by_contra hno
  refine h (List.nodup_flatMap.mpr ⟨fun p hp => ?_, hfiles.imp_of_mem fun {p q} hp hq hne a hap haq => ?_⟩)
  · by_contra hdup
    exact hno (.inl ⟨p, hR p hp, hdup⟩)
  · exact hno (.inr ⟨p, q, a, hR p hp, hR q hq, hne, hap, haq⟩)

theorem Clash.not_nodup {names : Path → List String} {R : Path → Prop} {files : List Path} (h : Clash names R)
    (hR : ∀ p, R p → p ∈ files) : ¬ (files.flatMap names).Nodup := by
  intro hnodup
  obtain ⟨heach, hpair⟩ := List.nodup_flatMap.mp hnodup
  rcases h with ⟨p, hp, hdup⟩ | ⟨p, q, a, hp, hq, hne, hap, haq⟩
  · exact hdup (heach p (hR p hp))
  · have : Std.Symm (Function.onFun List.Disjoint names) := ⟨fun _ _ h => h.symm⟩
    exact hpair.forall (hR p hp) (hR q hq) hne hap haq

/-- The state once the files of `done` are merged. -/
structure Merged (fs : FileSystem Path) (done : List Path) (s : ImportResolver Path) : Prop where
  nodup : done.Nodup
  sound : SoundResolver s
  functions : s.all_functions = done.flatMap fs.functionsAt
  structs : s.all_structs = done.flatMap fs.structsAt
  enums : s.all_enums = done.flatMap fs.enumsAt

theorem functionNames_flatMap (files : List Path) :
    functionNames (files.flatMap fs.functionsAt) = files.flatMap fs.functionNamesAt := List.map_flatMap

theorem typeNames_flatMap (files : List Path) :
    (structNames (files.flatMap fs.structsAt) ++ enumNames (files.flatMap fs.enumsAt)).Perm (files.flatMap fs.typeNamesAt) := by
  rw [structNames, List.map_flatMap, enumNames, List.map_flatMap]
  exact List.flatMap_append_perm files _ _

/-- Why resolution fails: a file of `R` cannot be parsed, or a name stands twice. -/
def Faulty (fs : FileSystem Path) (R : Path → Prop) : Prop :=
  (∃ p, R p ∧ ¬ fs.Parsed p) ∨ Clash fs.functionNamesAt R ∨ Clash fs.typeNamesAt R

theorem Faulty.mono {R R' : Path → Prop} (h : Faulty fs R) (hR : ∀ p, R p → R' p) : Faulty fs R' := by
  have hclash {names : Path → List String} (h : Clash names R) : Clash names R' := by
    rcases h with ⟨p, hp, hdup⟩ | ⟨p, q, a, hp, hq, h⟩
    · exact .inl ⟨p, hR p hp, hdup⟩
    · exact .inr ⟨p, q, a, hR p hp, hR q hq, h⟩
  rcases h with ⟨p, hp, h⟩ | h | h
  · exact .inl ⟨p, hR p hp, h⟩
  · exact .inr (.inl (hclash h))
  · exact .inr (.inr (hclash h))

theorem programAt_parsed {p : Path} {file : SourceFile} (h : fs.read p = .parsed file) : fs.programAt p = file.program := by
  rw [FileSystem.programAt, h]

end Graph

section Walks

variable {Path : Type} [DecidableEq Path] {fs : FileSystem Path}

/-- The paths of `U` not entered yet. -/
def unvisited (U : Finset Path) (s : ImportResolver Path) : ℕ := (U.filter (· ∉ s.included)).card

/-- The outcome of resolving what `roots` names, from `s`. -/
inductive Outcome (fs : FileSystem Path) (U : Finset Path) (fuel : ℕ) (entered done : List Path) (roots : Path → Prop)
    (s : ImportResolver Path) : Except ResolveStop (ImportResolver Path) → Prop
  | outOfFuel : fuel ≤ unvisited U s → Outcome fs U fuel entered done roots s (.error .outOfFuel)
  | error (m : String) : Faulty fs (fun q => q ∈ done ∨ ∃ p, roots p ∧ fs.Reachable p q) →
      Outcome fs U fuel entered done roots s (.error (.error m))
  | ok {s' : ImportResolver Path} {new : List Path} : Walk fs.Includes entered done roots new → Merged fs (done ++ new) s' →
      (∀ q, q ∈ s'.included ↔ q ∈ entered ∨ q ∈ done ++ new) → s'.source_files.Perm (s.source_files ++ new) →
      (∀ q ∈ new, fs.Parsed q) → Outcome fs U fuel entered done roots s (.ok s')

variable {U : Finset Path} {fuel : ℕ} {entered done : List Path}

/-- The includes of a file one after the other, given what resolving one of them comes to. -/
theorem includes_outcome (visit : Path → ImportResolver Path → Except ResolveStop (ImportResolver Path)) (target : String → Path)
    {incs : List String} {s : ImportResolver Path}
    (hvisit : ∀ inc ∈ incs, ∀ done s, Merged fs done s → (∀ q, q ∈ s.included ↔ q ∈ entered ∨ q ∈ done) →
      Outcome fs U fuel entered done (· = target inc) s (visit (target inc) s))
    (hm : Merged fs done s) (hin : ∀ q, q ∈ s.included ↔ q ∈ entered ∨ q ∈ done) :
    Outcome fs U fuel entered done (fun q => ∃ inc ∈ incs, target inc = q) s
      (incs.foldlM (fun s inc => visit (target inc) s) s) := by
  induction incs generalizing done s with
  | nil =>
    refine .ok (.mono .nil (by simp)) ((List.append_nil done).symm ▸ hm) (by simpa using hin) (by simp) (by simp)
  | cons inc incs ih =>
    rw [List.foldlM_cons]
    have hfirst := hvisit inc List.mem_cons_self done s hm hin
    generalize visit (target inc) s = r at hfirst
    cases hfirst with
    | outOfFuel h => exact .outOfFuel h
    | error m h =>
      refine .error m (h.mono fun q hq => ?_)
      rcases hq with hq | ⟨p, rfl, hq⟩
      · exact .inl hq
      · exact .inr ⟨_, ⟨inc, List.mem_cons_self, rfl⟩, hq⟩
    | @ok s' new hwalk hm' hin' hfiles hparsed =>
      have hrest := ih (fun inc hinc => hvisit inc (List.mem_cons_of_mem _ hinc)) hm' hin'
      show Outcome fs U fuel entered done _ s (incs.foldlM (fun s inc => visit (target inc) s) s')
      generalize incs.foldlM (fun s inc => visit (target inc) s) s' = r at hrest
      cases hrest with
      | outOfFuel h =>
        refine .outOfFuel (h.trans (Finset.card_le_card fun q hq => ?_))
        rw [Finset.mem_filter] at hq ⊢
        refine ⟨hq.1, fun hs => hq.2 ((hin' q).mpr ?_)⟩
        exact ((hin q).mp hs).imp_right (List.mem_append_left _)
      | error m h =>
        refine .error m (h.mono fun q hq => ?_)
        rcases hq with hq | ⟨p, ⟨inc', hinc', rfl⟩, hq⟩
        · rcases List.mem_append.mp hq with hq | hq
          · exact .inl hq
          · obtain ⟨p, rfl, hreach⟩ := hwalk.reach q hq
            exact .inr ⟨_, ⟨inc, List.mem_cons_self, rfl⟩, hreach⟩
        · exact .inr ⟨_, ⟨inc', List.mem_cons_of_mem _ hinc', rfl⟩, hq⟩
      | @ok s'' new' hwalk' hm'' hin'' hfiles' hparsed' =>
        refine .ok ((hwalk.append hwalk').mono fun q => ?_) (List.append_assoc done new new' ▸ hm'')
          (List.append_assoc done new new' ▸ hin'') ?_ fun q hq => (List.mem_append.mp hq).elim (hparsed q) (hparsed' q)
        · simp [eq_comm]
        · rw [← List.append_assoc]
          exact hfiles'.trans (hfiles.append_right new')

/-- One file: skipped, entered and merged after those it includes, or at fault. -/
theorem resolveFile_outcome (hU : ∀ p ∈ U, ∀ q, fs.Includes p q → q ∈ U) (fuel : ℕ) {p : Path} {s : ImportResolver Path}
    (hp : p ∈ U) (hm : Merged fs done s) (hin : ∀ q, q ∈ s.included ↔ q ∈ entered ∨ q ∈ done)
    (hpath : ∀ g ∈ entered, fs.Reachable g p) : Outcome fs U fuel entered done (· = p) s (resolveFile fs fuel p s) := by
  induction fuel generalizing entered done p s with
  | zero => exact .outOfFuel (Nat.zero_le _)
  | succ fuel ih =>
    unfold resolveFile
    by_cases hmet : p ∈ s.included
    · rw [if_pos hmet]
      exact .ok (.skip ((hin p).mp hmet)) ((List.append_nil done).symm ▸ hm) (by simpa using hin) (by simp) (by simp)
    rw [if_neg hmet]
    have hentered : p ∉ entered := fun h => hmet ((hin p).mpr (.inl h))
    have hdone : p ∉ done := fun h => hmet ((hin p).mpr (.inr h))
    have hunparsed (h : ¬ fs.Parsed p) : Faulty fs (fun q => q ∈ done ∨ ∃ r, r = p ∧ fs.Reachable r q) :=
      .inl ⟨p, .inr ⟨p, rfl, .refl⟩, h⟩
    cases hread : fs.read p with
    | missing | unreadable reason | notText | malformed pos message =>
      refine .error _ (hunparsed ?_)
      rintro ⟨file, hfile⟩
      rw [hread] at hfile
      cases hfile
    | parsed file =>
      dsimp only
      set s₁ : ImportResolver Path := { s with included := p :: s.included, source_files := s.source_files ++ [p] } with hs₁
      have hm₁ : Merged fs done s₁ := ⟨hm.nodup, ⟨hm.sound.functionOrigin, hm.sound.structOrigin, hm.sound.enumOrigin, hm.sound.functions,
        hm.sound.types⟩, hm.functions, hm.structs, hm.enums⟩
      have hin₁ : ∀ q, q ∈ s₁.included ↔ q ∈ p :: entered ∨ q ∈ done := by
        intro q
        rw [hs₁, List.mem_cons, List.mem_cons, hin q, or_assoc]
      have hedge : ∀ inc ∈ file.includes, fs.Includes p (fs.resolvePath inc p) := fun inc hinc => ⟨file, hread, inc, hinc, rfl⟩
      have hloop := includes_outcome (resolveFile fs fuel) (fun inc => fs.resolvePath inc p)
        (fun inc hinc done s hm hin => ih (hU p hp _ (hedge inc hinc)) hm hin fun g hg => by
          rcases List.mem_cons.mp hg with rfl | hg
          · exact .single (hedge inc hinc)
          · exact (hpath g hg).tail (hedge inc hinc)) hm₁ hin₁
      have hroots : ∀ q, fs.Includes p q ↔ ∃ inc ∈ file.includes, fs.resolvePath inc p = q := by
        intro q
        constructor
        · rintro ⟨file', hfile', h⟩
          rw [hread] at hfile'
          cases hfile'
          exact h
        · exact fun h => ⟨file, hread, h⟩
      generalize file.includes.foldlM (fun s inc => resolveFile fs fuel (fs.resolvePath inc p) s) s₁ = r at hloop
      cases hloop with
      | outOfFuel h =>
        refine .outOfFuel (lt_of_le_of_lt h (Finset.card_lt_card (Finset.ssubset_iff_of_subset ?_ |>.mpr ⟨p, ?_, ?_⟩)))
        · intro q hq
          rw [Finset.mem_filter] at hq ⊢
          exact ⟨hq.1, fun hs => hq.2 (List.mem_cons_of_mem _ hs)⟩
        · exact Finset.mem_filter.mpr ⟨hp, hmet⟩
        · simp [hs₁]
      | error m h =>
        refine .error m (h.mono fun q hq => ?_)
        rcases hq with hq | ⟨r, ⟨inc, hinc, rfl⟩, hq⟩
        · exact .inl hq
        · exact .inr ⟨p, rfl, .head (hedge inc hinc) hq⟩
      | @ok s' new hwalk hm' hin' hfiles hparsed =>
        have hfinish : Walk fs.Includes entered done (· = p) (new ++ [p]) := .finish hentered hdone hpath (hwalk.mono hroots)
        have hnodup : (done ++ (new ++ [p])).Nodup :=
          List.nodup_append'.mpr ⟨hm.nodup, hfinish.nodup, fun q hq hq' => (hfinish.fresh q hq').2 hq⟩
        have hprogram := programAt_parsed hread
        have hfunctions : (done ++ (new ++ [p])).flatMap fs.functionsAt =
            s'.all_functions ++ file.program.functions.map (fs.stamped p) := by
          rw [hm'.functions, ← List.append_assoc, List.flatMap_append, List.flatMap_singleton, FileSystem.functionsAt, hprogram]
        have hstructs : (done ++ (new ++ [p])).flatMap fs.structsAt = s'.all_structs ++ file.program.structs := by
          rw [hm'.structs, ← List.append_assoc, List.flatMap_append, List.flatMap_singleton, FileSystem.structsAt, hprogram]
        have henums : (done ++ (new ++ [p])).flatMap fs.enumsAt = s'.all_enums ++ file.program.enums := by
          rw [hm'.enums, ← List.append_assoc, List.flatMap_append, List.flatMap_singleton, FileSystem.enumsAt, hprogram]
        show Outcome fs U (fuel + 1) entered done (· = p) s (addDeclarations fs p file.program s')
        rcases addDeclarations_spec fs p hm'.sound file.program with ⟨s'', hs'', hsound, happ⟩ | ⟨⟨m, hm''⟩, hdup⟩
        · rw [hs'']
          refine .ok hfinish ⟨hnodup, hsound, ?_, ?_, ?_⟩ (fun q => ?_) ?_ fun q hq => ?_
          · rw [hfunctions, happ.functions]
          · rw [hstructs, happ.structs]
          · rw [henums, happ.enums]
          · rw [happ.included, hin' q]
            simp only [List.mem_cons, List.mem_append, List.not_mem_nil, or_false]
            tauto
          · rw [happ.source_files]
            refine hfiles.trans ?_
            rw [hs₁, List.append_assoc]
            exact (List.perm_append_comm).append_left _
          · rcases List.mem_append.mp hq with hq | hq
            · exact hparsed q hq
            · exact ⟨file, (List.mem_singleton.mp hq) ▸ hread⟩
        · rw [hm'']
          have hR : ∀ q ∈ done ++ (new ++ [p]), q ∈ done ∨ ∃ r, r = p ∧ fs.Reachable r q := by
            intro q hq
            rcases List.mem_append.mp hq with hq | hq
            · exact .inl hq
            · obtain ⟨r, hr, hreach⟩ := hfinish.reach q hq
              exact .inr ⟨r, hr, hreach⟩
          refine .error m (.inr (hdup.imp (fun hdup => ?_) fun hdup => ?_))
          · rw [← hfunctions, functionNames_flatMap] at hdup
            exact clash_of_flatMap hnodup hR hdup
          · rw [← hstructs, ← henums, (typeNames_flatMap _).nodup_iff] at hdup
            exact clash_of_flatMap hnodup hR hdup

/-- A program merged from what the entry reaches, the files in some order. -/
structure Resolved (fs : FileSystem Path) (entry : Path) (result : ResolvedProgram Path) (order : List Path) : Prop where
  once : order.Nodup
  files : ∀ p, p ∈ order ↔ fs.Reachable entry p
  source_files : result.source_files.Perm order
  functions : result.program.functions = order.flatMap fs.functionsAt
  structs : result.program.structs = order.flatMap fs.structsAt
  enums : result.program.enums = order.flatMap fs.enumsAt
  /-- what a file includes comes before it, unless it includes the file in turn -/
  dependencies : ∀ l₁ p l₂, order = l₁ ++ p :: l₂ → ∀ q, fs.Includes p q → q ∈ l₁ ∨ fs.Reachable q p

/-- Over finitely many paths resolution ends: with the program, or with an error that
there is a reason for among the files reached. -/
theorem resolve_correct {entry : Path} (hU : ∀ p ∈ U, ∀ q, fs.Includes p q → q ∈ U) (hentry : entry ∈ U) (hfuel : U.card < fuel) :
    (∃ result order, resolve fs fuel entry = .ok result ∧ Resolved fs entry result order ∧ ¬ Faulty fs (fs.Reachable entry)) ∨
    ∃ m, resolve fs fuel entry = .error (.error m) ∧ Faulty fs (fs.Reachable entry) := by
  have hempty : Merged fs [] {} := ⟨List.nodup_nil, ⟨by simp [functionNames], by simp [structNames], by simp [enumNames],
    List.nodup_nil, List.nodup_nil⟩, rfl, rfl, rfl⟩
  have houtcome : Outcome fs U fuel [] [] (· = entry) {} (resolveFile fs fuel entry {}) :=
    resolveFile_outcome hU fuel hentry hempty (by simp) (by simp)
  unfold resolve
  generalize resolveFile fs fuel entry {} = r at houtcome
  cases houtcome with
  | outOfFuel h => exact absurd (h.trans (Finset.card_filter_le _ _)) (Nat.not_le.mpr hfuel)
  | error m h =>
    refine .inr ⟨m, rfl, h.mono fun q hq => ?_⟩
    rcases hq with hq | ⟨p, rfl, hq⟩
    · cases hq
    · exact hq
  | @ok s' order hwalk hm hin hfiles hparsed =>
    have hmem : ∀ q, q ∈ order ↔ fs.Reachable entry q := hwalk.mem_iff
    refine .inl ⟨_, order, rfl, ⟨hwalk.nodup, hmem, hfiles, hm.functions, hm.structs, hm.enums, fun l₁ p l₂ hl q hq => ?_⟩, ?_⟩
    · rcases hwalk.order l₁ p l₂ hl q hq with h | h | h
      · cases h
      · exact .inl h
      · exact .inr h
    · have hfunctions := hm.sound.functions
      have htypes := hm.sound.types
      rw [hm.functions, functionNames_flatMap] at hfunctions
      rw [hm.structs, hm.enums, (typeNames_flatMap _).nodup_iff] at htypes
      rintro (⟨p, hp, hunparsed⟩ | hclash | hclash)
      · exact hunparsed (hparsed p ((hmem p).mpr hp))
      · exact hclash.not_nodup (fun p hp => (hmem p).mpr hp) hfunctions
      · exact hclash.not_nodup (fun p hp => (hmem p).mpr hp) htypes

/-- Two files that include each other, of a standard library of none. -/
def twoFiles : FileSystem ℕ where
  read
    | 0 => .parsed ⟨["lib.ql"], ⟨[⟨"main", [], none, [], [], "", {}⟩], [], []⟩⟩
    | 1 => .parsed ⟨["main.ql", "lib.ql"], ⟨[⟨"helper", [], none, [], [], "", {}⟩], [], []⟩⟩
    | _ => .missing
  parent _ := 2
  resolve _ path := if path = "lib.ql" then 1 else 0
  str := toString
  std_path := 3

/-- Each comes after what it includes, as far as the cycle allows. -/
theorem twoFiles_resolve : ∃ result order, resolve twoFiles 3 0 = .ok result ∧
    result.program.functions.map Function.name = ["helper", "main"] ∧ Resolved twoFiles 0 result order ∧
    ¬ Faulty twoFiles (twoFiles.Reachable 0) := by
  have hcloses : ∀ p ∈ ({0, 1} : Finset ℕ), ∀ q, twoFiles.Includes p q → q ∈ ({0, 1} : Finset ℕ) := by
    rintro p - q ⟨file, -, inc, -, rfl⟩
    have hresolve (base : ℕ) (path : String) : twoFiles.resolve base path ∈ ({0, 1} : Finset ℕ) := by
      by_cases h : path = "lib.ql" <;> simp [twoFiles, h]
    unfold FileSystem.resolvePath
    split
    · exact hresolve _ _
    · exact hresolve _ _
  have hnames : (resolve twoFiles 3 0).toOption.map (fun r => r.program.functions.map Function.name) = some ["helper", "main"] := by
    decide +kernel
  rcases resolve_correct hcloses (show 0 ∈ _ by simp) (show _ < 3 by simp) with ⟨result, order, hok, hres, hsound⟩ | ⟨m, herr, -⟩
  · rw [hok] at hnames
    exact ⟨result, order, hok, Option.some.inj hnames, hres, hsound⟩
  · rw [herr] at hnames
    cases hnames

end Walks

end QuinLang
