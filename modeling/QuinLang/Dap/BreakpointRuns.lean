import QuinLang.Dap.Breakpoints
import QuinLang.Debugger.Placing

/-! After any requests the debugger has the breakpoints that were last asked for, and the
session knows which of the client's each of them is. -/

namespace QuinLang.Dap

open Debugger (Breakpoint)
open Dict

section Placing

variable {P : CompiledProgram} {sep : Char}

theorem breakAtLine_cases (P : CompiledProgram) (sep : Char) (line : ℕ) (file : String) :
    (∃ e, ∀ d : Debugger.State, d.breakAtLine P sep line file = (.error e, d)) ∨
    ∃ pc index line', ∀ d : Debugger.State,
      d.breakAtLine P sep line file = (.ok (d.add P pc index line').1, (d.add P pc index line').2) := by
  unfold Debugger.State.breakAtLine
  dsimp only
  generalize Debugger.functionsInFile P sep _ = indices
  split
  · exact .inl ⟨_, fun d => rfl⟩
  · split
    · exact .inl ⟨_, fun d => rfl⟩
    · exact .inr ⟨_, _, _, fun d => rfl⟩

theorem breakAtFunction_cases (P : CompiledProgram) (name : String) :
    (∃ e, ∀ d : Debugger.State, d.breakAtFunction P name = (.error e, d)) ∨
    ∃ pc index line, ∀ d : Debugger.State,
      d.breakAtFunction P name = (.ok (d.add P pc index line).1, (d.add P pc index line).2) := by
  unfold Debugger.State.breakAtFunction
  split
  · exact .inl ⟨_, fun d => rfl⟩
  · exact .inr ⟨_, _, _, fun d => rfl⟩

/-- Where a breakpoint resolves to in the program, whatever others there are. -/
def ClientBreakpoint.resolution (P : CompiledProgram) (sep : Char) (r : ClientBreakpoint) : Option ℕ :=
  match (r.place P sep {}).1 with
  | .ok bp => some bp.pc
  | .error _ => none

theorem place_cases (P : CompiledProgram) (sep : Char) (r : ClientBreakpoint) :
    (r.resolution P sep = none ∧ ∃ e, ∀ d, r.place P sep d = (.error e, d)) ∨
    ∃ pc index line, r.resolution P sep = some pc ∧
      ∀ d, r.place P sep d = (.ok (d.add P pc index line).1, (d.add P pc index line).2) := by
  have hcases : (∃ e, ∀ d, r.place P sep d = (.error e, d)) ∨
      ∃ pc index line, ∀ d, r.place P sep d = (.ok (d.add P pc index line).1, (d.add P pc index line).2) := by
    unfold ClientBreakpoint.place
    cases r.function with
    | some name => exact breakAtFunction_cases P name
    | none => exact breakAtLine_cases P sep r.line r.path
  unfold ClientBreakpoint.resolution
  rcases hcases with ⟨e, he⟩ | ⟨pc, index, line, hadd⟩
  · exact .inl ⟨by rw [he], e, he⟩
  · exact .inr ⟨pc, index, line, by rw [hadd]; exact congrArg some (Debugger.add_pc ..), hadd⟩

/-- A number, and the function or else the line of a file that has it. -/
abbrev Numbered := ℕ × Option String × String × ℕ

/-- What the client asked for, which resolving never changes. -/
def ClientBreakpoint.request (r : ClientBreakpoint) : Numbered := (r.id, r.function, r.path, r.line)

theorem resolution_congr {r r' : ClientBreakpoint} (h : r'.request = r.request) : r'.resolution P sep = r.resolution P sep := by
  simp only [ClientBreakpoint.request, Prod.mk.injEq] at h
  obtain ⟨-, hfunction, hpath, hline⟩ := h
  unfold ClientBreakpoint.resolution ClientBreakpoint.place
  rw [hfunction, hpath, hline]

end Placing

section Tables

variable {P : CompiledProgram} {sep : Char} {d : Debugger.State} {hits : List (ℕ × List ℕ)} {done : List ClientBreakpoint}

/-- The ids of the records that resolve to a pc. -/
def idsAt (P : CompiledProgram) (sep : Char) (records : List ClientBreakpoint) (pc : ℕ) : List ℕ :=
  (records.filter fun r => r.resolution P sep = some pc).map ClientBreakpoint.id

/-- The debugger's table and the map of ids, once these records are resolved. -/
structure Table (P : CompiledProgram) (sep : Char) (d : Debugger.State) (hits : List (ℕ × List ℕ)) (done : List ClientBreakpoint) :
    Prop where
  pcs : ∀ pc, (∃ bp ∈ d.breakpoints, bp.pc = pc) ↔ ∃ r ∈ done, r.resolution P sep = some pc
  old : ∀ bp ∈ d.breakpoints, bp.id < d.nextId
  distinct : ∀ bp ∈ d.breakpoints, ∀ bp' ∈ d.breakpoints, (bp.id = bp'.id ↔ bp.pc = bp'.pc)
  enabled : ∀ bp ∈ d.breakpoints, bp.enabled = true
  told : ∀ bp ∈ d.breakpoints, (hits.lookup bp.id).getD [] = idsAt P sep done bp.pc
  fresh : ∀ id, d.nextId ≤ id → hits.lookup id = none

theorem idsAt_concat (r : ClientBreakpoint) (pc : ℕ) :
    idsAt P sep (done ++ [r]) pc = if r.resolution P sep = some pc then idsAt P sep done pc ++ [r.id] else idsAt P sep done pc := by
  unfold idsAt
  rw [List.filter_append, List.map_append]
  split_ifs with h
  · rw [List.filter_singleton, decide_eq_true h]
    rfl
  · rw [List.filter_singleton, decide_eq_false h]
    exact List.append_nil _

theorem idsAt_congr {records records' : List ClientBreakpoint}
    (h : records'.map ClientBreakpoint.request = records.map ClientBreakpoint.request) (pc : ℕ) :
    idsAt P sep records' pc = idsAt P sep records pc := by
  induction records' generalizing records with
  | nil =>
    obtain rfl : records = [] := List.map_eq_nil_iff.mp h.symm
    rfl
  | cons r' rs' ih =>
    cases records with
    | nil => cases h
    | cons r rs =>
      simp only [List.map_cons, List.cons.injEq] at h
      have hid : r'.id = r.id := congrArg Prod.fst h.1
      have hrest := ih h.2
      unfold idsAt at hrest ⊢
      rw [List.filter_cons, List.filter_cons, resolution_congr h.1]
      split
      · rw [List.map_cons, List.map_cons, hid, hrest]
      · exact hrest

/-- No record, no breakpoint. -/
theorem Table.none (P : CompiledProgram) (sep : Char) (d : Debugger.State) : Table P sep d.clearBreakpoints [] [] where
  pcs := by simp [Debugger.State.clearBreakpoints]
  old := by simp [Debugger.State.clearBreakpoints]
  distinct := by simp [Debugger.State.clearBreakpoints]
  enabled := by simp [Debugger.State.clearBreakpoints]
  told := by simp [Debugger.State.clearBreakpoints]
  fresh := by simp

/-- A record that resolves to a breakpoint that is there. -/
theorem Table.shared (h : Table P sep d hits done) {bp : Breakpoint} (hbp : bp ∈ d.breakpoints) {r : ClientBreakpoint}
    (hr : r.resolution P sep = some bp.pc) :
    Table P sep d (assign hits bp.id ((hits.lookup bp.id).getD [] ++ [r.id])) (done ++ [r]) where
  pcs pc := by
    rw [h.pcs]
    simp only [List.mem_append, List.mem_singleton, or_and_right, exists_or, exists_eq_left, hr, Option.some_inj]
    refine (or_iff_left_of_imp ?_).symm
    rintro rfl
    exact (h.pcs bp.pc).mp ⟨bp, hbp, rfl⟩
  old := h.old
  distinct := h.distinct
  enabled := h.enabled
  told bp' hbp' := by
    rw [lookup_assign, idsAt_concat, hr]
    by_cases hid : bp'.id = bp.id
    · rw [if_pos hid, if_pos (congrArg some ((h.distinct bp' hbp' bp hbp).mp hid).symm), Option.getD_some, h.told bp hbp,
        (h.distinct bp' hbp' bp hbp).mp hid]
    · rw [if_neg hid, if_neg fun hpc => hid ((h.distinct bp' hbp' bp hbp).mpr (Option.some.inj hpc).symm), h.told bp' hbp']
  fresh id hid := by
    have hold := h.old bp hbp
    rw [lookup_assign, if_neg (by omega)]
    exact h.fresh id hid

/-- A record that resolves to a pc without a breakpoint. -/
theorem Table.added (h : Table P sep d hits done) {bp : Breakpoint} (hid : bp.id = d.nextId) (henabled : bp.enabled = true)
    (hnew : ∀ bp' ∈ d.breakpoints, bp'.pc ≠ bp.pc) {r : ClientBreakpoint} (hr : r.resolution P sep = some bp.pc) :
    Table P sep { d with breakpoints := d.breakpoints ++ [bp], nextId := d.nextId + 1 }
      (assign hits bp.id ((hits.lookup bp.id).getD [] ++ [r.id])) (done ++ [r]) where
  pcs pc := by
    simp only [List.mem_append, List.mem_singleton, or_and_right, exists_or, exists_eq_left, hr, Option.some_inj, h.pcs]
  old bp' hbp' := by
    rcases List.mem_append.mp hbp' with hbp' | hbp'
    · exact Nat.lt_succ_of_lt (h.old bp' hbp')
    · rw [List.mem_singleton.mp hbp', hid]
      exact Nat.lt_succ_self _
  distinct bp₁ h₁ bp₂ h₂ := by
    have hold {bp' : Breakpoint} (hbp' : bp' ∈ d.breakpoints) : bp'.id ≠ bp.id := fun heq => by
      have := h.old bp' hbp'
      omega
    rcases List.mem_append.mp h₁ with h₁ | h₁ <;> rcases List.mem_append.mp h₂ with h₂ | h₂
    · exact h.distinct bp₁ h₁ bp₂ h₂
    · rw [List.mem_singleton.mp h₂]
      exact iff_of_false (hold h₁) (hnew bp₁ h₁)
    · rw [List.mem_singleton.mp h₁]
      exact iff_of_false (hold h₂).symm (hnew bp₂ h₂).symm
    · rw [List.mem_singleton.mp h₁, List.mem_singleton.mp h₂]
      exact iff_of_true rfl rfl
  enabled bp' hbp' := by
    rcases List.mem_append.mp hbp' with hbp' | hbp'
    · exact h.enabled bp' hbp'
    · rw [List.mem_singleton.mp hbp', henabled]
  told bp' hbp' := by
    rw [lookup_assign, idsAt_concat, hr]
    rcases List.mem_append.mp hbp' with hbp' | hbp'
    · have hold := h.old bp' hbp'
      rw [if_neg (by omega), if_neg fun hpc => hnew bp' hbp' (Option.some.inj hpc).symm, h.told bp' hbp']
    · have hnone : idsAt P sep done bp.pc = [] := by
        rw [idsAt, List.map_eq_nil_iff, List.filter_eq_nil_iff]
        intro r' hr' hpc
        obtain ⟨bp', hbp', heq⟩ := (h.pcs bp.pc).mpr ⟨r', hr', of_decide_eq_true hpc⟩
        exact hnew bp' hbp' heq
      rw [List.mem_singleton.mp hbp', if_pos rfl, if_pos rfl, h.fresh bp.id hid.ge, hnone]
      rfl
  fresh id hle := by
    have hlt : d.nextId < id := hle
    rw [lookup_assign, if_neg (by omega)]
    exact h.fresh id hlt.le

/-- One record more. -/
theorem Table.turn (h : Table P sep d hits done) (r : ClientBreakpoint) :
    (resolveTurn P sep (d, hits) r).1.request = r.request ∧
    Table P sep (resolveTurn P sep (d, hits) r).2.1 (resolveTurn P sep (d, hits) r).2.2 (done ++ [r]) := by
  unfold resolveTurn ClientBreakpoint.resolve
  rcases place_cases P sep r with ⟨hnone, e, he⟩ | ⟨pc, index, line, hpc, hadd⟩
  · rw [he]
    refine ⟨rfl, ?_, h.old, h.distinct, h.enabled, ?_, h.fresh⟩
    · intro pc
      rw [h.pcs]
      simp [hnone]
    · intro bp hbp
      rw [idsAt_concat, if_neg (by simp [hnone]), h.told bp hbp]
  · rw [hadd]
    refine ⟨rfl, ?_⟩
    dsimp only
    unfold Debugger.State.add
    cases hfind : d.breakpoints.find? fun bp => bp.pc = pc with
    | some bp =>
      have hbp := List.find?_some hfind
      obtain rfl : bp.pc = pc := of_decide_eq_true hbp
      exact h.shared (List.mem_of_find?_eq_some hfind) hpc
    | none =>
      refine h.added rfl rfl (fun bp' hbp' heq => ?_) hpc
      have hno := List.find?_eq_none.mp hfind bp' hbp'
      exact hno (decide_eq_true heq)

/-- So with every record of a list, -/
theorem Table.records (h : Table P sep d hits done) (rs : List ClientBreakpoint) :
    (resolveRecords P sep (d, hits) rs).1.map ClientBreakpoint.request = rs.map ClientBreakpoint.request ∧
    Table P sep (resolveRecords P sep (d, hits) rs).2.1 (resolveRecords P sep (d, hits) rs).2.2 (done ++ rs) := by
  induction rs generalizing d hits done with
  | nil => exact ⟨rfl, by rw [List.append_nil]; exact h⟩
  | cons r rs ih =>
    obtain ⟨hrequest, hturn⟩ := h.turn r
    obtain ⟨hrequests, hrest⟩ := ih hturn
    rw [List.append_assoc] at hrest
    exact ⟨congrArg₂ List.cons hrequest hrequests, hrest⟩

/-- and of every file. -/
theorem Table.files (h : Table P sep d hits done) (files : List (String × List ClientBreakpoint)) :
    (resolveFiles P sep (d, hits) files).1.map (fun e => (e.1, e.2.map ClientBreakpoint.request)) =
      files.map (fun e => (e.1, e.2.map ClientBreakpoint.request)) ∧
    Table P sep (resolveFiles P sep (d, hits) files).2.1 (resolveFiles P sep (d, hits) files).2.2 (done ++ files.flatMap Prod.snd) := by
  induction files generalizing d hits done with
  | nil => exact ⟨rfl, by rw [List.flatMap_nil, List.append_nil]; exact h⟩
  | cons e files ih =>
    obtain ⟨hrequest, hfile⟩ := h.records e.2
    obtain ⟨hrequests, hrest⟩ := ih hfile
    rw [List.append_assoc] at hrest
    exact ⟨congrArg₂ List.cons (congrArg (Prod.mk e.1) hrequest) hrequests, hrest⟩

theorem mem_idsAt {records : List ClientBreakpoint} {pc id : ℕ} :
    id ∈ idsAt P sep records pc ↔ ∃ r ∈ records, r.resolution P sep = some pc ∧ r.id = id := by
  simp [idsAt, and_assoc]

/-- Only what was asked for counts, -/
theorem Table.congr (h : Table P sep d hits done) {records : List ClientBreakpoint}
    (heq : records.map ClientBreakpoint.request = done.map ClientBreakpoint.request) : Table P sep d hits records := by
  have hids (pc : ℕ) : idsAt P sep records pc = idsAt P sep done pc := idsAt_congr heq pc
  refine ⟨fun pc => ?_, h.old, h.distinct, h.enabled, fun bp hbp => ?_, h.fresh⟩
  · rw [h.pcs]
    constructor
    · rintro ⟨r, hr, hpc⟩
      have hmem : r.id ∈ idsAt P sep done pc := mem_idsAt.mpr ⟨r, hr, hpc, rfl⟩
      rw [← hids] at hmem
      obtain ⟨r', hr', hpc', -⟩ := mem_idsAt.mp hmem
      exact ⟨r', hr', hpc'⟩
    · rintro ⟨r, hr, hpc⟩
      have hmem : r.id ∈ idsAt P sep records pc := mem_idsAt.mpr ⟨r, hr, hpc, rfl⟩
      rw [hids] at hmem
      obtain ⟨r', hr', hpc', -⟩ := mem_idsAt.mp hmem
      exact ⟨r', hr', hpc'⟩
  · rw [h.told bp hbp, hids]

/-- and of the debugger's breakpoints what a hit leaves alone. -/
theorem Table.kept (h : Table P sep d hits done) {d' : Debugger.State} {f : Breakpoint → Breakpoint}
    (hkeep : ∀ bp, (f bp).id = bp.id ∧ (f bp).pc = bp.pc ∧ (f bp).enabled = bp.enabled)
    (hbps : d'.breakpoints = d.breakpoints.map f) (hnext : d'.nextId = d.nextId) : Table P sep d' hits done := by
  have hof {bp' : Breakpoint} (hbp' : bp' ∈ d'.breakpoints) : ∃ bp ∈ d.breakpoints, f bp = bp' := by
    rw [hbps] at hbp'
    exact List.mem_map.mp hbp'
  refine ⟨fun pc => ?_, ?_, ?_, ?_, ?_, hnext ▸ h.fresh⟩
  · rw [← h.pcs]
    constructor
    · rintro ⟨bp', hbp', hpc⟩
      obtain ⟨bp, hbp, rfl⟩ := hof hbp'
      exact ⟨bp, hbp, (hkeep bp).2.1.symm.trans hpc⟩
    · rintro ⟨bp, hbp, hpc⟩
      exact ⟨f bp, hbps ▸ List.mem_map_of_mem hbp, (hkeep bp).2.1.trans hpc⟩
  · intro bp' hbp'
    obtain ⟨bp, hbp, rfl⟩ := hof hbp'
    rw [(hkeep bp).1, hnext]
    exact h.old bp hbp
  · intro bp₁' h₁' bp₂' h₂'
    obtain ⟨bp₁, h₁, rfl⟩ := hof h₁'
    obtain ⟨bp₂, h₂, rfl⟩ := hof h₂'
    rw [(hkeep bp₁).1, (hkeep bp₂).1, (hkeep bp₁).2.1, (hkeep bp₂).2.1]
    exact h.distinct bp₁ h₁ bp₂ h₂
  · intro bp' hbp'
    obtain ⟨bp, hbp, rfl⟩ := hof hbp'
    exact (hkeep bp).2.2.trans (h.enabled bp hbp)
  · intro bp' hbp'
    obtain ⟨bp, hbp, rfl⟩ := hof hbp'
    rw [(hkeep bp).1, (hkeep bp).2.1]
    exact h.told bp hbp

theorem Table.update (h : Table P sep d hits done) (id : ℕ) (mode : Option Debugger.Mode) :
    Table P sep { d.update id fun bp => { bp with hits := bp.hits + 1 } with mode := mode } hits done := by
  refine h.kept (fun bp => ?_) rfl rfl
  split
  · exact ⟨rfl, rfl, rfl⟩
  · exact ⟨rfl, rfl, rfl⟩

end Tables

section Asking

/-- What the client last asked for: names with their numbers, each file's lines with
theirs, and the program it launched. -/
structure Asked where
  functions : List (ℕ × String) := []
  lines : String → List (ℕ × ℕ) := fun _ => []
  next : ℕ := 1
  program : Option CompiledProgram := none

def numbered {α : Type} (next : ℕ) (xs : List α) : List (ℕ × α) := xs.mapIdx fun i x => (next + i, x)

variable {W : Type} (resolved : String → String)

/-- A request replaces its own part. -/
def Asked.after (a : Asked) : BreakpointStep W → Asked
  | .request (.setBreakpoints clientPath lines) =>
    if clientPath = "" then a
    else { a with
      lines := Function.update a.lines (resolved clientPath) (numbered a.next lines)
      next := a.next + lines.length }
  | .request (.setFunctionBreakpoints names) =>
    { a with functions := numbered a.next names, next := a.next + names.length }
  | .request (.launch _ P) => { a with program := some P }
  | .hook _ _ => a
  | .resume _ _ => a

/-- The breakpoint with this number is one of them, and resolves to this pc. -/
inductive Asked.At (a : Asked) (P : CompiledProgram) (sep : Char) (id pc : ℕ) : Prop
  | function (name : String) (hmem : (id, name) ∈ a.functions) (bp : Breakpoint)
      (hbp : (({} : Debugger.State).breakAtFunction P name).1 = .ok bp) (hpc : bp.pc = pc)
  | line (path : String) (line : ℕ) (hmem : (id, line) ∈ a.lines path) (bp : Breakpoint)
      (hbp : (({} : Debugger.State).breakAtLine P sep line path).1 = .ok bp) (hpc : bp.pc = pc)

end Asking

section Following

variable {sep : Char} {s : Breakpoints} {a : Asked}

def Breakpoints.functions (s : Breakpoints) : List Numbered := s.functionBreakpoints.map ClientBreakpoint.request

def Breakpoints.files (s : Breakpoints) : List (String × List Numbered) :=
  s.sourceBreakpoints.map fun e => (e.1, e.2.map ClientBreakpoint.request)

theorem requests_records (s : Breakpoints) :
    s.records.map ClientBreakpoint.request = s.functions ++ s.files.flatMap Prod.snd := by
  simp only [Breakpoints.records, Breakpoints.functions, Breakpoints.files, List.map_append, List.map_flatMap, List.flatMap_map]

/-- The session has on record what the client last asked for. -/
structure Follows (s : Breakpoints) (a : Asked) : Prop where
  functions : s.functions = a.functions.map fun e => (e.1, some e.2, "", 0)
  keys : (Keys s.files).Nodup
  lines : ∀ path, (s.files.lookup path).getD [] = (a.lines path).map fun e => (e.1, none, path, e.2)
  ids : ((s.functions ++ s.files.flatMap Prod.snd).map Prod.fst).Nodup
  old : ∀ r ∈ s.functions ++ s.files.flatMap Prod.snd, r.1 < s.nextBreakpointId
  next : s.nextBreakpointId = a.next
  program : s.debugger.map Prod.fst = a.program

theorem resolution_eq_some {P : CompiledProgram} {r : ClientBreakpoint} {pc : ℕ} :
    r.resolution P sep = some pc ↔ ∃ bp, (r.place P sep {}).1 = .ok bp ∧ bp.pc = pc := by
  unfold ClientBreakpoint.resolution
  split
  · rename_i bp hbp
    simp [hbp]
  · rename_i e he
    simp [he]

/-- Where the records resolve is where the client's requests do. -/
theorem Follows.at_iff (h : Follows s a) (P : CompiledProgram) (id pc : ℕ) :
    id ∈ idsAt P sep s.records pc ↔ a.At P sep id pc := by
  rw [mem_idsAt]
  constructor
  · rintro ⟨r, hr, hpc, rfl⟩
    obtain ⟨bp, hbp, hat⟩ := resolution_eq_some.mp hpc
    have hrequest : r.request ∈ s.functions ++ s.files.flatMap Prod.snd := by
      rw [← requests_records]
      exact List.mem_map_of_mem hr
    unfold ClientBreakpoint.place at hbp
    rcases List.mem_append.mp hrequest with hfunction | hline
    · rw [h.functions] at hfunction
      obtain ⟨e, he, heq⟩ := List.mem_map.mp hfunction
      have hname : r.function = some e.2 := (congrArg (fun q => q.2.1) heq).symm
      have hid : r.id = e.1 := (congrArg Prod.fst heq).symm
      rw [hname] at hbp
      exact .function e.2 (hid ▸ he) bp hbp hat
    · obtain ⟨f, hf, hq⟩ := List.mem_flatMap.mp hline
      have hlines := h.lines f.1
      rw [(mem_iff_lookup h.keys).mp hf, Option.getD_some] at hlines
      rw [hlines] at hq
      obtain ⟨e, he, heq⟩ := List.mem_map.mp hq
      have hnone : r.function = none := (congrArg (fun q => q.2.1) heq).symm
      have hpath : r.path = f.1 := (congrArg (fun q => q.2.2.1) heq).symm
      have hline : r.line = e.2 := (congrArg (fun q => q.2.2.2) heq).symm
      have hid : r.id = e.1 := (congrArg Prod.fst heq).symm
      rw [hnone] at hbp
      exact .line f.1 e.2 (hid ▸ he) bp (hpath ▸ hline ▸ hbp) hat
  · intro hat
    have hrequest : ∃ q ∈ s.functions ++ s.files.flatMap Prod.snd, q.1 = id ∧
        ∀ r : ClientBreakpoint, r.request = q → r.resolution P sep = some pc := by
      cases hat with
      | function name hmem bp hbp hpc =>
        refine ⟨(id, some name, "", 0), List.mem_append_left _ ?_, rfl, fun r hr => ?_⟩
        · rw [h.functions]
          exact List.mem_map_of_mem (f := fun e : ℕ × String => ((e.1, some e.2, "", 0) : Numbered)) hmem
        · have hname : r.function = some name := congrArg (fun q => q.2.1) hr
          rw [resolution_eq_some, ClientBreakpoint.place, hname]
          exact ⟨bp, hbp, hpc⟩
      | line path line hmem bp hbp hpc =>
        have hin : (id, none, path, line) ∈ (s.files.lookup path).getD [] := by
          rw [h.lines]
          exact List.mem_map_of_mem (f := fun e : ℕ × ℕ => ((e.1, none, path, e.2) : Numbered)) hmem
        cases hlookup : s.files.lookup path with
        | none =>
          rw [hlookup] at hin
          exact absurd hin List.not_mem_nil
        | some rs =>
          rw [hlookup] at hin
          refine ⟨_, List.mem_append_right _ (List.mem_flatMap.mpr ⟨_, (mem_iff_lookup h.keys).mpr hlookup, hin⟩), rfl, fun r hr => ?_⟩
          have hnone : r.function = none := congrArg (fun q => q.2.1) hr
          have hpath : r.path = path := congrArg (fun q => q.2.2.1) hr
          have hline : r.line = line := congrArg (fun q => q.2.2.2) hr
          rw [resolution_eq_some, ClientBreakpoint.place, hnone, hpath, hline]
          exact ⟨bp, hbp, hpc⟩
    obtain ⟨q, hq, rfl, hresolves⟩ := hrequest
    rw [← requests_records] at hq
    obtain ⟨r, hr, rfl⟩ := List.mem_map.mp hq
    exact ⟨r, hr, hresolves r rfl, rfl⟩

/-- The session and the debugger's table say the same. -/
structure InStep (sep : Char) (s : Breakpoints) (a : Asked) : Prop extends Follows s a where
  table : ∀ P d, s.debugger = some (P, d) → Table P sep d s.hitIds s.records

theorem Follows.congr (h : Follows s a) {s' : Breakpoints} (hfunctions : s'.functions = s.functions) (hfiles : s'.files = s.files)
    (hnext : s'.nextBreakpointId = s.nextBreakpointId) (hprogram : s'.debugger.map Prod.fst = s.debugger.map Prod.fst) :
    Follows s' a := by
  obtain ⟨functions, keys, lines, ids, old, next, program⟩ := h
  rw [← hfunctions] at functions ids old
  rw [← hfiles] at keys lines ids old
  rw [← hnext] at old next
  rw [← hprogram] at program
  exact ⟨functions, keys, lines, ids, old, next, program⟩

theorem Follows.resolved (h : Follows s a) : InStep sep (s.resolveAll sep) a := by
  unfold Breakpoints.resolveAll
  cases hdebugger : s.debugger with
  | none => exact ⟨h, fun P d hsome => by cases hdebugger.symm.trans hsome⟩
  | some e =>
    obtain ⟨P, d⟩ := e
    obtain ⟨hfunctions, hfirst⟩ := (Table.none P sep d).records s.functionBreakpoints
    obtain ⟨hfiles, htable⟩ := hfirst.files s.sourceBreakpoints
    refine ⟨h.congr hfunctions hfiles rfl (by rw [hdebugger]; rfl), fun P' d' hsome => ?_⟩
    cases hsome
    refine htable.congr ?_
    have hflat := congrArg (List.flatMap Prod.snd) hfiles
    simp only [List.flatMap_map] at hflat
    simp only [Breakpoints.records, List.nil_append, List.map_append, List.map_flatMap, hfunctions, hflat]

theorem InStep.reported (h : InStep sep s a) : InStep sep s.reportAll.1 a := by
  have hfunctions : s.reportAll.1.functions = s.functions := by
    simp only [Breakpoints.functions, Breakpoints.reportAll, List.map_map]
    rfl
  have hfiles : s.reportAll.1.files = s.files := by
    simp only [Breakpoints.files, Breakpoints.reportAll, List.map_map]
    refine List.map_congr_left fun e he => congrArg (Prod.mk e.1) ?_
    exact List.map_map
  refine ⟨h.toFollows.congr hfunctions hfiles rfl rfl, fun P d hsome => (h.table P d hsome).congr ?_⟩
  rw [requests_records, requests_records, hfunctions, hfiles]

theorem Follows.rebuilt (h : Follows s a) : InStep sep (s.rebuild sep).1 a := h.resolved.reported

theorem map_numbered {α β : Type} (f : ℕ × α → β) (next : ℕ) (xs : List α) :
    (numbered next xs).map f = xs.mapIdx fun i x => f (next + i, x) := by
  refine List.ext_getElem (by simp [numbered]) fun i h₁ h₂ => ?_
  simp [numbered]

theorem numbered_ids {α : Type} (next : ℕ) (xs : List α) : (numbered next xs).map Prod.fst = List.range' next xs.length := by
  refine List.ext_getElem (by simp [numbered]) fun i h₁ h₂ => ?_
  simp [numbered]

/-- The functions replaced, -/
theorem Follows.replaceFunctions (h : Follows s a) (names : List String) {s' : Breakpoints}
    (hfunctions : s'.functions = (numbered a.next names).map fun e => (e.1, some e.2, "", 0)) (hfiles : s'.files = s.files)
    (hnext : s'.nextBreakpointId = a.next + names.length) (hprogram : s'.debugger.map Prod.fst = s.debugger.map Prod.fst) :
    Follows s' { a with functions := numbered a.next names, next := a.next + names.length } := by
  have hids : s'.functions.map Prod.fst = List.range' a.next names.length := by
    rw [hfunctions, List.map_map, ← numbered_ids]
    rfl
  refine ⟨hfunctions, hfiles ▸ h.keys, hfiles ▸ h.lines, ?_, ?_, hnext, hprogram ▸ h.program⟩
  · rw [List.map_append, hids, hfiles]
    have hold := h.ids
    rw [List.map_append] at hold
    refine List.nodup_append.mpr ⟨List.nodup_range', (List.nodup_append.mp hold).2.1, fun id hid id' hid' heq => ?_⟩
    obtain ⟨r, hr, rfl⟩ := List.mem_map.mp hid'
    have hlt := h.old r (List.mem_append_right _ hr)
    have hge := List.mem_range'_1.mp hid
    rw [h.next] at hlt
    omega
  · intro r hr
    rw [hnext]
    rcases List.mem_append.mp hr with hr | hr
    · have hid : r.1 ∈ s'.functions.map Prod.fst := List.mem_map_of_mem hr
      rw [hids] at hid
      exact (List.mem_range'_1.mp hid).2
    · rw [hfiles] at hr
      have hlt := h.old r (List.mem_append_right _ hr)
      rw [h.next] at hlt
      omega

/-- or the lines of a file. -/
theorem Follows.replaceLines (h : Follows s a) (path : String) (lines : List ℕ) {s' : Breakpoints}
    (hfunctions : s'.functions = s.functions)
    (hfiles : s'.files = assign s.files path ((numbered a.next lines).map fun e => (e.1, none, path, e.2)))
    (hnext : s'.nextBreakpointId = a.next + lines.length) (hprogram : s'.debugger.map Prod.fst = s.debugger.map Prod.fst) :
    Follows s' { a with lines := Function.update a.lines path (numbered a.next lines), next := a.next + lines.length } := by
  have hids : ((numbered a.next lines).map fun e => ((e.1, none, path, e.2) : Numbered)).map Prod.fst = List.range' a.next lines.length := by
    rw [List.map_map, ← numbered_ids]
    rfl
  have hlt {r : Numbered} (hr : r ∈ s.functions ++ s.files.flatMap Prod.snd) : r.1 < a.next := h.next ▸ h.old r hr
  have hold := h.ids
  rw [List.map_append, List.map_flatMap] at hold
  obtain ⟨hnodup, hrest, hapart⟩ := List.nodup_append.mp hold
  refine ⟨hfunctions ▸ h.functions, hfiles ▸ nodup_assign h.keys, fun path' => ?_, ?_, ?_, hnext, hprogram ▸ h.program⟩
  · rw [hfiles, lookup_assign]
    by_cases hpath : path' = path
    · subst hpath
      dsimp only
      rw [if_pos rfl, Option.getD_some, Function.update_self]
    · dsimp only
      rw [if_neg hpath, Function.update_of_ne hpath]
      exact h.lines path'
  · rw [List.map_append, List.map_flatMap, hfunctions, hfiles]
    refine List.nodup_append.mpr ⟨hnodup, nodup_flatMap_assign hrest ?_ ?_, ?_⟩
    · rw [hids]
      exact List.nodup_range'
    · intro e he id hid hid'
      rw [hids] at hid'
      obtain ⟨r, hr, rfl⟩ := List.mem_map.mp hid
      have hold := hlt (List.mem_append_right _ (List.mem_flatMap.mpr ⟨e, he, hr⟩))
      have hge := List.mem_range'_1.mp hid'
      omega
    · intro id hid id' hid' heq
      obtain ⟨e, he, hin⟩ := List.mem_flatMap.mp hid'
      rcases mem_assign he with rfl | he
      · rw [hids] at hin
        obtain ⟨r, hr, rfl⟩ := List.mem_map.mp hid
        have hold := hlt (List.mem_append_left _ hr)
        have hge := List.mem_range'_1.mp hin
        omega
      · exact hapart id hid id' (List.mem_flatMap.mpr ⟨e, he, hin⟩) heq
  · intro r hr
    rw [hnext]
    rw [hfunctions, hfiles] at hr
    rcases List.mem_append.mp hr with hr | hr
    · have hold := hlt (List.mem_append_left _ hr)
      omega
    · obtain ⟨e, he, hin⟩ := List.mem_flatMap.mp hr
      rcases mem_assign he with rfl | he
      · have hid := List.mem_map_of_mem (f := Prod.fst) hin
        rw [hids] at hid
        exact (List.mem_range'_1.mp hid).2
      · have hold := hlt (List.mem_append_right _ (List.mem_flatMap.mpr ⟨e, he, hin⟩))
        omega

end Following

section Running

variable {W : Type} {resolved : String → String} {sep : Char} {s : Breakpoints} {a : Asked}

theorem body_id (source : String → String) (r : ClientBreakpoint) : (r.body source).id = r.id := by
  unfold ClientBreakpoint.body
  dsimp only
  split
  · rfl
  · rfl
  · rfl

theorem ids_requests (rs : List ClientBreakpoint) (source : String → String) :
    (rs.map fun r => r.body source).map BreakpointBody.id = (rs.map ClientBreakpoint.request).map Prod.fst := by
  rw [List.map_map, List.map_map]
  exact List.map_congr_left fun r _ => body_id source r

theorem map_request_mapIdx {α : Type} (f : ℕ → α → ClientBreakpoint) (xs : List α) :
    (xs.mapIdx f).map ClientBreakpoint.request = xs.mapIdx fun i x => (f i x).request := by
  refine List.ext_getElem (by simp) fun i h₁ h₂ => ?_
  simp

/-- One step, and the numbers that its answer gives out. -/
structure Answered (resolved : String → String) (sep : Char) (s : Breakpoints) (a : Asked) (step : BreakpointStep W) : Prop where
  inStep : InStep sep (step.run resolved sep s).1 (a.after resolved step)
  le : a.next ≤ (a.after resolved step).next
  ids : (step.run resolved sep s).2.breakpoints.map BreakpointBody.id = List.range' a.next ((a.after resolved step).next - a.next)

/-- A step that asks for nothing. -/
theorem Answered.silent {step : BreakpointStep W} (hafter : (a.after resolved step).next = a.next)
    (hanswer : (step.run resolved sep s).2.breakpoints = []) (h : InStep sep (step.run resolved sep s).1 (a.after resolved step)) :
    Answered resolved sep s a step := by
  refine ⟨h, hafter.ge, ?_⟩
  rw [hanswer, hafter, Nat.sub_self]
  rfl

theorem InStep.setBreakpoints (h : InStep sep s a) (clientPath : String) (lines : List ℕ) :
    Answered (W := W) resolved sep s a (.request (.setBreakpoints clientPath lines)) := by
  by_cases hpath : clientPath = ""
  · have hrun : (BreakpointStep.request (W := W) (.setBreakpoints clientPath lines)).run resolved sep s = (s, {}) := if_pos hpath
    have hafter : a.after resolved (BreakpointStep.request (W := W) (.setBreakpoints clientPath lines)) = a := if_pos hpath
    refine .silent (congrArg Asked.next hafter) (by rw [hrun]) ?_
    rw [hrun, hafter]
    exact h
  · have hafter : a.after resolved (BreakpointStep.request (W := W) (.setBreakpoints clientPath lines)) =
        { a with
          lines := Function.update a.lines (resolved clientPath) (numbered a.next lines)
          next := a.next + lines.length } := if_neg hpath
    let records : List ClientBreakpoint := lines.mapIdx fun i line =>
      { id := s.nextBreakpointId + i, clientPath := clientPath, path := resolved clientPath, line := line }
    let s' : Breakpoints := { s.rememberPath resolved clientPath with
      nextBreakpointId := s.nextBreakpointId + lines.length
      sourceBreakpoints := assign s.sourceBreakpoints (resolved clientPath) records }
    have hrun : (BreakpointStep.request (W := W) (.setBreakpoints clientPath lines)).run resolved sep s =
        ((s'.rebuild sep).1, {
          events := (s'.rebuild sep).2
          breakpoints := (((s'.rebuild sep).1.sourceBreakpoints.lookup (resolved clientPath)).getD []).map fun r =>
            r.body (s'.rebuild sep).1.source }) := if_neg hpath
    have hrecords : records.map ClientBreakpoint.request = (numbered a.next lines).map fun e => (e.1, none, resolved clientPath, e.2) := by
      rw [map_request_mapIdx, map_numbered, ← h.next]
      rfl
    have hfollows : Follows s' _ := h.toFollows.replaceLines (resolved clientPath) lines rfl
      ((map_assign (List.map ClientBreakpoint.request) ..).trans (by rw [hrecords]; rfl)) (congrArg (· + lines.length) h.next) rfl
    have hrebuilt : InStep sep _ _ := hfollows.rebuilt
    refine ⟨?_, ?_, ?_⟩
    · rw [hrun, hafter]
      exact hrebuilt
    · rw [hafter]
      exact Nat.le_add_right ..
    · rw [hrun, hafter, ids_requests]
      have hlines := hrebuilt.lines (resolved clientPath)
      rw [Breakpoints.files, lookup_map] at hlines
      dsimp only at hlines
      rw [Function.update_self] at hlines
      have hmap : ((((s'.rebuild sep).1.sourceBreakpoints.lookup (resolved clientPath)).getD []).map ClientBreakpoint.request) =
          (((s'.rebuild sep).1.sourceBreakpoints.lookup (resolved clientPath)).map (List.map ClientBreakpoint.request)).getD [] := by
        cases (s'.rebuild sep).1.sourceBreakpoints.lookup (resolved clientPath) with
        | none => rfl
        | some rs => rfl
      rw [hmap, hlines, List.map_map]
      exact (numbered_ids ..).trans (by rw [Nat.add_sub_cancel_left])

theorem InStep.setFunctionBreakpoints (h : InStep sep s a) (names : List String) :
    Answered (W := W) resolved sep s a (.request (.setFunctionBreakpoints names)) := by
  let records : List ClientBreakpoint := names.mapIdx fun i name => { id := s.nextBreakpointId + i, function := some name }
  have hrecords : records.map ClientBreakpoint.request = (numbered a.next names).map fun e => (e.1, some e.2, "", 0) := by
    rw [map_request_mapIdx, map_numbered, ← h.next]
    rfl
  let s' : Breakpoints := { s with nextBreakpointId := s.nextBreakpointId + names.length, functionBreakpoints := records }
  have hfollows : Follows s' _ := h.toFollows.replaceFunctions names hrecords rfl (congrArg (· + names.length) h.next) rfl
  have hrebuilt : InStep sep _ _ := hfollows.rebuilt
  refine ⟨hrebuilt, Nat.le_add_right .., (ids_requests _ _).trans ?_⟩
  refine (congrArg (List.map Prod.fst) hrebuilt.functions).trans ?_
  rw [List.map_map]
  exact (numbered_ids ..).trans (by rw [Asked.after, Nat.add_sub_cancel_left])

theorem InStep.launch (h : InStep sep s a) (programPath : String) (P : CompiledProgram) :
    Answered (W := W) resolved sep s a (.request (.launch programPath P)) := by
  refine .silent rfl rfl ?_
  have hfollows : Follows { s.rememberPath resolved programPath with debugger := some (P, {}) } { a with program := some P } :=
    ⟨h.functions, h.keys, h.lines, h.ids, h.old, h.next, rfl⟩
  exact hfollows.rebuilt

theorem stopAt_cases (d : Debugger.State) (P : CompiledProgram) (pause : Bool) (vm : VM W) :
    (d.stopAt P pause vm).2 = d ∨ ∃ id, (d.stopAt P pause vm).2 = d.update id fun bp => { bp with hits := bp.hits + 1 } := by
  unfold Debugger.State.stopAt
  split
  · exact .inl rfl
  · split
    · exact .inr ⟨_, rfl⟩
    · dsimp only
      split
      · exact .inl rfl
      · exact .inl rfl

theorem InStep.hook (h : InStep sep s a) (pause : Bool) (vm : VM W) : InStep sep (s.hook pause vm).1 a := by
  unfold Breakpoints.hook
  split
  · exact h
  · rename_i P d hdebugger
    have htable := h.table P d hdebugger
    have hkept (mode : Option Debugger.Mode) :
        InStep sep { s with debugger := some (P, { (d.stopAt P pause vm).2 with mode := mode }) } a := by
      refine ⟨h.toFollows.congr rfl rfl rfl (by rw [hdebugger]; rfl), fun P' d' hsome => ?_⟩
      cases hsome
      rcases stopAt_cases d P pause vm with hsame | ⟨id, hhit⟩
      · rw [hsame]
        exact htable.kept (f := id) (fun bp => ⟨rfl, rfl, rfl⟩) (List.map_id _).symm rfl
      · rw [hhit]
        exact htable.update id mode
    split
    · rename_i d' hstop
      have hgo := hkept (d.stopAt P pause vm).2.mode
      rw [hstop] at hgo
      exact hgo
    · rename_i stop d' hstop
      have hhalt := hkept none
      rw [hstop] at hhalt
      exact hhalt

theorem InStep.resume (h : InStep sep s a) (mode : Debugger.Mode) (vm : VM W) : InStep sep (s.resume mode vm) a := by
  refine ⟨h.toFollows.congr rfl rfl rfl ?_, fun P d hsome => ?_⟩
  · exact Option.map_map ..
  · obtain ⟨e, he, heq⟩ := Option.map_eq_some_iff.mp hsome
    cases heq
    exact (h.table e.1 e.2 he).kept (f := id) (fun bp => ⟨rfl, rfl, rfl⟩) (List.map_id _).symm rfl

theorem InStep.step (h : InStep sep s a) (step : BreakpointStep W) : Answered resolved sep s a step := by
  cases step with
  | request r =>
    cases r with
    | setBreakpoints clientPath lines => exact h.setBreakpoints clientPath lines
    | setFunctionBreakpoints names => exact h.setFunctionBreakpoints names
    | launch programPath P => exact h.launch programPath P
  | hook pause vm => exact .silent rfl rfl (h.hook pause vm)
  | resume mode vm => exact .silent rfl rfl (h.resume mode vm)

theorem InStep.start : InStep sep {} {} where
  functions := rfl
  keys := List.nodup_nil
  lines _ := rfl
  ids := List.nodup_nil
  old _ h := absurd h List.not_mem_nil
  next := rfl
  program := rfl
  table _ _ h := by cases h

/-- The whole session. The numbers given out are those from `next` on, in their order. -/
theorem InStep.steps (resolved : String → String) (h : InStep sep s a) (steps : List (BreakpointStep W)) :
    InStep sep (runSteps resolved sep s steps).1 (steps.foldl (Asked.after resolved) a) ∧
    a.next ≤ (steps.foldl (Asked.after resolved) a).next ∧
    (runSteps resolved sep s steps).2.flatMap (fun answer => answer.breakpoints.map BreakpointBody.id) =
      List.range' a.next ((steps.foldl (Asked.after resolved) a).next - a.next) := by
  induction steps generalizing s a with
  | nil => exact ⟨h, le_rfl, by rw [List.foldl_nil, Nat.sub_self]; rfl⟩
  | cons step steps ih =>
    have hstep : Answered resolved sep s a step := h.step step
    obtain ⟨hrest, hle, hids⟩ := ih hstep.inStep
    refine ⟨hrest, hstep.le.trans hle, ?_⟩
    rw [runSteps, List.flatMap_cons, hids, hstep.ids, List.foldl_cons]
    have hfirst := hstep.le
    obtain ⟨m, hm⟩ := Nat.exists_eq_add_of_le hfirst
    obtain ⟨n, hn⟩ := Nat.exists_eq_add_of_le hle
    rw [hn, hm, Nat.add_sub_cancel_left, Nat.add_sub_cancel_left, List.range'_append_1, Nat.add_assoc, Nat.add_sub_cancel_left]

end Running

section Stops

variable {W : Type} {resolved : String → String} {sep : Char} {s : Breakpoints} {a : Asked}

theorem hook_stop {P : CompiledProgram} {d : Debugger.State} (hdebugger : s.debugger = some (P, d)) (pause : Bool) (vm : VM W) :
    (s.hook pause vm).2 = (d.stopAt P pause vm).1 := by
  unfold Breakpoints.hook
  rw [hdebugger]
  dsimp only
  split
  · rename_i hstop
    rw [hstop]
  · rename_i hstop
    rw [hstop]

/-- A pc of the client's requests has a breakpoint. -/
theorem InStep.pcs (h : InStep sep s a) {P : CompiledProgram} {d : Debugger.State} (hdebugger : s.debugger = some (P, d)) (pc : ℕ) :
    (∃ bp ∈ d.breakpoints, bp.pc = pc) ↔ ∃ id, a.At P sep id pc := by
  rw [(h.table P d hdebugger).pcs]
  constructor
  · rintro ⟨r, hr, hpc⟩
    exact ⟨r.id, (h.at_iff P r.id pc).mp (mem_idsAt.mpr ⟨r, hr, hpc, rfl⟩)⟩
  · rintro ⟨id, hat⟩
    obtain ⟨r, hr, hpc, -⟩ := mem_idsAt.mp ((h.at_iff P id pc).mpr hat)
    exact ⟨r, hr, hpc⟩

/-- The hook stops at every breakpoint, -/
theorem InStep.stops (h : InStep sep s a) {P : CompiledProgram} {d : Debugger.State} (hdebugger : s.debugger = some (P, d)) (vm : VM W)
    (hat : ∃ id, a.At P sep id vm.pc) : ∃ stop, (s.hook false vm).2 = some stop ∧ stop.reason = .breakpoint := by
  obtain ⟨bp, hbp, hpc⟩ := (h.pcs hdebugger vm.pc).mpr hat
  have henabled := (h.table P d hdebugger).enabled bp hbp
  rw [hook_stop hdebugger]
  unfold Debugger.State.stopAt
  rw [if_neg Bool.false_ne_true]
  split
  · exact ⟨_, rfl, rfl⟩
  · rename_i hnone
    exact absurd (List.find?_eq_none.mp hnone bp hbp) (by simp [hpc, henabled])

/-- and tells the client's numbers of all that resolve to it. -/
theorem InStep.hits (h : InStep sep s a) {P : CompiledProgram} {d : Debugger.State} (hdebugger : s.debugger = some (P, d))
    {pause : Bool} {vm : VM W} {stop : Debugger.Stop} (hstop : (s.hook pause vm).2 = some stop) (hreason : stop.reason = .breakpoint) :
    s.hitBreakpointIds stop = some (idsAt P sep s.records vm.pc) := by
  rw [hook_stop hdebugger] at hstop
  unfold Debugger.State.stopAt at hstop
  split at hstop
  · cases hstop
    cases hreason
  · split at hstop
    · rename_i bp hfind
      cases hstop
      have hbp := List.find?_some hfind
      have hpc : bp.pc = vm.pc := of_decide_eq_true (Bool.and_eq_true_iff.mp hbp).1
      rw [← hpc, ← (h.table P d hdebugger).told bp (List.mem_of_find?_eq_some hfind)]
      rfl
    · dsimp only at hstop
      split at hstop
      · cases hstop
        dsimp only at hreason
        split at hreason
        · cases hreason
        · cases hreason
      · cases hstop

theorem InStep.nodup (h : InStep sep s a) (P : CompiledProgram) (pc : ℕ) : (idsAt P sep s.records pc).Nodup := by
  have hids := h.ids
  rw [← requests_records, List.map_map] at hids
  exact hids.sublist (List.filter_sublist.map ClientBreakpoint.id)

end Stops

end QuinLang.Dap
