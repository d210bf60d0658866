import QuinLang.Compiler.Positions
import QuinLang.Debugger.Control

/-! Where a breakpoint on a line lands: at the first instruction of the file at or after
the line, unless another file of that path's suffix comes first or the instruction has no
marker of its own. -/

namespace QuinLang.Debugger

section Ranges

variable (P : CompiledProgram)

def sourceFile (i : ℕ) : String := ((P.functions[i]?).map FunctionInfo.sourceFile).getD ""

def entryOf (i : ℕ) : ℕ := ((P.functions[i]?).map FunctionInfo.entryPc).getD 0

/-- The function occupies the pc. -/
def Occupies (i pc : ℕ) : Prop := (functionRange P i).1 ≤ pc ∧ pc < (functionRange P i).2

instance (i pc : ℕ) : Decidable (Occupies P i pc) := inferInstanceAs (Decidable (_ ∧ _))

/-- What code generation promises: the markers of the source map ascend, and no function
starts past the end of the code. -/
structure Laid : Prop where
  ascends : P.sourceMap.Ascends
  entries : ∀ fn ∈ P.functions, fn.entryPc ≤ P.code.length

variable {P}

theorem mem_ordered {indices : List ℕ} {i : ℕ} : i ∈ ordered P indices ↔ i ∈ indices := List.mem_mergeSort

theorem ordered_sorted (indices : List ℕ) : (ordered P indices).Pairwise fun i j => entryOf P i ≤ entryOf P j := by
  have h : (ordered P indices).Pairwise fun i j => decide (entryOf P i ≤ entryOf P j) = true :=
    List.pairwise_mergeSort
      (fun a b c hab hbc => decide_eq_true ((of_decide_eq_true hab).trans (of_decide_eq_true hbc)))
      (fun a b => by simpa using le_total (entryOf P a) (entryOf P b)) indices
  exact h.imp fun h => of_decide_eq_true h

/-- Where the functions already stand in the order of their code. -/
theorem functionRange_eq (h : (List.range P.functions.length).Pairwise fun i j => entryOf P i ≤ entryOf P j) {i : ℕ}
    (hi : i < P.functions.length) :
    functionRange P i = (entryOf P i, if i + 1 < P.functions.length then entryOf P (i + 1) else P.code.length) := by
  have hsame : ordered P (List.range P.functions.length) = List.range P.functions.length :=
    List.mergeSort_of_pairwise (h.imp fun h => decide_eq_true h)
  have hidx : (List.range P.functions.length).idxOf i = i := by
    have hget := List.Nodup.idxOf_getElem List.nodup_range i (by rwa [List.length_range])
    rwa [List.getElem_range] at hget
  unfold functionRange
  dsimp only
  rw [hsame, hidx]
  split_ifs with hlast
  · rw [List.getElem?_range hlast]
    rfl
  · have hnone : (List.range P.functions.length)[i + 1]? = none :=
      List.getElem?_eq_none (by rw [List.length_range]; omega)
    rw [hnone]
    rfl

/-- Of two functions the one ends before the other starts. -/
theorem ranges_apart {i j : ℕ} (hi : i < P.functions.length) (hj : j < P.functions.length) (hne : i ≠ j) :
    (functionRange P i).2 ≤ (functionRange P j).1 ∨ (functionRange P j).2 ≤ (functionRange P i).1 := by
  have hmem {k : ℕ} (hk : k < P.functions.length) : k ∈ ordered P (List.range P.functions.length) :=
    mem_ordered.mpr (List.mem_range.mpr hk)
  have hafter {i j : ℕ} (hj : j < P.functions.length)
      (hlt : (ordered P (List.range P.functions.length)).idxOf i < (ordered P (List.range P.functions.length)).idxOf j) :
      (functionRange P i).2 ≤ (functionRange P j).1 := by
    have hlen := List.idxOf_lt_length_iff.mpr (hmem hj)
    have hsorted := List.pairwise_iff_getElem.mp (ordered_sorted (P := P) (List.range P.functions.length))
    have hle (a b : ℕ) (ha : a < _) (hb : b < _) (hab : a ≤ b) :
        entryOf P (ordered P (List.range P.functions.length))[a] ≤ entryOf P (ordered P (List.range P.functions.length))[b] := by
      rcases Nat.eq_or_lt_of_le hab with rfl | hlt
      · exact le_rfl
      · exact hsorted a b ha hb hlt
    have hnext := hle _ _ (by omega) hlen (Nat.succ_le_of_lt hlt)
    rw [List.getElem_idxOf hlen] at hnext
    unfold functionRange
    dsimp only
    rw [List.getElem?_eq_getElem (by omega)]
    exact hnext
  have hidx : (ordered P (List.range P.functions.length)).idxOf i ≠ (ordered P (List.range P.functions.length)).idxOf j :=
    fun heq => hne ((List.idxOf_inj (hmem hi)).mp heq)
  rcases lt_or_gt_of_ne hidx with hlt | hlt
  · exact .inl (hafter hj hlt)
  · exact .inr (hafter hi hlt)

theorem Occupies.unique {i j pc : ℕ} (hi : i < P.functions.length) (hj : j < P.functions.length) (h : Occupies P i pc)
    (h' : Occupies P j pc) : i = j := by
  by_contra hne
  have hapart := ranges_apart hi hj hne
  unfold Occupies at h h'
  omega

theorem Laid.range_le (h : Laid P) (i : ℕ) : (functionRange P i).2 ≤ P.code.length := by
  unfold functionRange
  dsimp only
  generalize (ordered P (List.range P.functions.length))[(ordered P (List.range P.functions.length)).idxOf i + 1]? = following
  cases following with
  | none => exact le_rfl
  | some k =>
    simp only [Option.map_some, Option.getD_some]
    cases hk : P.functions[k]? with
    | none => exact Nat.zero_le _
    | some fn => exact h.entries fn (List.mem_of_getElem? hk)

end Ranges

section Searching

variable (P : CompiledProgram) (sep : Char)

/-- The function has a marker on the line, at the pc. -/
def Marked (i line pc : ℕ) : Prop := Occupies P i pc ∧ ∃ pos : Pos, (pc, pos) ∈ P.sourceMap.markers ∧ pos.line = line

/-- `break_at_line`, its calls of itself counted. -/
def State.breakAtLineCalls : ℕ → State → ℕ → String → Option (Except String Breakpoint × State)
  | 0, _, _, _ => none
  | n + 1, d, line, file =>
    let wanted := if file = "" then entryFile P else file
    let indices := functionsInFile P sep wanted
    if indices = [] then some (.error s!"no source file matching '{wanted}'", d)
    else
      match pcOnLine P indices line with
      | some (index, pc) => some (.ok (d.add P pc index line).1, (d.add P pc index line).2)
      | none =>
        let candidates := indices.flatMap fun index =>
          (linesIn P (functionRange P index).1 (functionRange P index).2).filter fun l => line < l
        match candidates.min? with
        | none => some (.error s!"no code at or after line {line} in {wanted}", d)
        | some next => State.breakAtLineCalls n d next file

variable {P sep}

theorem firstPcOnLine_eq_some {i line pc : ℕ} :
    firstPcOnLine P line (functionRange P i).1 (functionRange P i).2 = some pc ↔
      Marked P i line pc ∧ ∀ pc', Marked P i line pc' → pc ≤ pc' := by
  have hmem (pc : ℕ) : pc ∈ (P.sourceMap.markers.filter fun m =>
      m.2.line = line ∧ (functionRange P i).1 ≤ m.1 ∧ m.1 < (functionRange P i).2).map Prod.fst ↔ Marked P i line pc := by
    simp only [List.mem_map, List.mem_filter, decide_eq_true_eq, Marked, Occupies]
    constructor
    · rintro ⟨m, ⟨hm, hline, hrange⟩, rfl⟩
      exact ⟨hrange, m.2, hm, hline⟩
    · rintro ⟨hrange, pos, hm, hline⟩
      exact ⟨(pc, pos), ⟨hm, hline, hrange⟩, rfl⟩
  rw [firstPcOnLine, List.min?_eq_some_iff]
  simp only [hmem]

theorem firstPcOnLine_eq_none {i line : ℕ} :
    firstPcOnLine P line (functionRange P i).1 (functionRange P i).2 = none ↔ ∀ pc, ¬ Marked P i line pc := by
  constructor
  · intro h pc hpc
    rw [firstPcOnLine, List.min?_eq_none_iff, List.map_eq_nil_iff, List.filter_eq_nil_iff] at h
    obtain ⟨hrange, pos, hm, hline⟩ := hpc
    exact h (pc, pos) hm (decide_eq_true ⟨hline, hrange⟩)
  · intro h
    cases hfirst : firstPcOnLine P line (functionRange P i).1 (functionRange P i).2 with
    | none => rfl
    | some pc => exact absurd (firstPcOnLine_eq_some.mp hfirst).1 (h pc)

/-- The lowest pc that any of the functions has on the line. -/
theorem pcOnLine_eq_some {indices : List ℕ} (hindices : ∀ i ∈ indices, i < P.functions.length) {line i pc : ℕ}
    (h : pcOnLine P indices line = some (i, pc)) :
    i ∈ indices ∧ Marked P i line pc ∧ ∀ j ∈ indices, ∀ pc', Marked P j line pc' → pc ≤ pc' := by
  obtain ⟨before, i', after, horder, hfound, hbefore⟩ := List.findSome?_eq_some_iff.mp h
  obtain ⟨pc₀, hpc, heq⟩ := Option.map_eq_some_iff.mp hfound
  cases heq
  obtain ⟨hmarked, hleast⟩ := firstPcOnLine_eq_some.mp hpc
  have hmem (j : ℕ) : j ∈ indices ↔ j ∈ before ++ i :: after := by rw [← horder, mem_ordered]
  have hi : i ∈ indices := (hmem i).mpr (List.mem_append_right _ List.mem_cons_self)
  refine ⟨hi, hmarked, fun j hj pc' hpc' => ?_⟩
  by_cases hne : j = i
  · subst hne
    exact hleast pc' hpc'
  · have hafter : entryOf P i ≤ entryOf P j := by
      rcases List.mem_append.mp ((hmem j).mp hj) with hj | hj
      · have hnone := firstPcOnLine_eq_none.mp (Option.map_eq_none_iff.mp (hbefore j hj))
        exact absurd hpc' (hnone pc')
      · have hsorted := ordered_sorted (P := P) indices
        rw [horder] at hsorted
        have htail := (List.pairwise_cons.mp (List.pairwise_append.mp hsorted).2.1).1
        exact htail j ((List.mem_cons.mp hj).resolve_left hne)
    have hapart := ranges_apart (hindices i hi) (hindices j hj) (Ne.symm hne)
    have hentry : (functionRange P i).1 ≤ (functionRange P j).1 := hafter
    have hat := hmarked.1
    have hat' := hpc'.1
    unfold Occupies at hat hat'
    omega

theorem pcOnLine_eq_none {indices : List ℕ} {line : ℕ} (h : pcOnLine P indices line = none) :
    ∀ i ∈ indices, ∀ pc, ¬ Marked P i line pc := by
  intro i hi
  have hnone := List.findSome?_eq_none_iff.mp h i (mem_ordered.mpr hi)
  exact firstPcOnLine_eq_none.mp (Option.map_eq_none_iff.mp hnone)

theorem mem_functionsInFile {wanted : String} {i : ℕ} (h : i ∈ functionsInFile P sep wanted) : i < P.functions.length :=
  List.mem_range.mp (List.mem_filter.mp h).1

theorem mem_functionsInFile_of_eq {path : String} {i : ℕ} (hi : i < P.functions.length) (h : sourceFile P i = path) :
    i ∈ functionsInFile P sep path := by
  refine List.mem_filter.mpr ⟨List.mem_range.mpr hi, decide_eq_true (Or.inl ?_)⟩
  exact congrArg (slashed sep) h

theorem mem_candidates {indices : List ℕ} {line l : ℕ} :
    (l ∈ indices.flatMap fun index =>
      (linesIn P (functionRange P index).1 (functionRange P index).2).filter fun l => line < l) ↔
      line < l ∧ ∃ i ∈ indices, ∃ pc, Marked P i l pc := by
  simp only [List.mem_flatMap, List.mem_filter, linesIn, List.mem_map, decide_eq_true_eq]
  constructor
  · rintro ⟨i, hi, ⟨m, ⟨hm, hrange⟩, rfl⟩, hlt⟩
    exact ⟨hlt, i, hi, m.1, hrange, m.2, hm, rfl⟩
  · rintro ⟨hlt, i, hi, pc, hrange, pos, hm, rfl⟩
    exact ⟨i, hi, ⟨(pc, pos), ⟨hm, hrange⟩, rfl⟩, hlt⟩

theorem pcOnLine_isSome {indices : List ℕ} {line i pc : ℕ} (hi : i ∈ indices) (h : Marked P i line pc) :
    ∃ found, pcOnLine P indices line = some found := by
  cases hpc : pcOnLine P indices line with
  | none => exact absurd h (pcOnLine_eq_none hpc i hi pc)
  | some found => exact ⟨found, rfl⟩

/-- A second call finds code, so `break_at_line` returns. -/
theorem breakAtLineCalls_eq (P : CompiledProgram) (sep : Char) (n : ℕ) (d : State) (line : ℕ) (file : String) :
    State.breakAtLineCalls P sep (n + 2) d line file = some (d.breakAtLine P sep line file) := by
  unfold State.breakAtLine
  rw [State.breakAtLineCalls]
  dsimp only
  by_cases hempty : functionsInFile P sep (if file = "" then entryFile P else file) = []
  · rw [if_pos hempty, if_pos hempty]
  · rw [if_neg hempty, if_neg hempty]
    cases hpc : pcOnLine P (functionsInFile P sep (if file = "" then entryFile P else file)) line with
    | some found => rfl
    | none =>
      dsimp only
      cases hmin : ((functionsInFile P sep (if file = "" then entryFile P else file)).flatMap fun index =>
          (linesIn P (functionRange P index).1 (functionRange P index).2).filter fun l => line < l).min? with
      | none => rfl
      | some next =>
        obtain ⟨-, i, hi, pc, hmarked⟩ := mem_candidates.mp (List.min?_eq_some_iff.mp hmin).1
        obtain ⟨found, hfound⟩ := pcOnLine_isSome hi hmarked
        dsimp only
        rw [State.breakAtLineCalls]
        dsimp only
        rw [if_neg hempty, Option.bind_some, hfound]
        rfl

/-- The first marker of the matching functions at or after the line, if there is one. -/
theorem breakAtLine_cases (P : CompiledProgram) (sep : Char) (d : State) (line : ℕ) {path : String} (hpath : path ≠ "") :
    ((∀ l, line ≤ l → ∀ i ∈ functionsInFile P sep path, ∀ pc, ¬ Marked P i l pc) ∧
      ∃ e, d.breakAtLine P sep line path = (.error e, d)) ∨
    ∃ l pc, ∃ i ∈ functionsInFile P sep path, line ≤ l ∧ Marked P i l pc ∧
      d.breakAtLine P sep line path = (.ok (d.add P pc i l).1, (d.add P pc i l).2) ∧
      ∀ l', line ≤ l' → ∀ j ∈ functionsInFile P sep path, ∀ pc', Marked P j l' pc' → l < l' ∨ l = l' ∧ pc ≤ pc' := by
  have hindices (i : ℕ) (hi : i ∈ functionsInFile P sep path) : i < P.functions.length := mem_functionsInFile hi
  unfold State.breakAtLine
  dsimp only
  rw [if_neg hpath]
  by_cases hempty : functionsInFile P sep path = []
  · rw [if_pos hempty]
    refine .inl ⟨fun l hl i hi => ?_, _, rfl⟩
    rw [hempty] at hi
    exact absurd hi List.not_mem_nil
  · rw [if_neg hempty]
    cases hpc : pcOnLine P (functionsInFile P sep path) line with
    | some found =>
      obtain ⟨i, pc⟩ := found
      obtain ⟨hi, hmarked, hleast⟩ := pcOnLine_eq_some hindices hpc
      refine .inr ⟨line, pc, i, hi, le_rfl, hmarked, rfl, fun l' hl' j hj pc' hpc' => ?_⟩
      rcases Nat.eq_or_lt_of_le hl' with rfl | hlt
      · exact .inr ⟨rfl, hleast j hj pc' hpc'⟩
      · exact .inl hlt
    | none =>
      have hnone := pcOnLine_eq_none hpc
      have hlater {l : ℕ} (hl : line ≤ l) {j pc : ℕ} (hj : j ∈ functionsInFile P sep path) (h : Marked P j l pc) : line < l := by
        refine lt_of_le_of_ne hl fun heq => ?_
        subst heq
        exact hnone j hj pc h
      dsimp only
      cases hmin : ((functionsInFile P sep path).flatMap fun index =>
          (linesIn P (functionRange P index).1 (functionRange P index).2).filter fun l => line < l).min? with
      | none =>
        rw [List.min?_eq_none_iff] at hmin
        refine .inl ⟨fun l hl i hi pc hmarked => ?_, _, rfl⟩
        have hin := mem_candidates.mpr ⟨hlater hl hi hmarked, i, hi, pc, hmarked⟩
        rw [hmin] at hin
        exact List.not_mem_nil hin
      | some next =>
        obtain ⟨hin, hsmallest⟩ := List.min?_eq_some_iff.mp hmin
        obtain ⟨hlt, i₀, hi₀, pc₀, hmarked₀⟩ := mem_candidates.mp hin
        obtain ⟨found, hfound⟩ := pcOnLine_isSome hi₀ hmarked₀
        obtain ⟨i, pc⟩ := found
        obtain ⟨hi, hmarked, hleast⟩ := pcOnLine_eq_some hindices hfound
        rw [Option.bind_some, hfound]
        refine .inr ⟨next, pc, i, hi, hlt.le, hmarked, rfl, fun l' hl' j hj pc' hpc' => ?_⟩
        have hle := hsmallest l' (mem_candidates.mpr ⟨hlater hl' hj hpc', j, hj, pc', hpc'⟩)
        rcases Nat.eq_or_lt_of_le hle with rfl | hlt'
        · exact .inr ⟨rfl, hleast j hj pc' hpc'⟩
        · exact .inl hlt'

end Searching

section Placing

variable (P : CompiledProgram) (sep : Char)

def lineOf (pc : ℕ) : Option ℕ := (P.sourceMap.lookup pc).map Pos.line

/-- An instruction of the file's functions, attributed to a line from `line` on. -/
def Carries (path : String) (line l pc : ℕ) : Prop :=
  line ≤ l ∧ pc < P.code.length ∧ lineOf P pc = some l ∧
    ∃ i ∈ List.range P.functions.length, sourceFile P i = path ∧ Occupies P i pc

instance (path : String) (line l pc : ℕ) : Decidable (Carries P path line l pc) := inferInstanceAs (Decidable (_ ∧ _))

/-- The first of them, by line and then by pc. -/
structure First (path : String) (line l pc : ℕ) : Prop where
  carries : Carries P path line l pc
  least : ∀ l' pc', Carries P path line l' pc' → l < l' ∨ l = l' ∧ pc ≤ pc'

/-- The call returns, with the breakpoint at the first instruction of the file at or after
the line, and refuses where there is none. -/
def Places (d : State) (path : String) (line : ℕ) : Prop :=
  ∃ n r, State.breakAtLineCalls P sep n d line path = some r ∧
    (∀ l pc, First P path line l pc → ∃ bp, r.1 = .ok bp ∧ bp.pc = pc ∧
      ((∀ old ∈ d.breakpoints, old.pc ≠ pc) → bp.line = l ∧ bp.file = path)) ∧
    ((∀ l pc, ¬ Carries P path line l pc) → ∃ e, r.1 = .error e)

/-- No function of another file that the path is a suffix of has a marker from the line on
before all instructions of the file, and the first of those has a marker of its own. -/
structure Undisturbed (path : String) (line : ℕ) : Prop where
  others : ∀ i ∈ functionsInFile P sep path, sourceFile P i ≠ path → ∀ m ∈ P.sourceMap.markers, Occupies P i m.1 → line ≤ m.2.line →
    ∃ l pc, Carries P path line l pc ∧ (l < m.2.line ∨ l = m.2.line ∧ pc < m.1)
  own : ∀ l pc, First P path line l pc → ∃ m ∈ P.sourceMap.markers, m.1 = pc

variable {P sep}

theorem lookup_marker (h : P.sourceMap.Ascends) {pc : ℕ} {pos : Pos} (hm : (pc, pos) ∈ P.sourceMap.markers) :
    P.sourceMap.lookup pc = some pos := by
  have hin : (pc, pos) ∈ P.sourceMap.markers.filter fun m => (m.1 : ℤ) ≤ pc := List.mem_filter.mpr ⟨hm, decide_eq_true le_rfl⟩
  have hsorted := List.Pairwise.filter (fun m => decide ((m.1 : ℤ) ≤ pc)) h
  have hle (m : ℕ × Pos) (hm : m ∈ P.sourceMap.markers.filter fun m => (m.1 : ℤ) ≤ pc) : m.1 ≤ pc :=
    Int.ofNat_le.mp (of_decide_eq_true (List.mem_filter.mp hm).2)
  unfold SourceMap.lookup
  generalize (P.sourceMap.markers.filter fun m => (m.1 : ℤ) ≤ pc) = upTo at hin hsorted hle
  rcases List.eq_nil_or_concat upTo with rfl | ⟨init, last, rfl⟩
  · exact absurd hin List.not_mem_nil
  · rw [List.concat_eq_append] at hin hsorted hle ⊢
    rw [List.getLast?_append_cons]
    rcases List.mem_append.mp hin with hinit | hlast
    · have hlt := (List.pairwise_append.mp hsorted).2.2 (pc, pos) hinit last (List.mem_singleton_self last)
      have hle := hle last (List.mem_append_right _ (List.mem_singleton_self last))
      omega
    · rw [← List.mem_singleton.mp hlast]
      rfl

theorem exists_first {path : String} {line l pc : ℕ} (h : Carries P path line l pc) : ∃ l pc, First P path line l pc := by
  obtain ⟨x, hx, hleast⟩ := wellFounded_lt.has_min {x : ℕ ×ₗ ℕ | Carries P path line (ofLex x).1 (ofLex x).2} ⟨toLex (l, pc), h⟩
  refine ⟨(ofLex x).1, (ofLex x).2, hx, fun l' pc' h' => ?_⟩
  have hnot := hleast (toLex (l', pc')) h'
  rw [Prod.Lex.lt_iff] at hnot
  simp only [ofLex_toLex] at hnot
  omega

theorem Marked.carries (h : Laid P) {i line l pc : ℕ} (hi : i < P.functions.length) (hl : line ≤ l) (hmarked : Marked P i l pc) :
    Carries P (sourceFile P i) line l pc := by
  obtain ⟨hat, pos, hm, rfl⟩ := hmarked
  refine ⟨hl, hat.2.trans_le (h.range_le i), ?_, i, List.mem_range.mpr hi, rfl, hat⟩
  rw [lineOf, lookup_marker h.ascends hm]
  rfl

/-- The instruction that has a marker of its own. -/
theorem Carries.marked (h : P.sourceMap.Ascends) {path : String} {line l pc : ℕ} (hcarries : Carries P path line l pc)
    {m : ℕ × Pos} (hm : m ∈ P.sourceMap.markers) (hpc : m.1 = pc) :
    ∃ i < P.functions.length, sourceFile P i = path ∧ Marked P i l pc := by
  subst hpc
  obtain ⟨-, -, hline, i, hi, hfile, hat⟩ := hcarries
  rw [lineOf, lookup_marker h hm] at hline
  exact ⟨i, List.mem_range.mp hi, hfile, hat, m.2, hm, Option.some.inj hline⟩

theorem add_pc (d : State) (pc i line : ℕ) : (d.add P pc i line).1.pc = pc := by
  unfold State.add
  split
  · rename_i bp hbp
    have hpc := List.find?_some hbp
    exact of_decide_eq_true hpc
  · rfl

theorem add_new {d : State} {pc : ℕ} (i line : ℕ) (h : ∀ old ∈ d.breakpoints, old.pc ≠ pc) :
    (d.add P pc i line).1.line = line ∧ (d.add P pc i line).1.file = sourceFile P i := by
  unfold State.add
  split
  · rename_i bp hbp
    have hpc := List.find?_some hbp
    exact absurd (of_decide_eq_true hpc) (h bp (List.mem_of_find?_eq_some hbp))
  · exact ⟨rfl, rfl⟩

theorem breakAtLineCalls_succ {n : ℕ} {d : State} {line : ℕ} {file : String} {r : Except String Breakpoint × State}
    (h : State.breakAtLineCalls P sep n d line file = some r) : State.breakAtLineCalls P sep (n + 1) d line file = some r := by
  induction n generalizing line with
  | zero => cases h
  | succ n ih =>
    rw [State.breakAtLineCalls] at h ⊢
    dsimp only at h ⊢
    by_cases hempty : functionsInFile P sep (if file = "" then entryFile P else file) = []
    · rw [if_pos hempty] at h ⊢
      exact h
    · rw [if_neg hempty] at h ⊢
      split at h
      · exact h
      · split at h
        · exact h
        · exact ih h

/-- However many calls it takes, -/
theorem breakAtLineCalls_result {n : ℕ} {d : State} {line : ℕ} {file : String} {r : Except String Breakpoint × State}
    (h : State.breakAtLineCalls P sep n d line file = some r) : r = d.breakAtLine P sep line file := by
  have h₂ := breakAtLineCalls_succ (breakAtLineCalls_succ h)
  rw [breakAtLineCalls_eq] at h₂
  exact (Option.some.inj h₂).symm

theorem places_iff (h : Laid P) (d : State) (line : ℕ) {path : String} (hpath : path ≠ "") :
    Places P sep d path line ↔ Undisturbed P sep path line := by
  have hcases := breakAtLine_cases P sep d line hpath
  have hmine {i l pc : ℕ} (hi : i ∈ functionsInFile P sep path) (hl : line ≤ l) (hmarked : Marked P i l pc)
      (hfile : sourceFile P i = path) : Carries P path line l pc :=
    hfile ▸ hmarked.carries h (mem_functionsInFile hi) hl
  constructor
  · rintro ⟨n, r, hr, hok, herror⟩
    rw [breakAtLineCalls_result hr] at hok herror
    rcases hcases with ⟨hnone, e, he⟩ | ⟨l₀, pc₀, i₀, hi₀, hl₀, hmarked₀, hresult, hleast⟩
    · rw [he] at hok
      refine ⟨fun i hi _ m hm hat hle => absurd ⟨hat, m.2, hm, rfl⟩ (hnone m.2.line hle i hi m.1), fun l pc hfirst => ?_⟩
      obtain ⟨bp, hbp, -⟩ := hok l pc hfirst
      cases hbp
    · rw [hresult] at hok herror
      have hplaced {l pc : ℕ} (hfirst : First P path line l pc) : pc₀ = pc := by
        obtain ⟨bp, hbp, hpc, -⟩ := hok l pc hfirst
        cases hbp
        rw [← hpc, add_pc]
      obtain ⟨pos₀, hm₀, hline₀⟩ := hmarked₀.2
      refine ⟨fun i hi hother m hm hat hle => ?_, fun l pc hfirst => ⟨(pc₀, pos₀), hm₀, hplaced hfirst⟩⟩
      have hsome : ∃ l pc, Carries P path line l pc := by
        by_contra hnone
        push Not at hnone
        obtain ⟨e, he⟩ := herror hnone
        cases he
      obtain ⟨l, pc, hcarries⟩ := hsome
      obtain ⟨l, pc, hfirst⟩ := exists_first hcarries
      obtain rfl := hplaced hfirst
      -- the pc is in a function of the file, so not in the other one
      obtain ⟨i', hi', hfile, hat', pos', hm', rfl⟩ := hfirst.carries.marked h.ascends hm₀ rfl
      have hpos : pos' = pos₀ := Option.some.inj ((lookup_marker h.ascends hm').symm.trans (lookup_marker h.ascends hm₀))
      have hne : m.1 ≠ pc₀ := by
        rintro heq
        rw [heq] at hat
        exact hother (hat.unique (mem_functionsInFile hi) hi' hat' ▸ hfile)
      refine ⟨_, pc₀, hfirst.carries, ?_⟩
      have hbefore := hleast m.2.line hle i hi m.1 ⟨hat, m.2, hm, rfl⟩
      rw [hpos, hline₀]
      omega
  · rintro ⟨hothers, hown⟩
    refine ⟨2, d.breakAtLine P sep line path, breakAtLineCalls_eq .., fun l pc hfirst => ?_, fun hnone => ?_⟩
    · obtain ⟨m, hm, hpc⟩ := hown l pc hfirst
      obtain ⟨i, hi, hfile, hmarked⟩ := hfirst.carries.marked h.ascends hm hpc
      have hin : i ∈ functionsInFile P sep path := mem_functionsInFile_of_eq hi hfile
      rcases hcases with ⟨hnone, -⟩ | ⟨l₀, pc₀, i₀, hi₀, hl₀, hmarked₀, hresult, hleast⟩
      · exact absurd hmarked (hnone l hfirst.carries.1 i hin pc)
      · have hle := hleast l hfirst.carries.1 i hin pc hmarked
        have hfile₀ : sourceFile P i₀ = path := by
          by_contra hother
          obtain ⟨pos₀, hm₀, rfl⟩ := hmarked₀.2
          obtain ⟨l', pc', hcarries, hlt⟩ := hothers i₀ hi₀ hother (pc₀, pos₀) hm₀ hmarked₀.1 hl₀
          have hge := hfirst.least l' pc' hcarries
          dsimp only at hlt
          omega
        have hge := hfirst.least l₀ pc₀ (hmine hi₀ hl₀ hmarked₀ hfile₀)
        obtain ⟨rfl, rfl⟩ : l₀ = l ∧ pc₀ = pc := by omega
        refine ⟨_, by rw [hresult], add_pc .., fun hnew => ?_⟩
        rw [← hfile₀]
        exact add_new i₀ l₀ hnew
    · rcases hcases with ⟨-, e, he⟩ | ⟨l₀, pc₀, i₀, hi₀, hl₀, hmarked₀, -, -⟩
      · exact ⟨e, by rw [he]⟩
      · exfalso
        by_cases hfile : sourceFile P i₀ = path
        · exact hnone l₀ pc₀ (hmine hi₀ hl₀ hmarked₀ hfile)
        · obtain ⟨pos₀, hm₀, rfl⟩ := hmarked₀.2
          obtain ⟨l', pc', hcarries, -⟩ := hothers i₀ hi₀ hfile (pc₀, pos₀) hm₀ hmarked₀.1 hl₀
          exact hnone l' pc' hcarries

end Placing

section Programs

theorem compile_laid {fuel : ℕ} {program : Program} {g : Generated} (h : compile fuel program = .ok g) : Laid g.program :=
  ⟨compile_ascends h, compile_entries h⟩

/-- In a compiled program a line's breakpoint is placed right exactly where no other file
of the same suffix comes first and the instruction has a marker of its own. -/
theorem break_at_line_exact {fuel : ℕ} {program : Program} {g : Generated} (h : compile fuel program = .ok g) (sep : Char)
    (d : State) {path : String} (hpath : path ≠ "") (line : ℕ) :
    Places g.program sep d path line ↔ Undisturbed g.program sep path line :=
  places_iff (compile_laid h) d line hpath

/-- `/a.ql` with `main` on line 7, and `/x/a.ql` with `helper` on line 5, each a function
that prints. -/
def twinSource : Program where
  functions := [
    { name := "helper", params := [], returnType := none, sourceFile := "/x/a.ql"
      body := [.println ⟨5, 5⟩ (.literal ⟨5, 13⟩ (.int 1))] },
    { name := "main", params := [], returnType := none, sourceFile := "/a.ql"
      body := [.println ⟨7, 5⟩ (.literal ⟨7, 13⟩ (.int 2))] }]

theorem twin_layout : ∃ g, compile 1 twinSource = .ok g ∧ (g.program.functions.length = 2 ∧ g.program.code.length = 8) ∧
    (∀ i, sourceFile g.program i = ((["/x/a.ql", "/a.ql"] : List String)[i]?).getD "") ∧
    (functionRange g.program 0 = (0, 4) ∧ functionRange g.program 1 = (4, 8)) ∧
    (functionsInFile g.program '/' "/a.ql" = [0, 1] ∧ functionsInFile g.program '/' "/x/a.ql" = [0]) ∧
    ((0, ⟨5, 13⟩) ∈ g.program.sourceMap.markers ∧ (1, ⟨5, 5⟩) ∈ g.program.sourceMap.markers) ∧
    ∀ pc < 8, lineOf g.program pc = some (if pc < 4 then 5 else 7) := by
  have h : (compile 1 twinSource).toOption.map (fun g =>
      (g.program.functions.map FunctionInfo.entryPc, g.program.functions.map FunctionInfo.sourceFile, g.program.code.length)) =
      some ([0, 4], ["/x/a.ql", "/a.ql"], 8) := by decide +kernel
  have hmap : (compile 1 twinSource).toOption.map (fun g =>
      decide (functionsInFile g.program '/' "/a.ql" = [0, 1] ∧ functionsInFile g.program '/' "/x/a.ql" = [0]) &&
      decide ((0, ⟨5, 13⟩) ∈ g.program.sourceMap.markers ∧ (1, ⟨5, 5⟩) ∈ g.program.sourceMap.markers) &&
      (List.range 8).all fun pc => decide (lineOf g.program pc = some (if pc < 4 then 5 else 7))) = some true := by decide +kernel
  cases hg : compile 1 twinSource with
  | error e =>
    rw [hg] at h
    cases h
  | ok g =>
    rw [hg] at h hmap
    have h := Option.some.inj h
    have hmap := Option.some.inj hmap
    simp only [Prod.mk.injEq] at h
    obtain ⟨hentries, hfiles, hcode⟩ := h
    simp only [Bool.and_eq_true, decide_eq_true_eq, List.all_eq_true, List.mem_range] at hmap
    obtain ⟨⟨hmatch, hmarkers⟩, hlines⟩ := hmap
    have hlen : g.program.functions.length = 2 := by simpa using congrArg List.length hentries
    have hentry (i : ℕ) : entryOf g.program i = (([0, 4] : List ℕ)[i]?).getD 0 := by
      rw [← hentries, List.getElem?_map]
      rfl
    have hfile (i : ℕ) : sourceFile g.program i = ((["/x/a.ql", "/a.ql"] : List String)[i]?).getD "" := by
      rw [← hfiles, List.getElem?_map]
      rfl
    have hsorted : (List.range g.program.functions.length).Pairwise fun i j => entryOf g.program i ≤ entryOf g.program j := by
      rw [hlen]
      simp [List.range_succ, hentry]
    refine ⟨g, rfl, ⟨hlen, hcode⟩, hfile, ⟨?_, ?_⟩, hmatch, hmarkers, hlines⟩
    · rw [functionRange_eq hsorted (by omega), hlen, hentry, hentry]
      rfl
    · rw [functionRange_eq hsorted (by omega), hlen, hentry, hcode]
      rfl

/-- From line 4 of `/x/a.ql` the breakpoint goes to its function. -/
theorem break_at_line_twin : ∃ g, compile 1 twinSource = .ok g ∧ Places g.program '/' {} "/x/a.ql" 4 := by
  obtain ⟨g, hg, ⟨hlen, hcode⟩, hfile, ⟨hfirst, hsecond⟩, ⟨-, hmatch⟩, ⟨hmarker, -⟩, hlines⟩ := twin_layout
  refine ⟨g, hg, (break_at_line_exact hg '/' {} (by decide) 4).mpr ⟨fun i hi hother => ?_, fun l pc h => ?_⟩⟩
  · rw [hmatch] at hi
    obtain rfl := List.mem_singleton.mp hi
    exact absurd (hfile 0) hother
  · -- its first instruction is that of the file, as all of it is on line 5
    have hmine : Carries g.program "/x/a.ql" 4 5 0 := by
      refine ⟨by decide, by rw [hcode]; decide, hlines 0 (by decide), 0, ?_, hfile 0, ?_⟩
      · rw [List.mem_range, hlen]
        decide
      · unfold Occupies
        rw [hfirst]
        decide
    obtain ⟨-, hpc, hline, i, hi, hpath, hat⟩ := h.carries
    have hpc4 : pc < 4 := by
      rw [List.mem_range, hlen] at hi
      rw [hfile] at hpath
      interval_cases i
      · unfold Occupies at hat
        rw [hfirst] at hat
        exact hat.2
      · exact absurd hpath (by decide)
    have hfive := hlines pc (by omega)
    rw [if_pos hpc4] at hfive
    have hl : l = 5 := Option.some.inj (hline.symm.trans hfive)
    have hleast := h.least 5 0 hmine
    exact ⟨_, hmarker, by omega⟩

/-- From line 4 of `/a.ql` the breakpoint goes to the other file. -/
theorem twin_misplaced : ∃ g, compile 1 twinSource = .ok g ∧
    (∃ bp, (({} : State).breakAtLine g.program '/' 4 "/a.ql").1 = .ok bp ∧ bp.file = "/x/a.ql") ∧
    First g.program "/a.ql" 4 7 4 ∧ ¬ Places g.program '/' {} "/a.ql" 4 := by
  obtain ⟨g, hg, ⟨hlen, hcode⟩, hfile, ⟨hfirst, hsecond⟩, ⟨hmatch, -⟩, ⟨-, hother⟩, hlines⟩ := twin_layout
  have hcarries {l pc : ℕ} (h : Carries g.program "/a.ql" 4 l pc) : l = 7 ∧ 4 ≤ pc := by
    obtain ⟨-, hpc, hline, i, hi, hpath, hat⟩ := h
    rw [List.mem_range, hlen] at hi
    rw [hfile] at hpath
    interval_cases i
    · exact absurd hpath (by decide)
    · unfold Occupies at hat
      rw [hsecond] at hat
      have hseven := (hlines pc hat.2).trans (by rw [if_neg (Nat.not_lt.mpr hat.1)])
      exact ⟨Option.some.inj (hline.symm.trans hseven), hat.1⟩
  have hmine : Carries g.program "/a.ql" 4 7 4 := by
    refine ⟨by decide, by rw [hcode]; decide, hlines 4 (by decide), 1, ?_, ?_, ?_⟩
    · rw [List.mem_range, hlen]
      decide
    · rw [hfile]
      rfl
    · unfold Occupies
      rw [hsecond]
      decide
  have hhelper : Occupies g.program 0 1 := by
    unfold Occupies
    rw [hfirst]
    decide
  have hin : 0 ∈ functionsInFile g.program '/' "/a.ql" := by
    rw [hmatch]
    exact List.mem_cons_self
  refine ⟨g, hg, ?_, ⟨hmine, fun l' pc' h' => .inr ⟨(hcarries h').1.symm, (hcarries h').2⟩⟩, fun hplaces => ?_⟩
  · rcases breakAtLine_cases g.program '/' {} 4 (show "/a.ql" ≠ "" by decide) with ⟨hnone, -⟩ | ⟨l, pc, i, hi, hl, hmarked, hresult, hleast⟩
    · exact absurd ⟨hhelper, ⟨5, 5⟩, hother, rfl⟩ (hnone 5 (by decide) 0 hin 1)
    · have hle := hleast 5 (by decide) 0 hin 1 ⟨hhelper, ⟨5, 5⟩, hother, rfl⟩
      have hfirst : i = 0 := by
        have hcarried := hmarked.carries (compile_laid hg) (mem_functionsInFile hi) hl
        rw [hmatch] at hi
        rcases List.mem_cons.mp hi with hi | hi
        · exact hi
        · obtain rfl := List.mem_singleton.mp hi
          rw [hfile 1] at hcarried
          have hseven := (hcarries hcarried).1
          omega
      subst hfirst
      refine ⟨_, by rw [hresult], ?_⟩
      rw [(add_new 0 l fun old hold => absurd hold List.not_mem_nil).2, hfile]
      rfl
  · have hothers := ((places_iff (compile_laid hg) {} 4 (by decide)).mp hplaces).others 0 hin (by rw [hfile]; decide)
      (1, ⟨5, 5⟩) hother hhelper (by decide)
    obtain ⟨l, pc, hcarried, hbefore⟩ := hothers
    have hseven := (hcarries hcarried).1
    dsimp only at hbefore
    omega

end Programs

end QuinLang.Debugger
