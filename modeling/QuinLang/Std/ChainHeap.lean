import QuinLang.Collection.HeapRuns
import QuinLang.Std.Chains

/-! The cells of lists as blocks of the heap: a collection moves them the way the functions of
`std/list.ql` are proved for. The elements here are words that are no references. -/

namespace QuinLang.Std.Chains

open ByteMem Worklist

section Cells

/-- The type of a cell: an element, and the reference to the next cell. -/
def CellLayout (P : CompiledProgram) (t : ℕ) : Prop :=
  ∃ layout, P.structs[t]? = some (some layout) ∧ layout.wordSize = 2 ∧ layout.refOffsets = [1]

/-- The blocks that are cells, in the order of the heap. -/
def cellBlocks (m : Mem) (t : ℕ) (bs : List ℕ) : List ℕ := bs.filter fun b => kind m b = KIND_STRUCT ∧ detail m b = t

/-- An address as a reference to one of the cells. -/
def refAt (nodes : List ℕ) (r : ℕ) : ℕ := if r = NULL_ADDR then 0 else nodes.idxOf (r - HEADER_BYTES) + 1

def cellOf (m : Mem) (nodes : List ℕ) (b : ℕ) : Cell ℕ :=
  ⟨readWord m (b + HEADER_BYTES), refAt nodes (readWord m (b + HEADER_BYTES + 2))⟩

/-- The cells of a heap, with the addresses that a program holds. -/
def stateOf (m : Mem) (nodes : List ℕ) (vars : Locals) (others : List ℕ) : State ℕ where
  cells := nodes.map (cellOf m nodes)
  vars := vars.map (refAt nodes)
  others := others.map (refAt nodes)

def Locals.words (v : Locals) : List ℕ := [v.head, v.out, v.tail, v.cur, v.node]

variable {W : Type} {P : CompiledProgram} {s s' : VM W} {bs live nodes : List ℕ} {t : ℕ} {vars : Locals} {others : List ℕ}

/-- What the program holds is null or a root that leads to a cell, and so are all links. -/
structure ListHeap (P : CompiledProgram) (s : VM W) (bs : List ℕ) (t : ℕ) (vars : Locals) (others : List ℕ) : Prop where
  layout : CellLayout P t
  held : ∀ r ∈ vars.words ++ others, r = NULL_ADDR ∨
    r ∈ s.roots P ∧ ∃ b ∈ cellBlocks s.heap t bs, r = b + HEADER_BYTES
  links : ∀ b ∈ cellBlocks s.heap t bs, readWord s.heap (b + HEADER_BYTES + 2) = NULL_ADDR ∨
    ∃ c ∈ cellBlocks s.heap t bs, readWord s.heap (b + HEADER_BYTES + 2) = c + HEADER_BYTES

theorem mem_cellBlocks {m : Mem} {b : ℕ} : b ∈ cellBlocks m t bs ↔ b ∈ bs ∧ kind m b = KIND_STRUCT ∧ detail m b = t := by
  rw [cellBlocks, List.mem_filter, decide_eq_true_eq]

theorem refAt_null (nodes : List ℕ) : refAt nodes NULL_ADDR = 0 := if_pos rfl

theorem refAt_block (nodes : List ℕ) (b : ℕ) : refAt nodes (b + HEADER_BYTES) = nodes.idxOf b + 1 := by
  have hne : b + HEADER_BYTES ≠ NULL_ADDR := by simp only [HEADER_BYTES, NULL_ADDR]; omega
  rw [refAt, if_neg hne, Nat.add_sub_cancel]

theorem getElem?_idxOf {b : ℕ} (hb : b ∈ nodes) : nodes[nodes.idxOf b]? = some b := by
  have hlt := List.idxOf_lt_length_of_mem hb
  rw [List.getElem?_eq_getElem hlt, List.getElem_idxOf hlt]

theorem refWords_cell (hlayout : CellLayout P t) {b : ℕ} (hb : b ∈ cellBlocks s.heap t bs) :
    refWords P s.heap (b + HEADER_BYTES) = [b + HEADER_BYTES + 2] := by
  obtain ⟨layout, hstruct, -, hoffsets⟩ := hlayout
  obtain ⟨-, hkind, hdetail⟩ := mem_cellBlocks.mp hb
  simp only [refWords, Nat.add_sub_cancel, hkind, if_true, hdetail, hstruct, hoffsets, List.map_cons, List.map_nil, Nat.one_mul]

theorem blockBytes_cell (hlayout : CellLayout P t) {b : ℕ} (hb : b ∈ cellBlocks s.heap t bs) :
    blockBytes P s.heap b = HEADER_BYTES + 4 := by
  obtain ⟨layout, hstruct, hsize, -⟩ := hlayout
  obtain ⟨-, hkind, hdetail⟩ := mem_cellBlocks.mp hb
  simp only [blockBytes, payloadBytes, payloadSize, hkind, if_true, hdetail, hstruct, hsize]
  rfl

end Cells

section Collected

variable {W : Type} {P : CompiledProgram} {s s' : VM W} {bs live : List ℕ} {t : ℕ} {vars : Locals} {others : List ℕ}

/-- The cells after a collection. -/
def cellsAfter (P : CompiledProgram) (s s' : VM W) (live : List ℕ) (t : ℕ) : List ℕ :=
  cellBlocks s'.heap t (live.map (destOf P s.heap live))

/-- Where a collection takes a reference to a cell. -/
def moveOf (P : CompiledProgram) (s s' : VM W) (bs live : List ℕ) (t r : ℕ) : ℕ :=
  if r = 0 then 0
  else refAt (cellsAfter P s s' live t) (destOf P s.heap live ((cellBlocks s.heap t bs).getD (r - 1) 0) + HEADER_BYTES)

theorem moveOf_block {b : ℕ} (hb : b ∈ cellBlocks s.heap t bs) :
    moveOf P s s' bs live t ((cellBlocks s.heap t bs).idxOf b + 1) =
      (cellsAfter P s s' live t).idxOf (destOf P s.heap live b) + 1 := by
  rw [moveOf, if_neg (Nat.succ_ne_zero _), Nat.add_sub_cancel, List.getD_eq_getElem?_getD, getElem?_idxOf hb, refAt_block]
  rfl

/-- Survivors keep apart. -/
theorem dest_inj (hc : Collected P s s' bs live) {b c : ℕ} (hb : b ∈ live) (hc' : c ∈ live)
    (h : destOf P s.heap live b = destOf P s.heap live c) : b = c := by
  have hnodup : (live.map (destOf P s.heap live)).Nodup := hc.tiled.blocks.tiles.sorted.imp fun h => Nat.ne_of_lt h
  exact List.inj_on_of_nodup_map hnodup hb hc' h

theorem mem_cellsAfter (hc : Collected P s s' bs live) {b : ℕ} (hb : b ∈ cellBlocks s.heap t bs) (hlive : b ∈ live) :
    destOf P s.heap live b ∈ cellsAfter P s s' live t := by
  obtain ⟨-, hkind, hdetail⟩ := mem_cellBlocks.mp hb
  exact mem_cellBlocks.mpr ⟨List.mem_map_of_mem hlive, (hc.kind b hlive).trans hkind, (hc.detail b hlive).trans hdetail⟩

theorem blockOf_cell (h : HeapTiled P s bs) (hlayout : CellLayout P t) {b : ℕ} (hb : b ∈ cellBlocks s.heap t bs) :
    b + HEADER_BYTES < stopOf P s.heap b ∧ blockOf (stopOf P s.heap) bs (b + HEADER_BYTES) = some b := by
  have hstop : b + HEADER_BYTES < stopOf P s.heap b := by
    have hbytes := blockBytes_cell hlayout hb
    simp only [blockBytes] at hbytes
    simp only [stopOf]
    omega
  exact ⟨hstop, blockOf_eq_some h.blocks.tiles (mem_cellBlocks.mp hb).1 le_rfl hstop⟩

/-- A reference to a survivor leads to where it is. -/
theorem forwarded_cell (h : HeapTiled P s bs) (hlayout : CellLayout P t) {b : ℕ} (hb : b ∈ cellBlocks s.heap t bs) (hlive : b ∈ live) :
    forwarded P s bs live (b + HEADER_BYTES) = destOf P s.heap live b + HEADER_BYTES := by
  obtain ⟨hstop, -⟩ := blockOf_cell h hlayout hb
  rw [forwarded, relocate_of_mem h.blocks.tiles (mem_cellBlocks.mp hb).1 hlive le_rfl hstop, Nat.add_sub_cancel_left]

/-- An address that is null or leads to a surviving cell. -/
def Leads (s : VM W) (bs live : List ℕ) (t r : ℕ) : Prop :=
  r = NULL_ADDR ∨ ∃ b ∈ cellBlocks s.heap t bs, b ∈ live ∧ r = b + HEADER_BYTES

theorem moveOf_refAt (h : HeapTiled P s bs) (hlayout : CellLayout P t) {r : ℕ} (hr : Leads s bs live t r) :
    moveOf P s s' bs live t (refAt (cellBlocks s.heap t bs) r) = refAt (cellsAfter P s s' live t) (forwarded P s bs live r) := by
  rcases hr with rfl | ⟨b, hb, hlive, rfl⟩
  · rw [refAt_null, forwarded, relocate_null, refAt_null]
    rfl
  · rw [refAt_block, moveOf_block hb, forwarded_cell h hlayout hb hlive, refAt_block]

theorem ListHeap.leads (hl : ListHeap P s bs t vars others) (h : HeapTiled P s bs) (hc : Collected P s s' bs live) {r : ℕ}
    (hr : r ∈ vars.words ++ others) : Leads s bs live t r := by
  rcases hl.held r hr with hnull | ⟨hroot, b, hb, rfl⟩
  · exact .inl hnull
  · exact .inr ⟨b, hb, (hc.mem_live b).mpr ⟨(mem_cellBlocks.mp hb).1, .root hroot (blockOf_cell h hl.layout hb).2⟩, rfl⟩

/-- The link of a survivor leads to a survivor. -/
theorem ListHeap.link_leads (hl : ListHeap P s bs t vars others) (h : HeapTiled P s bs) (hc : Collected P s s' bs live) {b : ℕ}
    (hb : b ∈ cellBlocks s.heap t bs) (hlive : b ∈ live) : Leads s bs live t (readWord s.heap (b + HEADER_BYTES + 2)) := by
  have hheld : readWord s.heap (b + HEADER_BYTES + 2) ∈ heldRefs P s.heap b := by
    rw [heldRefs, refWords_cell hl.layout hb]
    exact List.mem_singleton_self _
  rcases hl.links b hb with hnull | ⟨c, hcell, hlink⟩
  · exact .inl hnull
  · rw [hlink] at hheld
    refine .inr ⟨c, hcell, (hc.mem_live c).mpr ⟨(mem_cellBlocks.mp hcell).1, ?_⟩, hlink⟩
    exact .step ((hc.mem_live b).mp hlive).2 hheld (blockOf_cell h hl.layout hcell).2

/-- Whatever the functions can reach is null or a cell that survives. -/
theorem ListHeap.reached (hl : ListHeap P s bs t vars others) (h : HeapTiled P s bs) (hc : Collected P s s' bs live) {r : ℕ}
    (hr : Reached (stateOf s.heap (cellBlocks s.heap t bs) vars others) r) :
    r = 0 ∨ ∃ b ∈ cellBlocks s.heap t bs, b ∈ live ∧ r = (cellBlocks s.heap t bs).idxOf b + 1 := by
  have hleads : ∀ r, Leads s bs live t r → refAt (cellBlocks s.heap t bs) r = 0 ∨
      ∃ b ∈ cellBlocks s.heap t bs, b ∈ live ∧ refAt (cellBlocks s.heap t bs) r = (cellBlocks s.heap t bs).idxOf b + 1 := by
    rintro r (rfl | ⟨b, hb, hlive, rfl⟩)
    · exact .inl (refAt_null _)
    · exact .inr ⟨b, hb, hlive, refAt_block _ b⟩
  induction hr with
  | null => exact .inl rfl
  | head => exact hleads _ (hl.leads h hc (by simp [Locals.words]))
  | out => exact hleads _ (hl.leads h hc (by simp [Locals.words]))
  | tail => exact hleads _ (hl.leads h hc (by simp [Locals.words]))
  | cur => exact hleads _ (hl.leads h hc (by simp [Locals.words]))
  | node => exact hleads _ (hl.leads h hc (by simp [Locals.words]))
  | other hr =>
    obtain ⟨word, hword, rfl⟩ := List.mem_map.mp hr
    exact hleads word (hl.leads h hc (List.mem_append_right _ hword))
  | @next k c _ hcell ih =>
    rcases ih with hnull | ⟨b, hb, hlive, heq⟩
    · cases hnull
    · obtain rfl := Nat.succ.inj heq
      have hself : (stateOf s.heap (cellBlocks s.heap t bs) vars others).cells[(cellBlocks s.heap t bs).idxOf b]? =
          some (cellOf s.heap (cellBlocks s.heap t bs) b) := by
        rw [stateOf, List.getElem?_map, getElem?_idxOf hb]
        rfl
      obtain rfl := Option.some.inj (hself.symm.trans hcell)
      exact hleads _ (hl.link_leads h hc hb hlive)

/-- A survivor holds the same element, and its link follows the cell that it leads to. -/
theorem cellOf_moved (hl : ListHeap P s bs t vars others) (h : HeapTiled P s bs) (hc : Collected P s s' bs live) {b : ℕ}
    (hb : b ∈ cellBlocks s.heap t bs) (hlive : b ∈ live) :
    cellOf s'.heap (cellsAfter P s s' live t) (destOf P s.heap live b) =
      { cellOf s.heap (cellBlocks s.heap t bs) b with
        next := moveOf P s s' bs live t (cellOf s.heap (cellBlocks s.heap t bs) b).next } := by
  have hwords := refWords_cell hl.layout hb
  have hbytes := blockBytes_cell hl.layout hb
  have hbyte : ∀ i, HEADER_BYTES ≤ i → i < HEADER_BYTES + 2 → s'.heap (destOf P s.heap live b + i) = s.heap (b + i) := by
    intro i hlo hhi
    refine hc.byte b hlive i hlo (by omega) fun a ha => ?_
    rw [hwords, List.mem_singleton] at ha
    omega
  have hvalue : readWord s'.heap (destOf P s.heap live b + HEADER_BYTES) = readWord s.heap (b + HEADER_BYTES) :=
    readWord_congr (hbyte _ le_rfl (by omega)) (hbyte (HEADER_BYTES + 1) (by omega) (by omega))
  have hnext : readWord s'.heap (destOf P s.heap live b + HEADER_BYTES + 2) =
      forwarded P s bs live (readWord s.heap (b + HEADER_BYTES + 2)) := by
    have hword := hc.refWord b hlive (b + HEADER_BYTES + 2) (by rw [hwords]; exact List.mem_singleton_self _)
    rwa [Nat.add_assoc b, Nat.add_sub_cancel_left, ← Nat.add_assoc, ← Nat.add_assoc] at hword
  simp only [cellOf, hvalue, hnext, moveOf_refAt h hl.layout (hl.link_leads h hc hb hlive)]

/-- What a collection of the heap does to the cells is what the functions allow for. -/
theorem collected_moved (hl : ListHeap P s bs t vars others) (h : HeapTiled P s bs) (hc : Collected P s s' bs live) :
    Moved (stateOf s.heap (cellBlocks s.heap t bs) vars others)
      (stateOf s'.heap (cellsAfter P s s' live t) (vars.map (forwarded P s bs live)) (others.map (forwarded P s bs live)))
      (moveOf P s s' bs live t) := by
  have hword : ∀ r ∈ vars.words ++ others, refAt (cellsAfter P s s' live t) (forwarded P s bs live r) =
      moveOf P s s' bs live t (refAt (cellBlocks s.heap t bs) r) :=
    fun r hr => (moveOf_refAt h hl.layout (hl.leads h hc hr)).symm
  refine ⟨?_, ?_, if_pos rfl, fun k c hr hcell => ?_, fun a b ha hb heq => ?_⟩
  · simp only [stateOf, Locals.map, Locals.mk.injEq]
    exact ⟨hword _ (by simp [Locals.words]), hword _ (by simp [Locals.words]), hword _ (by simp [Locals.words]),
      hword _ (by simp [Locals.words]), hword _ (by simp [Locals.words])⟩
  · simp only [stateOf, List.map_map]
    exact List.map_congr_left fun r hr => hword r (List.mem_append_right _ hr)
  · rcases hl.reached h hc hr with hnull | ⟨b, hb, hlive, heq⟩
    · cases hnull
    · obtain rfl := Nat.succ.inj heq
      rw [stateOf, List.getElem?_map, getElem?_idxOf hb] at hcell
      cases hcell
      refine ⟨_, moveOf_block hb, ?_⟩
      rw [stateOf, List.getElem?_map, getElem?_idxOf (mem_cellsAfter hc hb hlive)]
      exact congrArg some (cellOf_moved hl h hc hb hlive)
  · rcases hl.reached h hc ha with rfl | ⟨b₁, hb₁, hlive₁, rfl⟩
    · rcases hl.reached h hc hb with rfl | ⟨b₂, hb₂, -, rfl⟩
      · rfl
      · rw [moveOf_block hb₂] at heq
        cases heq
    · rcases hl.reached h hc hb with rfl | ⟨b₂, hb₂, hlive₂, rfl⟩
      · rw [moveOf_block hb₁] at heq
        cases heq
      · rw [moveOf_block hb₁, moveOf_block hb₂] at heq
        have hdest := (List.idxOf_inj (mem_cellsAfter hc hb₁ hlive₁)).mp (Nat.succ.inj heq)
        rw [dest_inj hc hlive₁ hlive₂ hdest]

/-- Every collection of a heap that holds lists moves them so, and leaves in each place of the
program the word that its reference has become. -/
theorem collect_moved (hP : StackMapsOk P) (h : HeapTiled P s bs) (hl : ListHeap P s bs t vars others) :
    ∃ s' live, s.collect P = .ok s' ∧ Collected P s s' bs live ∧
      Moved (stateOf s.heap (cellBlocks s.heap t bs) vars others)
        (stateOf s'.heap (cellsAfter P s s' live t) (vars.map (forwarded P s bs live)) (others.map (forwarded P s bs live)))
        (moveOf P s s' bs live t) := by
  obtain ⟨s', live, hrun, hc⟩ := collect_spec hP h
  exact ⟨s', live, hrun, hc, collected_moved hl h hc⟩

/-- Every list that the program holds has its elements after a collection. -/
theorem collect_keeps_lists (hP : StackMapsOk P) (h : HeapTiled P s bs) (hl : ListHeap P s bs t vars others) :
    ∃ s' live, s.collect P = .ok s' ∧ Collected P s s' bs live ∧ ∀ r ∈ others, ∀ xs,
      Holds ((cellBlocks s.heap t bs).map (cellOf s.heap (cellBlocks s.heap t bs))) (refAt (cellBlocks s.heap t bs) r) xs →
      Holds ((cellsAfter P s s' live t).map (cellOf s'.heap (cellsAfter P s s' live t)))
        (refAt (cellsAfter P s s' live t) (forwarded P s bs live r)) xs := by
  obtain ⟨s', live, hrun, hc, hm⟩ := collect_moved hP h hl
  refine ⟨s', live, hrun, hc, fun r hr xs hxs => ?_⟩
  rw [← moveOf_refAt h hl.layout (hl.leads h hc (List.mem_append_right _ hr))]
  exact hm.holds hxs (.other (List.mem_map_of_mem hr))

/-- A cell that nothing leads to, and above it the list of 7 and 9, which the stack holds. -/
def heldList : VM Unit where
  stack := [⟨14, true⟩]
  heap := writeWord (writeWord (writeWord (fun _ => 0) 14 7) 16 22) 22 9
  heapPtr := 26
  io := ()

theorem heldList_tiled : HeapTiled nodeProgram heldList [2, 10, 18] := by
  refine ⟨by decide, ⟨.cons (by decide) (.cons (by decide) (.cons (by decide) (.nil 26))), ?_⟩, by decide⟩
  intro b hb
  simp only [List.mem_cons, List.not_mem_nil, or_false] at hb
  rcases hb with rfl | rfl | rfl
  · exact ⟨by decide, fun _ => ⟨_, rfl, by decide, by decide⟩, by decide⟩
  · exact ⟨by decide, fun _ => ⟨_, rfl, by decide, by decide⟩, by decide⟩
  · exact ⟨by decide, fun _ => ⟨_, rfl, by decide, by decide⟩, by decide⟩

theorem heldList_kept : ∃ s' live, heldList.collect nodeProgram = .ok s' ∧ Collected nodeProgram heldList s' [2, 10, 18] live ∧
    Holds ((cellsAfter nodeProgram heldList s' live 0).map (cellOf s'.heap (cellsAfter nodeProgram heldList s' live 0)))
      (refAt (cellsAfter nodeProgram heldList s' live 0) (forwarded nodeProgram heldList [2, 10, 18] live 14)) [7, 9] := by
  have hl : ListHeap nodeProgram heldList [2, 10, 18] 0 ⟨0, 0, 0, 0, 0⟩ [14] :=
    ⟨⟨_, rfl, rfl, rfl⟩, by decide, by decide⟩
  have hblocks : cellBlocks heldList.heap 0 [2, 10, 18] = [2, 10, 18] := by decide
  have hfirst : cellOf heldList.heap [2, 10, 18] 10 = ⟨7, 3⟩ := (Cell.mk.injEq ..).mpr ⟨by decide, by decide⟩
  have hlast : cellOf heldList.heap [2, 10, 18] 18 = ⟨9, 0⟩ := (Cell.mk.injEq ..).mpr ⟨by decide, by decide⟩
  obtain ⟨s', live, hrun, hc, hkept⟩ := collect_keeps_lists nodeProgram_tablesOk.stackMaps heldList_tiled hl
  refine ⟨s', live, hrun, hc, hkept 14 (List.mem_singleton_self 14) [7, 9] ⟨[1, 2], ?_⟩⟩
  rw [hblocks]
  exact .cons (congrArg some hfirst) (.cons (congrArg some hlast) .nil)

end Collected

end QuinLang.Std.Chains
