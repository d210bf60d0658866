import QuinLang.File.RoundTrip
import QuinLang.Runtime.Run

/-! What `--strip` leaves out plays no part in a run. -/

namespace QuinLang

/-- The program without its source map, its local names and its source files. -/
def CompiledProgram.stripped (P : CompiledProgram) : CompiledProgram :=
  { P with functions := P.functions.map FunctionInfo.withoutDebug, sourceMap := {} }

section Collector

variable {W : Type} (P : CompiledProgram)

theorem functions_stripped (i : ℕ) :
    P.stripped.functions[i]? = P.functions[i]?.map FunctionInfo.withoutDebug := by
  simp [CompiledProgram.stripped]

@[simp]
theorem blockEnd_stripped : blockEnd P.stripped = blockEnd P := rfl

@[simp]
theorem refWords_stripped : refWords P.stripped = refWords P := rfl

@[simp]
theorem containingObject_stripped : containingObject P.stripped = containingObject P := rfl

@[simp]
theorem blocksFrom_stripped : blocksFrom P.stripped = blocksFrom P := by
  with_unfolding_all rfl

@[simp]
theorem markFrom_stripped : markFrom P.stripped = markFrom P := by
  with_unfolding_all rfl

@[simp]
theorem planFrom_stripped : planFrom P.stripped = planFrom P := by
  with_unfolding_all rfl

@[simp]
theorem updateWords_stripped : updateWords P.stripped = updateWords P := by
  funext starts forward m addrs
  induction addrs generalizing m with
  | nil => rfl
  | cons addr addrs ih => simp only [updateWords, moved, containingObject_stripped, ih]

@[simp]
theorem updateBlocks_stripped : updateBlocks P.stripped = updateBlocks P := by
  funext starts forward heapPtr m addr
  fun_induction updateBlocks P starts forward heapPtr m addr with
  | case1 m addr hlt e he =>
    rw [updateBlocks, if_pos hlt, updateWords_stripped, refWords_stripped]
    split <;> simp_all
  | case2 m addr hlt m' hm e hend =>
    rw [updateBlocks, if_pos hlt, updateWords_stripped, refWords_stripped]
    split
    · simp_all
    · rename_i m₁ hm₁
      obtain rfl : m' = m₁ := Except.ok.inj (hm.symm.trans hm₁)
      rw [blockEnd_stripped]
      split <;> simp_all
  | case3 m addr hlt m' hm stop hend ih =>
    rw [updateBlocks, if_pos hlt, updateWords_stripped, refWords_stripped]
    split
    · simp_all
    · rename_i m₁ hm₁
      obtain rfl : m' = m₁ := Except.ok.inj (hm.symm.trans hm₁)
      rw [blockEnd_stripped]
      split <;> simp_all
  | case4 m addr hlt => rw [updateBlocks, if_neg hlt]

@[simp]
theorem slideBlocks_stripped : slideBlocks P.stripped = slideBlocks P := by
  funext forward hdrs m top stats
  induction hdrs generalizing m top stats with
  | nil => rfl
  | cons hdr hdrs ih => simp only [slideBlocks, blockEnd_stripped, ih]

@[simp]
theorem refSlotsOf_stripped : refSlotsOf P.stripped = refSlotsOf P := by
  funext i
  simp only [refSlotsOf, functions_stripped]
  cases P.functions[i]? <;> rfl

@[simp]
theorem moved_stripped : moved P.stripped = moved P := by
  funext m starts forward ref
  simp only [moved, containingObject_stripped]

@[simp]
theorem frameRoots_stripped : frameRoots P.stripped = frameRoots P := by
  funext frame
  simp only [frameRoots, functions_stripped]
  cases P.functions[frame.1]? <;> rfl

@[simp]
theorem updateFrame_stripped : updateFrame P.stripped = updateFrame P := by
  funext move i locals
  simp only [updateFrame, functions_stripped]
  cases P.functions[i]? <;> rfl

@[simp]
theorem updateFrames_stripped : updateFrames P.stripped = updateFrames P := by
  funext move fs
  induction fs with
  | nil => rfl
  | cons f fs ih => simp only [updateFrames, updateFrame_stripped, ih]

@[simp]
theorem markRoots_stripped : markRoots P.stripped = markRoots P := by
  funext starts m refs
  induction refs generalizing m with
  | nil => rfl
  | cons ref refs ih => simp only [markRoots, markFrom_stripped, ih]

@[simp]
theorem collect_stripped : (VM.collect P.stripped : VM W → _) = VM.collect P := by
  funext s
  simp only [VM.collect, VM.objectStarts, VM.blocks, VM.roots, VM.planCompaction, VM.updateReferences, VM.slide,
    moved_stripped, blocksFrom_stripped, markRoots_stripped, frameRoots_stripped, planFrom_stripped, updateFrame_stripped, updateFrames_stripped, updateBlocks_stripped,
    slideBlocks_stripped]

end Collector

section Running

variable {W : Type} (P : CompiledProgram) (F : FloatOps) (io : ProgramIO W)

@[simp]
theorem reserve_stripped : (VM.reserve P.stripped : ℕ → ℕ → ℕ → VM W → _) = VM.reserve P := by
  funext payload kind detail s
  simp only [VM.reserve, collect_stripped]

@[simp]
theorem allocStruct_stripped : (VM.allocStruct P.stripped : ℕ → VM W → _) = VM.allocStruct P := by
  funext typeId s
  simp only [VM.allocStruct, reserve_stripped]
  rfl

@[simp]
theorem allocArray_stripped : (VM.allocArray P.stripped : ℤ → Bool → VM W → _) = VM.allocArray P := by
  funext count holdsRefs s
  simp only [VM.allocArray, reserve_stripped]

@[simp]
theorem allocRaw_stripped : (VM.allocRaw P.stripped : ℤ → VM W → _) = VM.allocRaw P := by
  funext size s
  simp only [VM.allocRaw, reserve_stripped]

@[simp]
theorem vmAllocString_stripped : (VM.allocString P.stripped : List UInt8 → VM W → _) = VM.allocString P := by
  funext data s
  simp only [VM.allocString, reserve_stripped]

@[simp]
theorem fieldIsRef_stripped : (fieldIsRef P.stripped : ℕ → ℕ → Exec W Bool) = fieldIsRef P := rfl

@[simp]
theorem enterFunction_stripped : (enterFunction P.stripped : ℕ → String → Exec W Unit) = enterFunction P := by
  funext fnId opName
  simp only [enterFunction, functions_stripped]
  cases P.functions[fnId]? <;> rfl

@[simp]
theorem allocString_stripped : (allocString P.stripped : List UInt8 → Exec W ℕ) = allocString P := by
  funext data s
  simp only [allocString, vmAllocString_stripped]

@[simp]
theorem stringFromText_stripped :
    (stringFromText P.stripped : String → String → Exec W ℕ) = stringFromText P := by
  funext text what
  simp only [stringFromText, allocString_stripped]

theorem execute_stripped : execute P.stripped F io = execute P F io := by
  funext i
  cases i <;> simp only [execute, refSlotsOf_stripped, collect_stripped, allocStruct_stripped,
    allocArray_stripped, allocRaw_stripped, allocString_stripped, stringFromText_stripped,
    fieldIsRef_stripped, enterFunction_stripped]

theorem step_stripped : VM.step P.stripped F io = VM.step P F io := by
  funext s
  simp only [VM.step, execute_stripped]
  rfl

theorem steps_stripped : VM.steps P.stripped F io = VM.steps P F io := by
  funext n s
  induction n generalizing s with
  | zero => rfl
  | succ n ih => simp only [VM.steps, step_stripped, ih]

theorem funcIndex_stripped (name : String) : P.stripped.funcIndex name = P.funcIndex name := by
  simp only [CompiledProgram.funcIndex, CompiledProgram.stripped, List.zipIdx_map, List.filter_map,
    List.getLast?_map, Option.map_map]
  rfl

theorem fillLiterals_stripped (items : List (ℕ × String)) (s : VM W) :
    VM.fillLiterals P.stripped items s = VM.fillLiterals P items s := by
  induction items generalizing s with
  | nil => rfl
  | cons item items ih => simp only [VM.fillLiterals, vmAllocString_stripped, ih]

theorem fillVariants_stripped (typeId : ℕ) (layouts : List (Option StructLayout)) (s : VM W) :
    VM.fillVariants P.stripped typeId layouts s = VM.fillVariants P typeId layouts s := by
  induction layouts generalizing typeId s with
  | nil => rfl
  | cons layout layouts ih => simp only [VM.fillVariants, allocStruct_stripped, ih]

theorem start_stripped (args : List String) (w : W) : VM.start P.stripped args w = VM.start P args w := by
  have hfn : ∀ i, P.stripped.functions.getD i ⟨"", 0, 0, 0, [], [], [], ""⟩ =
      (P.functions.getD i ⟨"", 0, 0, 0, [], [], [], ""⟩).withoutDebug := fun i =>
    List.getD_map P.functions ⟨"", 0, 0, 0, [], [], [], ""⟩ FunctionInfo.withoutDebug
  simp only [VM.start, funcIndex_stripped, VM.materialiseLiterals, VM.materialiseVariants,
    fillLiterals_stripped, fillVariants_stripped, hfn]
  rfl

/-- The same states, output, exit value and faults, turn by turn. -/
theorem runMain_stripped : runMain P.stripped F io = runMain P F io := by
  funext args w n
  simp only [runMain, start_stripped, steps_stripped]

end Running

end QuinLang
