import QuinLang.Compiler.StackFlow

/-! Statements start and end with an empty operand stack, and so does every jump out
of a block, a loop or an arm. -/

namespace QuinLang

open StateExcept Flow

section Steps

variable (arity : ℕ → ℕ) (layout : FunctionLayout)

/-- Code entered with an empty stack and left for the places of `X`, always with an empty stack. -/
abbrev Steps (pc : ℕ) (code : List Site) (X : List (Exit Label)) : Prop :=
  Flows arity layout pc code [] (X.map fun x => (x, 0))

/-- Where a `break` or a `continue` leads. -/
def jumps (inLoop : Bool) : List (Exit Label) := if inLoop then [.label .breaks, .label .continues] else []

theorem at_notMem_jumps {p : ℕ} {inLoop : Bool} : .at p ∉ jumps inLoop := by
  cases inLoop <;> simp [jumps]

/-- Code of statements: left to its end, or for the loop around it. -/
abbrev Keeps (inLoop : Bool) (pc : ℕ) (code : List Site) : Prop :=
  Steps arity layout pc code (.at (pc + code.length) :: jumps inLoop)

variable {arity layout} {pc pc₂ : ℕ} {σ τ : List Static} {live : List Symbol} {c₁ c₂ code : List Site}
  {X Y : List (Exit Label)} {inLoop : Bool}

theorem Runs.then {c : List Site} {L : List (Exit Label × ℕ)} (h : Runs arity layout pc c σ τ)
    (h' : Flows arity layout pc₂ c₂ τ L) (hpc : pc₂ = pc + c.length) : Flows arity layout pc (c ++ c₂) σ L :=
  Flows.append h h' hpc fun t ht => Or.inl (by rw [List.mem_singleton.mp ht, hpc])

namespace Steps

theorem mono (h : Steps arity layout pc code Y) (hX : ∀ x ∈ Y, x ∈ X) : Steps arity layout pc code X := by
  refine Flows.mono h fun t ht => ?_
  obtain ⟨x, hx, rfl⟩ := List.mem_map.mp ht
  exact List.mem_map_of_mem (hX x hx)

theorem append (h : Steps arity layout pc c₁ Y) (h' : Steps arity layout pc₂ c₂ X) (hpc : pc₂ = pc + c₁.length)
    (hX : ∀ x ∈ Y, x = .at pc₂ ∨ x ∈ X) : Steps arity layout pc (c₁ ++ c₂) X := by
  refine Flows.append h h' hpc fun t ht => ?_
  obtain ⟨x, hx, rfl⟩ := List.mem_map.mp ht
  by_cases hat : x = .at pc₂
  · exact Or.inl (by rw [hat]; rfl)
  · exact Or.inr ⟨hat, List.mem_map_of_mem ((hX x hx).resolve_left hat)⟩

theorem cons {s : Site} (h : Steps arity layout pc [s] Y) (h' : Steps arity layout (pc + 1) c₂ X)
    (hX : ∀ x ∈ Y, x = .at (pc + 1) ∨ x ∈ X) : Steps arity layout pc (s :: c₂) X := h.append h' rfl hX

/-- Code that leads back to its start. -/
theorem loop (h : Steps arity layout pc code Y) (hne : code ≠ []) (hX : ∀ x ∈ Y, x = .at pc ∨ x ∈ X) :
    Steps arity layout pc code X := by
  refine (Leaves.loop h hne fun v hv => ?_).exits fun x v hv => ⟨hv.1.1, ?_⟩
  · obtain ⟨height, guard⟩ := v
    obtain ⟨hguard, hmem⟩ := hv
    obtain ⟨x, -, hx⟩ := List.mem_map.mp hmem
    obtain rfl : 0 = height := (Prod.mk.inj hx).2
    obtain rfl : guard = .none := hguard
    rfl
  · obtain ⟨y, hy, hxy⟩ := List.mem_map.mp hv.1.2
    obtain ⟨rfl, hheight⟩ := Prod.mk.inj hxy
    exact List.mem_map.mpr ⟨y, (hX y hy).resolve_left hv.2, hxy⟩

theorem of_jump {s : Site} {t : Exit Label} (hs : s.stack = [])
    (hj : s.emitted = .breakJump ∧ t = .label .breaks ∨ s.emitted = .continueJump ∧ t = .label .continues ∨
      s.emitted = .endJump ∧ t = .label .ends) : Steps arity layout pc [s] [t] := by
  refine Leaves.one ?_ ?_
  · rintro v rfl
    refine ⟨by rw [hs], ?_, fun hc => ?_, fun hr => ?_, fun k hk => ?_, fun _ ha => ?_⟩
    · rcases hj with ⟨he, -⟩ | ⟨he, -⟩ | ⟨he, -⟩ <;> simp [Site.pops, he]
    · rcases hj with ⟨he, -⟩ | ⟨he, -⟩ | ⟨he, -⟩ <;> rw [he] at hc <;> cases hc
    · rcases hj with ⟨he, -⟩ | ⟨he, -⟩ | ⟨he, -⟩ <;> rw [he] at hr <;> cases hr
    · rcases hj with ⟨he, -⟩ | ⟨he, -⟩ | ⟨he, -⟩ <;> rw [he] at hk <;> rcases hk with hk | hk <;> cases hk
    · rcases hj with ⟨he, -⟩ | ⟨he, -⟩ | ⟨he, -⟩ <;> rw [he] at ha <;> cases ha
  · rintro v rfl x v' hlead
    have hnext : x = t ∧ v' = ⟨0, .none⟩ := by
      rcases hj with ⟨he, rfl⟩ | ⟨he, rfl⟩ | ⟨he, rfl⟩ <;> simpa [Site.leads, he] using hlead
    obtain ⟨rfl, rfl⟩ := hnext
    exact ⟨rfl, List.mem_cons_self⟩

end Steps

/-- An instruction leads to places in the code. -/
theorem Site.leads_at {i : Instruction} {s : Site} {p : ℕ} {v v' : Point} {x : Exit Label} (hs : s.emitted = .instr i)
    (h : s.leads arity p v x v') : ∃ q, x = .at q := by
  simp only [Site.leads, hs] at h
  split at h
  case h_4 => exact ⟨_, h.1⟩
  case h_5 => rcases h.1 with hx | hx <;> exact ⟨_, hx⟩
  case h_6 => rcases h.1 with hx | hx <;> exact ⟨_, hx⟩
  case h_9 => exact ⟨_, h.1⟩
  all_goals simp_all

/-- Filling in jumps: `f` turns a jump to a label into one to the place `r` sends it to. -/
theorem Flows.redirect {f : Site → Site} {r : Exit Label → Exit Label} {L : List (Exit Label × ℕ)}
    (hr : ∀ p, r (.at p) = .at p) (hstack : ∀ s, (f s).stack = s.stack)
    (hf : ∀ s, (f s = s ∧ ∀ l p v v', s.leads arity p v (.label l) v' → r (.label l) = .label l) ∨
      ∃ l q, (∀ p v v', s.leads arity p v (.label l) v' ↔ v' = v) ∧ (f s).emitted = .instr (.jmp q) ∧ r (.label l) = .at q)
    (h : Flows arity layout pc code σ L) : Flows arity layout pc (code.map f) σ (L.map fun t => (r t.1, t.2)) := by
  refine (Leaves.redirect hr (fun s v hfit => ?_) (fun s p v x v' hlead => ?_) h).exits fun x v hv => ?_
  · rcases hf s with ⟨he, -⟩ | ⟨l, q, -, he, -⟩
    · rwa [he]
    · refine ⟨by rw [hstack, hfit.height], by simp [Site.pops, he, Instruction.pops], ?_, ?_, ?_, ?_⟩ <;> simp [he]
  · rcases hf s with ⟨he, hl⟩ | ⟨l, q, hlabel, he, hq⟩
    · rw [he] at hlead
      cases x with
      | «at» p => exact ⟨.at p, (hr p).symm, hlead⟩
      | label l => exact ⟨.label l, (hl l p v v' hlead).symm, hlead⟩
    · have hjump : x = .at q ∧ v' = v := by simpa [Site.leads, he] using hlead
      exact ⟨.label l, by rw [hjump.1, hq], (hlabel p v v').mpr hjump.2⟩
  · obtain ⟨y, rfl, hguard, hy⟩ := hv
    exact ⟨hguard, List.mem_map_of_mem (f := fun t => (r t.1, t.2)) hy⟩

/-- Where the loop around sends the jumps of its body. -/
def loopTarget (breakPc continuePc : ℕ) : Exit Label → Exit Label
  | .label .breaks => .at breakPc
  | .label .continues => .at continuePc
  | x => x

def endTarget (endPc : ℕ) : Exit Label → Exit Label
  | .label .ends => .at endPc
  | x => x

theorem patchLoop_flows {breakPc continuePc : ℕ} {L : List (Exit Label × ℕ)} (h : Flows arity layout pc code σ L) :
    Flows arity layout pc (code.map (Site.patchLoop breakPc continuePc)) σ
      (L.map fun t => (loopTarget breakPc continuePc t.1, t.2)) := by
  refine h.redirect (fun _ => rfl) (fun s => ?_) fun s => ?_
  · obtain ⟨emitted, stack, live, role⟩ := s
    cases emitted <;> rfl
  · obtain ⟨emitted, stack, live, role⟩ := s
    cases emitted with
    | breakJump => exact Or.inr ⟨.breaks, breakPc, by simp [Site.leads], rfl, rfl⟩
    | continueJump => exact Or.inr ⟨.continues, continuePc, by simp [Site.leads], rfl, rfl⟩
    | endJump =>
      refine Or.inl ⟨rfl, fun l p v v' hl => ?_⟩
      cases hl.1
      rfl
    | instr i =>
      refine Or.inl ⟨rfl, fun l p v v' hl => ?_⟩
      obtain ⟨q, hq⟩ := Site.leads_at rfl hl
      cases hq

theorem patchEnd_flows {e : ℕ} {L : List (Exit Label × ℕ)} (h : Flows arity layout pc code σ L) :
    Flows arity layout pc (code.map (Site.patchEnd e)) σ (L.map fun t => (endTarget e t.1, t.2)) := by
  refine h.redirect (fun _ => rfl) (fun s => ?_) fun s => ?_
  · obtain ⟨emitted, stack, live, role⟩ := s
    cases emitted <;> rfl
  · obtain ⟨emitted, stack, live, role⟩ := s
    cases emitted with
    | endJump => exact Or.inr ⟨.ends, e, by simp [Site.leads], rfl, rfl⟩
    | breakJump | continueJump =>
      refine Or.inl ⟨rfl, fun l p v v' hl => ?_⟩
      cases hl.1
      rfl
    | instr i =>
      refine Or.inl ⟨rfl, fun l p v v' hl => ?_⟩
      obtain ⟨q, hq⟩ := Site.leads_at rfl hl
      cases hq

end Steps

section Statements

variable {C : GenContext} {G : Globals} {arity : ℕ → ℕ} {live : List Symbol} {pc : ℕ} {code : List Site} {inLoop : Bool}

theorem Keeps.of_runs (h : Runs arity C.layout pc code [] []) : Keeps arity C.layout inLoop pc code :=
  Steps.mono (Y := [.at (pc + code.length)]) h (by simp)

theorem Keeps.nil : Keeps arity C.layout inLoop pc [] := .of_runs .nil

theorem Keeps.append {c₁ c₂ : List Site} (h : Keeps arity C.layout inLoop pc c₁)
    (h' : Keeps arity C.layout inLoop (pc + c₁.length) c₂) : Keeps arity C.layout inLoop pc (c₁ ++ c₂) := by
  refine Steps.append h (Steps.mono h' fun x hx => ?_) rfl fun x hx => ?_
  · rwa [List.length_append, ← Nat.add_assoc]
  · rcases List.mem_cons.mp hx with rfl | hx
    · exact Or.inl rfl
    · exact Or.inr (List.mem_cons_of_mem _ hx)

/-- The slots of references are cleared with nothing on the stack. -/
theorem releaseScope_runs (refs : List Symbol) (pc : ℕ) :
    Runs arity C.layout pc (releaseScope live C.layout refs) [] [] := by
  induction refs generalizing pc with
  | nil => exact .nil
  | cons sym refs ih =>
    simp only [releaseScope]
    cases C.layout.slot? sym with
    | none => exact ih pc
    | some slot =>
      exact Runs.cons (Flows.pushes (a := .val .null) rfl rfl rfl)
        (Runs.cons (Flows.op (τ := []) rfl (Nat.le_refl 1) rfl) (ih _))

theorem zeroSlots_runs (n slot pc : ℕ) : Runs arity C.layout pc (zeroSlots live slot n) [] [] := by
  induction n generalizing slot pc with
  | zero => exact .nil
  | succ n ih =>
    exact Runs.cons (Flows.pushes (a := .val .int) rfl rfl rfl)
      (Runs.cons (Flows.op (τ := []) rfl (Nat.le_refl 1) rfl) (ih _ _))

/-- A store into the slot of a variable. -/
theorem storeSlot_runs {t : Ty} {slot : ℕ} {a : Static} {σ : List Static} :
    Runs arity C.layout pc [op (storeSlot t slot) (a :: σ) live] (a :: σ) σ := by
  unfold storeSlot
  split <;> exact Flows.op rfl (Nat.le_add_left 1 σ.length) rfl

/-- The text of a bool, chosen by a jump. -/
theorem emitBoolToStr_runs {s s' : GenState} (h : emitBoolToStr live pc s = .ok (code, s')) :
    Runs arity C.layout pc code [.val .bool] [.val .str] := by
  obtain ⟨t, s₁, -, h⟩ := bind_ok.mp h
  obtain ⟨f, s₂, -, h⟩ := bind_ok.mp h
  obtain ⟨rfl, -⟩ := Prod.mk.inj (pure_ok.mp h)
  have htest : Flows arity C.layout pc [op (.jz (pc + 3)) [.val .bool] live] [.val .bool]
      [(.at (pc + 1), 0), (.at (pc + 3), 0)] := Flows.branch (Or.inl rfl)
  have htrue : Flows arity C.layout (pc + 1) [op (.loadStr t) [] live, op (.jmp (pc + 4)) [.val .str] live] []
      [(.at (pc + 4), 1)] := Runs.then (c := [op (.loadStr t) [] live]) (Flows.pushes rfl rfl rfl) Flows.jump rfl
  have hleft := Flows.append htest (htrue.mono (L := [(.at (pc + 3), 0), (.at (pc + 4), 1)]) (by simp)) rfl (by simp)
  have hfalse : Runs arity C.layout (pc + 3) [op (.loadStr f) [] live] [] [.val .str] := Flows.pushes rfl rfl rfl
  exact Flows.append hleft hfalse rfl (by simp)

variable (hA : ∀ n sig i, G.sig? n = some sig → funcIndex C n = some i → arity i = sig.params.length)
  {loc : Option Pos} {s s' : GenState}

include hA

/-- The value of a well typed expression, above what is there. -/
theorem value_runs {σ : List Static} {t : Static} {e : TExpr} (hok : ExprOk G live e)
    (h : emitExpr C live loc pc σ e s = .ok (code, s')) : Runs arity C.layout pc code σ (t :: σ) :=
  emitExpr_runs hA e hok ⟨loc, s, s', h⟩

theorem emitPrint_runs {newline : Bool} {value : TExpr} (hok : ExprOk G live value)
    (h : emitPrint C live loc newline pc value s = .ok (code, s')) : Runs arity C.layout pc code [] [] := by
  have hprint {p : ℕ} {a : Static} : Runs arity C.layout p [op (printOp newline value.type) [a] live] [a] [] := by
    unfold printOp
    split_ifs <;> exact Flows.op rfl (Nat.le_refl 1) rfl
  unfold emitPrint at h
  obtain ⟨v, s₁, hv, h⟩ := bind_ok.mp h
  have hvalue {t : Static} := value_runs hA (t := t) hok hv
  split at h
  · obtain ⟨b, s₂, hb, h⟩ := bind_ok.mp h
    obtain ⟨rfl, -⟩ := Prod.mk.inj (pure_ok.mp h)
    exact (hvalue.append (emitBoolToStr_runs hb)).append hprint
  · obtain ⟨rfl, -⟩ := Prod.mk.inj (pure_ok.mp h)
    exact hvalue.append hprint

theorem emitSimple_runs {st : TSimple} (hok : SimpleOk G live st)
    (h : emitSimple C live loc pc st s = .ok (code, s')) : Runs arity C.layout pc code [] [] := by
  obtain ⟨loc, s₁, s₂, h⟩ := located_ok h
  cases st with
  | assignLocal pos sym value =>
    obtain ⟨-, -, -, hv⟩ := hok
    obtain ⟨slot, s₃, -, h⟩ := bind_ok.mp h
    split at h
    · cases h
    · obtain ⟨v, s₄, hvc, h⟩ := bind_ok.mp h
      obtain ⟨rfl, -⟩ := Prod.mk.inj (pure_ok.mp h)
      exact (value_runs hA hv hvc).append storeSlot_runs
  | assignElem pos targetPos array index value =>
    obtain ⟨-, ha, hi, hv⟩ := hok
    simp only [emitSimpleBody] at h
    cases hty : array.type with
    | array element =>
      simp only [hty] at h
      obtain ⟨a, s₃, hac, h⟩ := bind_ok.mp h
      obtain ⟨i, s₄, hic, h⟩ := bind_ok.mp h
      obtain ⟨v, s₅, hvc, h⟩ := bind_ok.mp h
      obtain ⟨rfl, -⟩ := Prod.mk.inj (pure_ok.mp h)
      obtain ⟨loc, s₆, s₇, hic⟩ := located_ok hic
      have hobj := (value_runs hA ha hac).append (value_runs hA (t := .val .int) hi hic)
      have hval := hobj.appendAt (value_runs hA (t := .val value.type) hv hvc) (by simp; omega)
      exact hval.append (Flows.op (τ := []) rfl (Nat.le_refl 3) rfl)
    | _ =>
      simp only [hty] at h
      obtain ⟨⟨sym, slot⟩, s₃, hslot, h⟩ := bind_ok.mp h
      obtain ⟨v, s₄, hvc, h⟩ := bind_ok.mp h
      obtain ⟨i, s₅, hic, h⟩ := bind_ok.mp h
      obtain ⟨rfl, -⟩ := Prod.mk.inj (pure_ok.mp h)
      obtain ⟨loc, s₆, s₇, hic⟩ := located_ok hic
      obtain ⟨x, s₈, hx, hic⟩ := bind_ok.mp hic
      obtain ⟨rfl, -⟩ := Prod.mk.inj (pure_ok.mp hic)
      have hstore : Runs arity C.layout (pc + v.length + x.length)
          [op (.boundsCheck slot.length) [.val .int, .val .int] live,
            op (.storeLocalIdx slot.index) [.index slot.length, .val .int] live] [.val .int, .val .int] [] :=
        Runs.checked (arraySlot_ok hslot) (Or.inr ⟨rfl, rfl⟩) (.nil (σ := [])) rfl
      exact (value_runs hA hv hvc).append ((value_runs hA hi hx).append hstore)
  | assignField pos targetPos obj field value =>
    obtain ⟨-, ho, hv⟩ := hok
    obtain ⟨fld, s₃, -, h⟩ := bind_ok.mp h
    obtain ⟨o, s₄, hoc, h⟩ := bind_ok.mp h
    obtain ⟨v, s₅, hvc, h⟩ := bind_ok.mp h
    obtain ⟨rfl, -⟩ := Prod.mk.inj (pure_ok.mp h)
    exact ((value_runs hA ho hoc).append (value_runs hA hv hvc)).append storeField_runs
  | expr pos e =>
    obtain ⟨c, s₃, hc, h⟩ := bind_ok.mp h
    obtain ⟨rfl, -⟩ := Prod.mk.inj (pure_ok.mp h)
    exact (value_runs hA hok hc).append (Flows.op rfl (Nat.le_refl 1) rfl)

theorem emitVarDecl_runs {pos : Pos} {sym : Symbol} {init : Option TExpr} (hok : ∀ v, init = some v → ExprOk G live v)
    (h : emitVarDecl C live loc pc pos sym init s = .ok (code, s')) : Runs arity C.layout pc code [] [] := by
  unfold emitVarDecl at h
  obtain ⟨slot, s₁, -, h⟩ := bind_ok.mp h
  split at h
  · obtain ⟨rfl, -⟩ := Prod.mk.inj (pure_ok.mp h)
    exact zeroSlots_runs _ _ _
  · cases init with
    | some value =>
      obtain ⟨v, s₂, hvc, h⟩ := bind_ok.mp h
      obtain ⟨rfl, -⟩ := Prod.mk.inj (pure_ok.mp h)
      exact (value_runs hA (hok value rfl) hvc).append storeSlot_runs
    | none =>
      obtain ⟨instr, s₂, hinstr, h⟩ := bind_ok.mp h
      obtain ⟨rfl, -⟩ := Prod.mk.inj (pure_ok.mp h)
      have hleaf : instr.isPlain = true ∧ instr.pops = 0 ∧ instr.pushes = 1 := by
        unfold emitDefault at hinstr
        split at hinstr
        · obtain ⟨sid, s₃, -, hinstr⟩ := bind_ok.mp hinstr
          obtain ⟨rfl, -⟩ := Prod.mk.inj (pure_ok.mp hinstr)
          exact ⟨rfl, rfl, rfl⟩
        · split at hinstr <;> obtain ⟨rfl, -⟩ := Prod.mk.inj (pure_ok.mp hinstr) <;> exact ⟨rfl, rfl, rfl⟩
      exact Runs.cons (Flows.pushes hleaf.1 hleaf.2.1 hleaf.2.2) storeSlot_runs

omit hA

/-- The payload is copied out of the object, which stays on the stack. -/
theorem bindPayload_runs {typeId : ℕ} {pos : Pos} {live syms : List Symbol} {flds : List StructField} {a : Static}
    (h : bindPayload C typeId pos live syms flds s = .ok (code, s')) : Runs arity C.layout pc code [a] [a] := by
  induction syms generalizing live flds pc code s s' with
  | nil =>
    obtain ⟨rfl, -⟩ := Prod.mk.inj (pure_ok.mp h)
    exact .nil
  | cons sym syms ih =>
    cases flds with
    | nil =>
      obtain ⟨rfl, -⟩ := Prod.mk.inj (pure_ok.mp h)
      exact .nil
    | cons fld flds =>
      cases hs : C.layout.slot? sym with
      | none => simp [bindPayload, hs, genError, codegenError] at h
      | some slot =>
        simp only [bindPayload, hs] at h
        obtain ⟨rest, s₁, hrest, h⟩ := bind_ok.mp h
        obtain ⟨rfl, -⟩ := Prod.mk.inj (pure_ok.mp h)
        refine Runs.cons (τ := [.copy, .variant typeId]) (Flows.op rfl (Nat.le_refl 1) rfl) ?_
        refine Runs.cons (τ := [.val fld.type, .variant typeId]) loadField_runs ?_
        exact Runs.cons (τ := [a]) storeSlot_runs (ih hrest)

/-- Each opcode of a `vm_asm` block pops and pushes what its table says. -/
theorem simpleOps_counts {name : String} {i : Instruction} {pops pushes : ℕ}
    (h : simpleOps.lookup name = some (i, pops, pushes)) : i.isPlain = true ∧ i.pops = pops ∧ i.pushes = pushes := by
  have hall : ∀ e ∈ simpleOps, e.2.1.isPlain = true ∧ e.2.1.pops = e.2.2.1 ∧ e.2.1.pushes = e.2.2.2 := by decide
  obtain ⟨l₁, l₂, hl, -⟩ := List.lookup_eq_some_iff.mp h
  exact hall (name, i, pops, pushes) (by rw [hl]; simp)

theorem asmInstruction_counts {layout : FunctionLayout} {pos : Pos} {visible : List (String × Symbol)} {raw : List Char}
    {words : List String} {i : Instruction} {pops pushes : ℕ}
    (h : asmInstruction layout pos visible raw words = .ok (i, pops, pushes)) :
    i.isPlain = true ∧ i.pops = pops ∧ i.pushes = pushes := by
  unfold asmInstruction at h
  split at h
  · split at h
    · cases h
      exact ⟨rfl, rfl, rfl⟩
    · cases h
  · obtain ⟨slot, -, h⟩ := exceptBind_ok h
    cases h
    exact ⟨rfl, rfl, rfl⟩
  · obtain ⟨slot, -, h⟩ := exceptBind_ok h
    cases h
    exact ⟨rfl, rfl, rfl⟩
  · split at h
    · rename_i entry hentry
      cases h
      exact simpleOps_counts hentry
    · cases h
  · cases h

theorem asmLines_runs {pos : Pos} {visible : List (String × Symbol)} {depth : ℕ} {lines : List (List Char)}
    (h : asmLines C.layout pos visible live depth lines = .ok code) :
    Runs arity C.layout pc code (List.replicate depth .raw) [] := by
  induction lines generalizing depth pc code with
  | nil =>
    unfold asmLines at h
    split at h
    · cases h
    · rename_i hdepth
      obtain rfl : depth = 0 := by simpa using hdepth
      cases h
      exact .nil
  | cons raw rest ih =>
    unfold asmLines at h
    dsimp only at h
    split at h
    · exact ih h
    · obtain ⟨⟨i, pops, pushes⟩, hi, h⟩ := exceptBind_ok h
      obtain ⟨hplain, rfl, rfl⟩ := asmInstruction_counts hi
      dsimp only at h
      split at h
      · cases h
      · rename_i hdepth
        obtain ⟨code', hrest, h⟩ := exceptBind_ok h
        cases h
        have hpops : i.pops ≤ (List.replicate depth Static.raw).length := by simpa using hdepth
        refine Runs.cons (τ := List.replicate (depth - i.pops + i.pushes) .raw) ?_ (ih hrest)
        exact Flows.instr hplain hpops (by simp)

/-- A return leads nowhere, with its value alone on the stack. -/
theorem return_steps {a : Static} {p : ℕ} : Flows arity C.layout p [op .ret [a] live] [a] [] := by
  refine Leaves.one ?_ ?_
  · rintro v rfl
    exact Flows.fits rfl (Nat.le_refl 1) (by simp) (fun _ => rfl) (by simp)
  · rintro v rfl x v' hlead
    exact absurd hlead id

/-- The references of the scopes being left are released before the jump. -/
theorem emitLoopJump_keeps {kind : String} {jump : Emitted} {loop : Option LoopContext} {pos : Pos} {s s' : GenState}
    (hj : jump = .breakJump ∨ jump = .continueJump) (h : emitLoopJump C kind jump loop pos s = .ok (code, s')) :
    Keeps arity C.layout loop.isSome pc code := by
  cases loop with
  | none => cases h
  | some l =>
    obtain ⟨rfl, -⟩ := Prod.mk.inj (pure_ok.mp h)
    have hjump {p : ℕ} {target : Exit Label} {X : List (Exit Label)} (ht : target ∈ X)
        (hs : jump = .breakJump ∧ target = .label .breaks ∨ jump = .continueJump ∧ target = .label .continues) :
        Steps arity C.layout p [⟨jump, [], l.live, .plain⟩] X := by
      refine Steps.mono (Steps.of_jump (t := target) rfl ?_) (by simpa using ht)
      rcases hs with hs | hs
      · exact Or.inl hs
      · exact Or.inr (Or.inl hs)
    refine Runs.then (releaseScope_runs l.scopes.flatten pc) ?_ rfl
    rcases hj with rfl | rfl
    · exact hjump (by simp [jumps]) (Or.inl ⟨rfl, rfl⟩)
    · exact hjump (by simp [jumps]) (Or.inr ⟨rfl, rfl⟩)

/-- A condition and the jump past what it guards. -/
theorem condition_steps {c : List Site} {target : ℕ} (h : Runs arity C.layout pc c [] [.val .bool]) :
    Steps arity C.layout pc (c ++ [op (.jz target) [.val .bool] live]) [.at (pc + c.length + 1), .at target] :=
  h.then (Flows.branch (Or.inl rfl)) rfl

theorem if_keeps {c t e : List Site} {thenPc elsePc : ℕ} (hc : Runs arity C.layout pc c [] [.val .bool])
    (ht : Keeps arity C.layout inLoop thenPc t) (he : Keeps arity C.layout inLoop elsePc e)
    (hthen : thenPc = pc + c.length + 1) (helse : elsePc = thenPc + t.length + 1) :
    Keeps arity C.layout inLoop pc (c ++ op (.jz elsePc) [.val .bool] live :: t
      ++ op (.jmp (elsePc + e.length)) [] live :: e) := by
  have htest : Steps arity C.layout pc (c ++ [op (.jz elsePc) [.val .bool] live]) [.at thenPc, .at elsePc] :=
    hthen ▸ condition_steps hc
  have hjump : Steps arity C.layout (thenPc + t.length) [op (.jmp (elsePc + e.length)) [] live] [.at (elsePc + e.length)] :=
    Flows.jump
  have hleft := htest.append (ht.mono (X := .at (thenPc + t.length) :: .at elsePc :: jumps inLoop) (by simp; tauto))
    (by simp; omega) (by simp)
  have hover := hleft.append (hjump.mono (X := .at elsePc :: .at (elsePc + e.length) :: jumps inLoop) (by simp))
    (by simp; omega) (by simp; tauto)
  have hall := hover.append he (by simp; omega) (by simp)
  simp only [List.append_assoc, List.cons_append, List.nil_append] at hall ⊢
  have hend : pc + (c ++ op (.jz elsePc) [.val .bool] live :: (t ++ op (.jmp (elsePc + e.length)) [] live :: e)).length
      = elsePc + e.length := by
    simp
    omega
  rwa [Keeps, hend]

/-- What is repeated: a condition that leads to the body or past the end, the body and a step. -/
theorem loop_runs {l : List Symbol} {c b st : List Site} {bodyPc stepPc endPc continuePc : ℕ}
    (hc : Steps arity C.layout pc c [.at bodyPc, .at endPc]) (hb : Keeps arity C.layout true bodyPc b)
    (hst : Runs arity C.layout stepPc st [] []) (hcont : continuePc = pc ∨ continuePc = stepPc)
    (hbody : bodyPc = pc + c.length) (hstep : stepPc = bodyPc + b.length) (hend : endPc = stepPc + st.length + 1) :
    Runs arity C.layout pc (c ++ b.map (Site.patchLoop endPc continuePc) ++ st ++ [op (.jmp pc) [] l]) [] [] := by
  have hpatched : Steps arity C.layout bodyPc (b.map (Site.patchLoop endPc continuePc))
      [.at stepPc, .at endPc, .at continuePc] := by
    have hflows : Flows arity C.layout bodyPc (b.map (Site.patchLoop endPc continuePc)) []
        [(.at (bodyPc + b.length), 0), (.at endPc, 0), (.at continuePc, 0)] := patchLoop_flows hb
    rwa [← hstep] at hflows
  have hjump : Steps arity C.layout (stepPc + st.length) [op (.jmp pc) [] l] [.at pc] := Flows.jump
  have hleft := hc.append (hpatched.mono (X := [.at stepPc, .at endPc, .at pc]) (by simp; tauto)) (by omega) (by simp)
  have hafter : Steps arity C.layout stepPc st [.at (stepPc + st.length), .at endPc, .at pc] :=
    Steps.mono (Y := [.at (stepPc + st.length)]) hst (by simp)
  have hright := hleft.append hafter (by simp; omega) (by simp)
  have hall := hright.append (hjump.mono (X := [.at endPc, .at pc]) (by simp)) (by simp; omega) (by simp)
  have hclosed := hall.loop (X := [.at endPc]) (by simp) (by simp)
  have hlen : pc + (c ++ b.map (Site.patchLoop endPc continuePc) ++ st ++ [op (.jmp pc) [] l]).length = endPc := by
    simp
    omega
  rwa [Runs, hlen]

theorem while_runs {c b : List Site} (hc : Runs arity C.layout pc c [] [.val .bool])
    (hb : Keeps arity C.layout true (pc + c.length + 1) b) :
    Runs arity C.layout pc (c ++ op (.jz (pc + c.length + 1 + b.length + 1)) [.val .bool] live
      :: b.map (Site.patchLoop (pc + c.length + 1 + b.length + 1) pc) ++ [op (.jmp pc) [] live]) [] [] := by
  have htest : Steps arity C.layout pc (c ++ [op (.jz (pc + c.length + 1 + b.length + 1)) [.val .bool] live])
      [.at (pc + c.length + 1), .at (pc + c.length + 1 + b.length + 1)] := condition_steps hc
  have hloop := loop_runs (l := live) htest hb Runs.nil (Or.inl rfl) (by simp; omega) rfl rfl
  simpa using hloop

theorem emitLoop_runs (hA : ∀ n sig i, G.sig? n = some sig → funcIndex C n = some i → arity i = sig.params.length)
    {loc : Option Pos} {cond : Option TExpr} {step : Option TSimple} {emitBody : ℕ → Gen (List Site)} {s s' : GenState}
    (hcond : ∀ c ∈ cond, ConditionOk G live c) (hstep : ∀ st ∈ step, SimpleOk G live st)
    (hbody : ∀ bodyPc b s s', emitBody bodyPc s = .ok (b, s') → Keeps arity C.layout true bodyPc b)
    (h : emitLoop C live loc pc cond step emitBody s = .ok (code, s')) : Runs arity C.layout pc code [] [] := by
  have hstepRuns {p : ℕ} {st : List Site} {s s' : GenState} (h : emitStep C live loc p step s = .ok (st, s')) :
      Runs arity C.layout p st [] [] := by
    cases step with
    | none =>
      obtain ⟨rfl, -⟩ := Prod.mk.inj (pure_ok.mp h)
      exact .nil
    | some st => exact emitSimple_runs hA (hstep st rfl) h
  cases cond with
  | some cond =>
    obtain ⟨c, s₁, hc, h⟩ := bind_ok.mp h
    obtain ⟨b, s₂, hb, h⟩ := bind_ok.mp h
    obtain ⟨st, s₃, hst, h⟩ := bind_ok.mp h
    obtain ⟨rfl, -⟩ := Prod.mk.inj (pure_ok.mp h)
    have htest : Steps arity C.layout pc
        (c ++ [op (.jz (pc + c.length + 1 + b.length + st.length + 1)) [.val .bool] live])
        [.at (pc + c.length + 1), .at (pc + c.length + 1 + b.length + st.length + 1)] :=
      condition_steps (value_runs hA (hcond cond rfl).2 hc)
    have hloop := loop_runs (l := live) htest (hbody _ _ _ _ hb) (hstepRuns hst) (Or.inr rfl) (by simp; omega) rfl rfl
    simpa using hloop
  | none =>
    obtain ⟨b, s₂, hb, h⟩ := bind_ok.mp h
    obtain ⟨st, s₃, hst, h⟩ := bind_ok.mp h
    obtain ⟨rfl, -⟩ := Prod.mk.inj (pure_ok.mp h)
    have hentry {e : ℕ} : Steps arity C.layout pc [] [.at pc, .at e] := Steps.mono (Y := [.at pc]) Runs.nil (by simp)
    have hloop := loop_runs (l := live) hentry (hbody _ _ _ _ hb) (hstepRuns hst) (Or.inr rfl) rfl rfl rfl
    simpa using hloop

/-- Where a chain of arms is left for, apart from its end. -/
def armExits (inLoop : Bool) : List (Exit Label × ℕ) := (.label .ends :: jumps inLoop).map fun x => (x, 0)

theorem armExits_ne {t : Exit Label × ℕ} {p : ℕ} (h : t ∈ armExits inLoop) : t.1 ≠ .at p := by
  obtain ⟨x, hx, rfl⟩ := List.mem_map.mp h
  rcases List.mem_cons.mp hx with rfl | hx
  · simp
  · intro (he : x = .at p)
    exact at_notMem_jumps (he ▸ hx)

/-- An arm: the tag is compared, the payload bound, the body run, with only its own end to go to. -/
theorem arm_flows {subject : Ty} {typeId nextPc bodyPc p₂ : ℕ} {bound : List Symbol} {p b release rest : List Site}
    (hp : Runs arity C.layout (pc + 5) p [.variant typeId] [.variant typeId])
    (hb : Keeps arity C.layout inLoop bodyPc b) (hr : Runs arity C.layout (bodyPc + b.length) release [] [])
    (hrest : Flows arity C.layout nextPc rest [.tag, .val subject] ((.at p₂, 2) :: armExits inLoop))
    (hbody : bodyPc = pc + 5 + p.length + 1) (hnext : nextPc = bodyPc + b.length + release.length + 1) :
    Flows arity C.layout pc ([op .dup [.tag, .val subject] live, op (.pushInt typeId) [.copy, .tag, .val subject] live,
      op .cmpEq [.lit typeId, .copy, .tag, .val subject] live, op (.jz nextPc) [.test typeId, .tag, .val subject] live,
      op .pop [.tag, .variant typeId] live] ++ p ++ op .pop [.variant typeId] bound :: b ++ release
      ++ ⟨.endJump, [], live, .plain⟩ :: rest) [.tag, .val subject] ((.at p₂, 2) :: armExits inLoop) := by
  have hdup : Runs arity C.layout pc [op .dup [.tag, .val subject] live] [.tag, .val subject] [.copy, .tag, .val subject] :=
    Flows.op rfl (by simp [Instruction.pops]) rfl
  have hlit : Runs arity C.layout (pc + 1) [op (.pushInt typeId) [.copy, .tag, .val subject] live]
      [.copy, .tag, .val subject] [.lit typeId, .copy, .tag, .val subject] := Flows.pushes rfl rfl rfl
  have hcmp : Runs arity C.layout (pc + 1 + 1) [op .cmpEq [.lit typeId, .copy, .tag, .val subject] live]
      [.lit typeId, .copy, .tag, .val subject] [.test typeId, .tag, .val subject] := Flows.takesTwo rfl rfl rfl
  have hjump : Flows arity C.layout (pc + 3) [op (.jz nextPc) [.test typeId, .tag, .val subject] live]
      [.test typeId, .tag, .val subject] [(.at (pc + 4), 2), (.at nextPc, 2)] := Flows.branch (Or.inl rfl)
  have htest := Runs.then (Runs.cons hdup (Runs.cons hlit hcmp)) hjump rfl
  have hdrop : Runs arity C.layout (pc + 4) [op .pop [.tag, .variant typeId] live] [.tag, .variant typeId] [.variant typeId] :=
    Flows.op rfl (by simp [Instruction.pops]) rfl
  have hpop : Runs arity C.layout (pc + 5 + p.length) [op .pop [.variant typeId] bound] [.variant typeId] [] :=
    Flows.op rfl (by simp [Instruction.pops]) rfl
  have hend : Steps arity C.layout (bodyPc + b.length + release.length) [⟨.endJump, [], live, .plain⟩]
      (.label .ends :: jumps inLoop) :=
    Steps.mono (Y := [.label .ends]) (Steps.of_jump rfl (Or.inr (Or.inr ⟨rfl, rfl⟩))) (by simp)
  have hleave := Steps.append (X := .label .ends :: jumps inLoop) hb
    (Runs.then hr hend rfl) rfl (by simp; tauto)
  have hbound := Runs.then (hp.append hpop) hleave (by simp; omega)
  have htaken := Runs.then hdrop hbound rfl
  have hcompared := Flows.append htest (htaken.mono (L := (.at nextPc, 2) :: armExits inLoop)
    (fun t ht => List.mem_cons_of_mem _ ht)) rfl (by simp; omega)
  have hall := Flows.append hcompared hrest (by simp; omega) fun t ht => by
    rcases List.mem_cons.mp ht with rfl | ht
    · exact Or.inl rfl
    · exact Or.inr ⟨armExits_ne ht, List.mem_cons_of_mem _ ht⟩
  simp only [List.append_assoc, List.cons_append, List.nil_append] at hall ⊢
  exact hall

/-- The whole `match`: the arms leave the tag and the subject to the code after them. -/
theorem match_keeps {subject : Ty} {c as rest : List Site} {armsPc restPc endPc : ℕ}
    (hc : Runs arity C.layout pc c [] [.val subject])
    (has : Flows arity C.layout armsPc as [.tag, .val subject] ((.at (armsPc + as.length), 2) :: armExits inLoop))
    (hrest : Keeps arity C.layout inLoop restPc rest) (harms : armsPc = pc + c.length + 2)
    (hrestPc : restPc = armsPc + as.length + 2) (hend : endPc = restPc + rest.length) :
    Keeps arity C.layout inLoop pc (c ++ op .dup [.val subject] live :: op .tagOf [.copy, .val subject] live
      :: as.map (Site.patchEnd endPc) ++ op .pop [.tag, .val subject] live :: op .pop [.val subject] live :: rest) := by
  have hdup : Runs arity C.layout (pc + c.length) [op .dup [.val subject] live] [.val subject] [.copy, .val subject] :=
    Flows.op rfl (Nat.le_refl 1) rfl
  have htag : Runs arity C.layout (pc + c.length + 1) [op .tagOf [.copy, .val subject] live] [.copy, .val subject]
      [.tag, .val subject] := Flows.takesOne rfl rfl rfl
  have hexits : (((Exit.at (armsPc + as.length), 2) :: armExits inLoop).map fun t => (endTarget endPc t.1, t.2)) =
      (Exit.at (armsPc + as.length), 2) :: (Exit.at endPc :: jumps inLoop).map fun x => (x, 0) := by
    cases inLoop <;> rfl
  have hpatched := patchEnd_flows (e := endPc) has
  rw [hexits] at hpatched
  have hfirst : Runs arity C.layout (armsPc + as.length) [op .pop [.tag, .val subject] live] [.tag, .val subject]
      [.val subject] := Flows.op rfl (by simp [Instruction.pops]) rfl
  have hsecond : Runs arity C.layout (armsPc + as.length + 1) [op .pop [.val subject] live] [.val subject] [] :=
    Flows.op rfl (by simp [Instruction.pops]) rfl
  have hlast := Runs.then (Runs.cons hfirst hsecond) hrest (by simp; omega)
  have htagged := Runs.then (hc.append (Runs.cons hdup htag)) hpatched (by simp; omega)
  have hall := Flows.append htagged (hlast.mono (L := (Exit.at endPc :: jumps inLoop).map fun x => (x, 0))
    (by rw [hend]; exact fun t ht => ht)) (by simp; omega) fun t ht => by
      rcases List.mem_cons.mp ht with rfl | ht
      · exact Or.inl rfl
      · obtain ⟨x, hx, rfl⟩ := List.mem_map.mp ht
        refine Or.inr ⟨fun he => ?_, ht⟩
        rcases List.mem_cons.mp hx with rfl | hx
        · have hpc := Exit.at.inj he
          omega
        · exact at_notMem_jumps ((show x = _ from he) ▸ hx)
  simp only [List.append_assoc, List.cons_append, List.nil_append] at hall ⊢
  have hlen : pc + (c ++ op .dup [.val subject] live :: op .tagOf [.copy, .val subject] live
      :: (as.map (Site.patchEnd endPc) ++ op .pop [.tag, .val subject] live :: op .pop [.val subject] live :: rest)).length
      = endPc := by
    simp
    omega
  rwa [Keeps, hlen]

variable {ret : Ty}
  (hA : ∀ n sig i, G.sig? n = some sig → funcIndex C n = some i → arity i = sig.params.length)

include hA

set_option linter.unusedSectionVars false

mutual
/-- A statement starts and ends with an empty stack, and so does every jump out of it. -/
theorem emitStmt_keeps : ∀ (st : TStmt) {loop : Option LoopContext} {live : List Symbol} {loc : Option Pos} {pc : ℕ}
    {code : List Site} {s s' : GenState}, StmtOk G ret live st → emitStmt C loop live loc pc st s = .ok (code, s') →
      Keeps arity C.layout loop.isSome pc code
  | .simple st, loop, live, loc, pc, code, s, s', hok, h => by
    simp only [emitStmt] at h
    exact .of_runs (emitSimple_runs hA hok h)
  | .varDecl pos sym init, loop, live, loc, pc, code, s, s', hok, h => by
    simp only [emitStmt] at h
    obtain ⟨loc, s₁, s₂, h⟩ := located_ok h
    exact .of_runs (emitVarDecl_runs hA (fun v hv => (hok v hv).2.2) h)
  | .print pos value, loop, live, loc, pc, code, s, s', hok, h => by
    simp only [emitStmt] at h
    obtain ⟨loc, s₁, s₂, h⟩ := located_ok h
    exact .of_runs (emitPrint_runs hA hok.2 h)
  | .println pos value, loop, live, loc, pc, code, s, s', hok, h => by
    simp only [emitStmt] at h
    obtain ⟨loc, s₁, s₂, h⟩ := located_ok h
    exact .of_runs (emitPrint_runs hA hok.2 h)
  | .return_ pos none, loop, live, loc, pc, code, s, s', hok, h => by
    simp only [emitStmt] at h
    obtain ⟨loc, s₁, s₂, h⟩ := located_ok h
    obtain ⟨rfl, -⟩ := Prod.mk.inj (pure_ok.mp h)
    exact Flows.mono (Runs.then (c := [op (.pushInt 0) [] live]) (Flows.pushes rfl rfl rfl) return_steps rfl) (by simp)
  | .return_ pos (some value), loop, live, loc, pc, code, s, s', hok, h => by
    simp only [emitStmt] at h
    obtain ⟨loc, s₁, s₂, h⟩ := located_ok h
    obtain ⟨v, s₃, hv, h⟩ := bind_ok.mp h
    obtain ⟨rfl, -⟩ := Prod.mk.inj (pure_ok.mp h)
    exact Flows.mono (Runs.then (value_runs hA hok.2 hv) return_steps rfl) (by simp)
  | .vmAsm pos text visible, loop, live, loc, pc, code, s, s', hok, h => by
    simp only [emitStmt] at h
    obtain ⟨loc, s₁, s₂, h⟩ := located_ok h
    split at h
    · rename_i hasm
      cases h
      exact .of_runs (asmLines_runs hasm)
    · cases h
  | .break_ pos, loop, live, loc, pc, code, s, s', hok, h => by
    simp only [emitStmt] at h
    obtain ⟨loc, s₁, s₂, h⟩ := located_ok h
    exact emitLoopJump_keeps (Or.inl rfl) h
  | .continue_ pos, loop, live, loc, pc, code, s, s', hok, h => by
    simp only [emitStmt] at h
    obtain ⟨loc, s₁, s₂, h⟩ := located_ok h
    exact emitLoopJump_keeps (Or.inr rfl) h
  | .block pos body, loop, live, loc, pc, code, s, s', hok, h => by
    simp only [emitStmt] at h
    obtain ⟨loc, s₁, s₂, h⟩ := located_ok h
    exact emitBlock_keeps body hok h
  | .if_ pos cond thenBlock elseBlock, loop, live, loc, pc, code, s, s', hok, h => by
    obtain ⟨hc, ht, he⟩ := hok
    simp only [emitStmt] at h
    obtain ⟨loc, s₁, s₂, h⟩ := located_ok h
    obtain ⟨c, s₃, hcc, h⟩ := bind_ok.mp h
    obtain ⟨t, s₄, htc, h⟩ := bind_ok.mp h
    obtain ⟨e, s₅, hec, h⟩ := bind_ok.mp h
    obtain ⟨rfl, -⟩ := Prod.mk.inj (pure_ok.mp h)
    exact if_keeps (value_runs hA hc.2 hcc) (emitBlock_keeps thenBlock ht htc) (emitBlock_keeps elseBlock he hec) rfl rfl
  | .while_ pos cond body, loop, live, loc, pc, code, s, s', hok, h => by
    obtain ⟨hc, hb⟩ := hok
    simp only [emitStmt] at h
    obtain ⟨loc, s₁, s₂, h⟩ := located_ok h
    obtain ⟨c, s₃, hcc, h⟩ := bind_ok.mp h
    obtain ⟨b, s₄, hbc, h⟩ := bind_ok.mp h
    obtain ⟨rfl, -⟩ := Prod.mk.inj (pure_ok.mp h)
    exact .of_runs (while_runs (value_runs hA hc.2 hcc) (emitBlock_keeps body hb hbc))
  | .for_ pos none cond step body refs, loop, live, loc, pc, code, s, s', hok, h => by
    obtain ⟨hc, hs, hb, -⟩ := hok
    simp only [emitStmt] at h
    obtain ⟨loc, s₁, s₂, h⟩ := located_ok h
    exact .of_runs (emitLoop_runs hA hc hs (fun _ _ _ _ => emitBlock_keeps body hb) h)
  | .for_ pos (some init) cond step body refs, loop, live, loc, pc, code, s, s', hok, h => by
    obtain ⟨hi, hc, hs, hb, -⟩ := hok
    simp only [emitStmt] at h
    obtain ⟨loc, s₁, s₂, h⟩ := located_ok h
    obtain ⟨i, s₃, hic, h⟩ := bind_ok.mp h
    obtain ⟨l, s₄, hlc, h⟩ := bind_ok.mp h
    obtain ⟨rfl, -⟩ := Prod.mk.inj (pure_ok.mp h)
    have hinit := emitStmt_keeps init hi hic
    rw [Option.isSome_map] at hinit
    have hloop : Keeps arity C.layout loop.isSome (pc + i.length) l :=
      .of_runs (emitLoop_runs hA hc hs (fun _ _ _ _ => emitBlock_keeps body hb) hlc)
    exact (hinit.append hloop).append (.of_runs (releaseScope_runs refs _))
  | .match_ pos subject arms, loop, live, loc, pc, code, s, s', hok, h => by
    obtain ⟨name, -, hsub, harms⟩ := hok
    simp only [emitStmt] at h
    obtain ⟨loc, s₁, s₂, h⟩ := located_ok h
    obtain ⟨c, s₃, hc, h⟩ := bind_ok.mp h
    obtain ⟨as, s₄, has, h⟩ := bind_ok.mp h
    obtain ⟨rest, s₅, hrest, h⟩ := bind_ok.mp h
    obtain ⟨rfl, -⟩ := Prod.mk.inj (pure_ok.mp h)
    exact match_keeps (value_runs hA hsub hc) (emitArms_flows arms harms has) (emitCatchAll_keeps arms harms hrest)
      rfl rfl rfl

theorem emitStmts_keeps : ∀ (sts : List TStmt) {loop : Option LoopContext} {live : List Symbol} {loc : Option Pos}
    {pc : ℕ} {code : List Site} {s s' : GenState}, StmtsOk G ret live sts →
      emitStmts C loop live loc pc sts s = .ok (code, s') → Keeps arity C.layout loop.isSome pc code
  | [], loop, live, loc, pc, code, s, s', _, h => by
    simp only [emitStmts] at h
    obtain ⟨rfl, -⟩ := Prod.mk.inj (pure_ok.mp h)
    exact .nil
  | st :: sts, loop, live, loc, pc, code, s, s', hok, h => by
    simp only [emitStmts] at h
    obtain ⟨c, s₁, hc, h⟩ := bind_ok.mp h
    obtain ⟨cs, s₂, hcs, h⟩ := bind_ok.mp h
    obtain ⟨rfl, -⟩ := Prod.mk.inj (pure_ok.mp h)
    exact (emitStmt_keeps st hok.1 hc).append (emitStmts_keeps sts hok.2 hcs)

theorem emitBlock_keeps : ∀ (b : TBlock) {loop : Option LoopContext} {live : List Symbol} {loc : Option Pos} {pc : ℕ}
    {code : List Site} {s s' : GenState}, BlockOk G ret live b → emitBlock C loop live loc pc b s = .ok (code, s') →
      Keeps arity C.layout loop.isSome pc code
  | .mk stmts refs, loop, live, loc, pc, code, s, s', hok, h => by
    simp only [emitBlock] at h
    obtain ⟨c, s₁, hc, h⟩ := bind_ok.mp h
    obtain ⟨rfl, -⟩ := Prod.mk.inj (pure_ok.mp h)
    have hstmts := emitStmts_keeps stmts hok.1 hc
    rw [Option.isSome_map] at hstmts
    exact hstmts.append (.of_runs (releaseScope_runs refs _))

theorem emitArms_flows : ∀ (arms : List TArm) {loop : Option LoopContext} {live : List Symbol} {loc : Option Pos}
    {subject : Ty} {name : TypeName} {pc : ℕ} {code : List Site} {s s' : GenState}, ArmsOk G ret name live arms →
      emitArms C loop live loc subject pc arms s = .ok (code, s') →
      Flows arity C.layout pc code [.tag, .val subject] ((.at (pc + code.length), 2) :: armExits loop.isSome)
  | [], loop, live, loc, subject, name, pc, code, s, s', _, h => by
    simp only [emitArms] at h
    obtain ⟨rfl, -⟩ := Prod.mk.inj (pure_ok.mp h)
    exact Flows.mono (Runs.nil (σ := [.tag, .val subject])) (by simp)
  | .mk _ none _ (.mk _ _) :: arms, loop, live, loc, subject, name, pc, code, s, s', hok, h => by
    simp only [emitArms] at h
    exact emitArms_flows arms hok.2.2 h
  | .mk pos (some v) bindings (.mk stmts refs) :: arms, loop, live, loc, subject, name, pc, code, s, s', hok, h => by
    obtain ⟨-, hstmts, -, harms⟩ := hok
    simp only [emitArms] at h
    obtain ⟨p, s₁, hp, h⟩ := bind_ok.mp h
    obtain ⟨b, s₂, hb, h⟩ := bind_ok.mp h
    obtain ⟨rest, s₃, hrest, h⟩ := bind_ok.mp h
    obtain ⟨rfl, -⟩ := Prod.mk.inj (pure_ok.mp h)
    have hbody := emitStmts_keeps stmts hstmts hb
    rw [Option.isSome_map] at hbody
    have hrest := emitArms_flows arms harms hrest
    refine Flows.mono (arm_flows (bindPayload_runs hp) hbody (releaseScope_runs refs _) hrest rfl rfl) fun t ht => ?_
    rcases List.mem_cons.mp ht with rfl | ht
    · simp
      omega
    · exact List.mem_cons_of_mem _ ht

theorem emitCatchAll_keeps : ∀ (arms : List TArm) {loop : Option LoopContext} {live : List Symbol} {loc : Option Pos}
    {name : TypeName} {pc : ℕ} {code : List Site} {s s' : GenState}, ArmsOk G ret name live arms →
      emitCatchAll C loop live loc pc arms s = .ok (code, s') → Keeps arity C.layout loop.isSome pc code
  | [], loop, live, loc, name, pc, code, s, s', _, h => by
    simp only [emitCatchAll] at h
    obtain ⟨rfl, -⟩ := Prod.mk.inj (pure_ok.mp h)
    exact .nil
  | .mk _ none _ (.mk stmts refs) :: arms, loop, live, loc, name, pc, code, s, s', hok, h => by
    simp only [emitCatchAll] at h
    obtain ⟨c, s₁, hc, h⟩ := bind_ok.mp h
    obtain ⟨rfl, -⟩ := Prod.mk.inj (pure_ok.mp h)
    have hstmts := emitStmts_keeps stmts hok.1 hc
    rw [Option.isSome_map] at hstmts
    exact hstmts.append (.of_runs (releaseScope_runs refs _))
  | .mk _ (some _) _ (.mk _ _) :: arms, loop, live, loc, name, pc, code, s, s', hok, h => by
    simp only [emitCatchAll] at h
    exact emitCatchAll_keeps arms hok.2.2.2 h
end

/-- The code of a function leads nowhere but to its own instructions. -/
theorem emitFunctionCode_flows {fn : TFunction} {s s' : GenState} (hok : FunctionOk G fn)
    (h : emitFunctionCode C fn pc s = .ok (code, s')) : Flows arity C.layout pc code [] [] := by
  obtain ⟨body, s₁, hbody, h⟩ := bind_ok.mp h
  obtain ⟨rfl, -⟩ := Prod.mk.inj (pure_ok.mp h)
  have hkeeps : Runs arity C.layout pc body [] [] := emitStmts_keeps hA fn.body hok.body hbody
  have hpush : Runs arity C.layout (pc + body.length) [⟨.instr (.pushInt 0), [], [], .epilogue⟩] [] [.val .void] :=
    Flows.instr rfl (Nat.zero_le _) rfl
  have hret : Flows arity C.layout (pc + body.length + 1) [⟨.instr .ret, [.val .void], [], .epilogue⟩] [.val .void] [] := by
    refine Leaves.one ?_ ?_
    · rintro v rfl
      exact ⟨rfl, Nat.le_refl 1, by simp, fun _ => rfl, by simp, by simp⟩
    · rintro v rfl x v' hlead
      exact absurd hlead id
  exact hkeeps.then (hpush.then hret rfl) rfl

end Statements

end QuinLang
