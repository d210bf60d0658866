import QuinLang.Compiler.ExpressionRuns

/-! The code of a statement does what the statement means. -/

namespace QuinLang

open StateExcept Following

/-- Where control is once a statement is done: past it, where its loop's jumps lead, or about
to return. -/
def Lands (P : CompiledProgram) (breakPc continuePc endPc : ℕ) : Completion → ℕ → Prop
  | .next, p => p = endPc
  | .broke, p => p = breakPc
  | .continued, p => p = continuePc
  | .returned _, p => P.code[p]? = some .ret

/-- The stack by then, `σ` being that of the callers. -/
def Completion.stack (σ : List Entry) : Completion → List Entry
  | .returned v => entry v :: σ
  | _ => σ

section Statements

variable {W : Type} {P : CompiledProgram} {F : FloatOps} {io : ProgramIO W} {C : GenContext} {fn : TFunction} {base : VM W}
  {n breakPc continuePc entryPc pc q : ℕ} {call : Calls W} {live : List Symbol} {loc : Option Pos} {σ : List Entry}
  {code : List Site} {s s' : GenState}

/-- What has no jumps out of it is done when it ends. -/
theorem Does.next {m : Eval W Unit} (h : Does P F io fn base n pc σ m (fun _ p => p = q) fun _ => σ) :
    Does P F io fn base n pc σ (m >>= fun _ => Pure.pure Completion.next) (Lands P breakPc continuePc q) (Completion.stack σ) :=
  h.andThen fun _ => .pure rfl rfl

/-- One statement after another. -/
theorem Does.sequence {m rest : Eval W Completion} {mid : ℕ}
    (h : Does P F io fn base n pc σ m (Lands P breakPc continuePc mid) (Completion.stack σ))
    (hrest : Does P F io fn base n mid σ rest (Lands P breakPc continuePc q) (Completion.stack σ)) :
    Does P F io fn base n pc σ (m >>= fun o => o.andThen rest) (Lands P breakPc continuePc q) (Completion.stack σ) := by
  refine h.bind fun o p hp => ?_
  cases o with
  | next =>
    obtain rfl : p = mid := hp
    exact hrest
  | broke | continued | returned => exact .pure hp rfl

/-- A jump to where a statement leads. -/
theorem jump_does {o : Completion} {target : ℕ} (hi : P.code[pc]? = some (.jmp target)) (hland : Lands P breakPc continuePc q o target)
    (hleft : o.stack σ = σ) : Does P F io fn base n pc σ (Pure.pure o) (Lands P breakPc continuePc q) (Completion.stack σ) :=
  (Does.jmp hi (.pure hland hleft)).mono (Nat.le_succ n)

/-- A jump where a statement ends. -/
theorem Does.jumpOver {m : Eval W Completion} {mid : ℕ}
    (h : Does P F io fn base n pc σ m (Lands P breakPc continuePc mid) (Completion.stack σ)) (hi : P.code[mid]? = some (.jmp q)) :
    Does P F io fn base n pc σ m (Lands P breakPc continuePc q) (Completion.stack σ) := by
  rw [← bind_pure m]
  refine h.bind fun o p hp => ?_
  cases o with
  | next =>
    obtain rfl : p = mid := hp
    exact jump_does hi rfl rfl
  | broke | continued | returned => exact .pure hp rfl

section Zeros

/-- Zeros into `m` elements from the `k`th on. -/
def zeroFrom (sym : Symbol) : ℕ → ℕ → Eval W Unit
  | _, 0 => return ()
  | k, m + 1 => do
    writeVar sym k 0
    zeroFrom sym (k + 1) m

theorem zeroFrom_eq {sym : Symbol} {k m : ℕ} {env : Env W} (hlen : (env.vars sym.index).length = k + m) :
    zeroFrom sym k m env = .ok ((), { env with
      vars := Function.update env.vars sym.index ((env.vars sym.index).take k ++ List.replicate m 0) }) := by
  induction m generalizing k env with
  | zero =>
    rw [List.replicate_zero, List.append_nil, List.take_of_length_le (by omega), Function.update_eq_self]
    rfl
  | succ m ih =>
    have hwrite : writeVar sym k 0 env = .ok ((), { env with
        vars := Function.update env.vars sym.index ((env.vars sym.index).set k 0) }) := rfl
    have htake : ((env.vars sym.index).set k 0).take (k + 1) = (env.vars sym.index).take k ++ [0] := by
      rw [List.take_add_one, List.take_set_of_le (Nat.le_refl k), List.getElem?_set_self (by omega)]
      rfl
    rw [zeroFrom, bind_eq hwrite, ih (by dsimp only; rw [Function.update_self, List.length_set]; omega)]
    simp only [Function.update_self, Function.update_idem, htake, List.append_assoc, List.singleton_append, List.replicate_succ]

theorem zeroSlots_does {sym : Symbol} {slot : LocalSlot} {k m : ℕ} (hσ : base.frameBase ≤ σ.length)
    (hslot : (buildLayout fn).slot? sym = some slot) (hk : k + m = sym.type.arrayLength)
    (hat : HasCode P breakPc continuePc pc (zeroSlots live (slot.index + k) m)) :
    Does P F io fn base n pc σ (zeroFrom sym k m) (fun _ p => p = pc + (zeroSlots live (slot.index + k) m).length) fun _ => σ := by
  induction m generalizing pc k with
  | zero => exact .pure rfl rfl
  | succ m ih =>
    refine Does.const (v := 0) hat.head rfl ?_
    refine (Does.store hσ hat.tail.head hslot (lt_slotWidth (by omega))).andThen fun _ => ?_
    refine (ih (k := k + 1) (by omega) hat.tail.tail).weaken fun _ p hp => ?_
    rw [hp, zeroSlots, ← Nat.add_assoc slot.index]
    simp only [List.length_cons]
    omega

end Zeros

/-- An int is printed as its decimal. -/
theorem puts_does {v : Word} {newline : Bool} (hσ : base.frameBase ≤ σ.length)
    (hi : P.code[pc]? = some (if newline then .printlnInt else .printInt)) :
    Does P F io fn base n pc (entry v :: σ) (puts io (toString v.toInt ++ if newline then "\n" else "")) (fun _ p => p = pc + 1)
      fun _ => σ := by
  intro env locals hholds
  have hexec : execute P F io (if newline then .printlnInt else .printInt) (base.at (pc + 1) (entry v :: σ) locals env.io) =
      write io (toString v.toInt ++ if newline then "\n" else "") (base.at (pc + 1) σ locals env.io) := by
    cases newline with
    | true => exact bind_eq (popSigned_at v hσ)
    | false =>
      rw [if_neg Bool.false_ne_true, if_neg Bool.false_ne_true, String.append_empty]
      exact bind_eq (popSigned_at v hσ)
  have hne : (if newline then Instruction.printlnInt else .printInt) ≠ .ret := by cases newline <;> simp
  unfold puts
  unfold write at hexec
  split
  · next w hw =>
    rw [show (base.at (pc + 1) σ locals env.io).io = env.io from rfl, hw] at hexec
    have hexec : execute P F io _ (base.at (pc + 1) (entry v :: σ) locals env.io) =
      .ok ((), base.at (pc + 1) σ locals ({ env with io := w } : Env W).io) := hexec
    exact Does.instr hi hne hexec hholds
  · next x hx =>
    rw [show (base.at (pc + 1) σ locals env.io).io = env.io from rfl, hx] at hexec
    exact .fault (fails_at hi hne hexec)

variable (hlayout : C.layout = buildLayout fn) (hfn : P.functions[base.currentFn]? = some ((buildLayout fn).info entryPc))
  (hcall : CallsFollow P F io n call)

include hlayout hfn hcall

/-- The value of an expression, in code that was emitted for it. -/
theorem value_does {e : TExpr} {τ : List Static} {c : List Site} {ρ : List Entry} (hρ : base.frameBase ≤ ρ.length)
    (h : emitExpr C live loc pc τ e s = .ok (c, s')) (hat : HasCode P breakPc continuePc pc c) :
    Does P F io fn base n pc ρ (evalExpr C.functions call e) (fun _ p => p = pc + c.length) fun v => entry v :: ρ :=
  emitExpr_does hlayout hcall hfn e ⟨loc, s, s', h⟩ hat hρ

variable (hσ : base.frameBase ≤ σ.length)

include hσ

theorem emitSimple_does {st : TSimple} (h : emitSimple C live loc pc st s = .ok (code, s')) (hat : HasCode P breakPc continuePc pc code) :
    Does P F io fn base n pc σ (execSimple C.functions call st) (fun _ p => p = pc + code.length) fun _ => σ := by
  obtain ⟨loc, s₁, s₂, h⟩ := located_ok h
  cases st with
  | assignLocal pos sym value =>
    obtain ⟨slot, s₃, hslot, h⟩ := bind_ok.mp h
    have hslot := slotOf_ok hslot
    rw [hlayout] at hslot
    rw [execSimple]
    split at h
    · cases h
    · split_ifs with hfloat
      · exact .outside
      · obtain ⟨v, s₄, hvc, h⟩ := bind_ok.mp h
        obtain ⟨rfl, -⟩ := Prod.mk.inj (pure_ok.mp h)
        rw [storeSlot, if_neg hfloat] at hat ⊢
        refine (value_does hlayout hfn hcall hσ hvc hat.left).andThen fun v => ?_
        refine (Does.store hσ (k := 0) hat.right.head hslot (slotWidth_pos sym.type)).weaken fun _ p hp => ?_
        rw [hp, List.length_append, Nat.add_assoc]
        rfl
  | assignElem pos targetPos array index value =>
    cases array with
    | «local» apos sym =>
      rw [execSimple]
      split_ifs with harray
      · simp only [emitSimpleBody] at h
        cases hty : sym.type with
        | frameArray length =>
          simp only [TExpr.type, hty] at h
          obtain ⟨⟨sym', slot⟩, s₃, hslot, h⟩ := bind_ok.mp h
          have hslot := (arraySlot_local hslot).2
          rw [hlayout] at hslot
          obtain ⟨v, s₄, hvc, h⟩ := bind_ok.mp h
          obtain ⟨i, s₅, hic, h⟩ := bind_ok.mp h
          obtain ⟨rfl, -⟩ := Prod.mk.inj (pure_ok.mp h)
          obtain ⟨loc, s₆, s₇, hic⟩ := located_ok hic
          obtain ⟨x, s₈, hx, hic⟩ := bind_ok.mp hic
          obtain ⟨rfl, -⟩ := Prod.mk.inj (pure_ok.mp hic)
          have hone (v : Word) : base.frameBase ≤ (entry v :: σ).length := Nat.le_succ_of_le hσ
          refine (value_does hlayout hfn hcall hσ hvc hat.left).andThen fun v => ?_
          refine (value_does hlayout hfn hcall (hone v) hx hat.right.left).andThen fun i => ?_
          refine (Does.boundsCheck (hone v) hat.right.right.head hslot).bind fun k p hk => ?_
          obtain ⟨rfl, hindex, hlt⟩ := hk
          refine (Does.storeIdx hσ hat.right.right.tail.head hslot hindex hlt).weaken fun _ p hp => ?_
          rw [hp]
          simp
          omega
        | _ => simp [Ty.isFrameArray, hty] at harray
      · exact .outside
    | _ => exact .outside
  | assignField pos targetPos obj field value => exact .outside
  | expr pos e =>
    obtain ⟨c, s₃, hc, h⟩ := bind_ok.mp h
    obtain ⟨rfl, -⟩ := Prod.mk.inj (pure_ok.mp h)
    refine (value_does hlayout hfn hcall hσ hc hat.left).andThen fun v => ?_
    refine Does.popWord hσ hat.right.head (.pure ?_ rfl)
    rw [List.length_append, Nat.add_assoc]
    rfl

theorem emitPrint_does {newline : Bool} {value : TExpr} (h : emitPrint C live loc newline pc value s = .ok (code, s'))
    (hat : HasCode P breakPc continuePc pc code) :
    Does P F io fn base n pc σ (printWord C.functions call io value (if newline then "\n" else ""))
      (fun _ p => p = pc + code.length) fun _ => σ := by
  unfold emitPrint at h
  obtain ⟨v, s₁, hv, h⟩ := bind_ok.mp h
  unfold printWord
  by_cases hty : value.type = .str ∨ value.type = .bool ∨ value.type = .float
  · rw [if_pos hty]
    exact .outside
  · rw [if_neg hty]
    obtain ⟨hstr, hbool, hfloat⟩ : value.type ≠ .str ∧ value.type ≠ .bool ∧ value.type ≠ .float := by tauto
    rw [if_neg hbool] at h
    obtain ⟨rfl, -⟩ := Prod.mk.inj (pure_ok.mp h)
    have hprint : printOp newline value.type = if newline then .printlnInt else .printInt := by
      rw [printOp, if_neg (not_or.mpr ⟨hstr, hbool⟩), if_neg hfloat]
    rw [hprint] at hat ⊢
    refine (value_does hlayout hfn hcall hσ hv hat.left).andThen fun v => ?_
    refine (puts_does hσ hat.right.head).weaken fun _ p hp => ?_
    rw [hp, List.length_append, Nat.add_assoc]
    rfl

theorem emitVarDecl_does {pos : Pos} {sym : Symbol} {init : Option TExpr} (h : emitVarDecl C live loc pc pos sym init s = .ok (code, s'))
    (hat : HasCode P breakPc continuePc pc code) :
    Does P F io fn base n pc σ (execDecl C.functions call sym init) (fun _ p => p = pc + code.length) fun _ => σ := by
  unfold emitVarDecl at h
  obtain ⟨slot, s₁, hslot, h⟩ := bind_ok.mp h
  have hslot := slotOf_ok hslot
  rw [hlayout] at hslot
  obtain ⟨hsym, -, hlength⟩ := slot?_ok hslot
  unfold execDecl
  rw [← hlength]
  split at h
  · next harray =>
    obtain ⟨rfl, -⟩ := Prod.mk.inj (pure_ok.mp h)
    have hpos : 0 < slot.length := of_decide_eq_true harray
    rw [if_pos hpos]
    intro env locals hholds
    have hwidth : (env.vars sym.index).length = 0 + slot.length := by
      rw [hholds.width _ _ hsym, Ty.slotWidth, ← hlength, if_pos (Nat.ne_of_gt hpos), Nat.zero_add]
    have hzero := zeroFrom_eq hwidth
    rw [List.take_zero, List.nil_append] at hzero
    have hdoes : Does P F io fn base n pc σ (zeroFrom sym 0 slot.length) _ _ :=
      zeroSlots_does hσ hslot (by rw [Nat.zero_add, hlength]) hat
    have hdoes := hdoes env locals hholds
    rw [hzero] at hdoes
    exact hdoes
  · next harray =>
    have hpos : ¬0 < slot.length := fun hlt => harray (decide_eq_true hlt)
    rw [if_neg hpos]
    by_cases hfloat : sym.type = .float
    · rw [if_pos hfloat]
      exact .outside
    · rw [if_neg hfloat]
      cases init with
      | some value =>
        obtain ⟨v, s₂, hvc, h⟩ := bind_ok.mp h
        obtain ⟨rfl, -⟩ := Prod.mk.inj (pure_ok.mp h)
        rw [storeSlot, if_neg hfloat] at hat ⊢
        refine (value_does hlayout hfn hcall hσ hvc hat.left).andThen fun v => ?_
        refine (Does.store hσ (k := 0) hat.right.head hslot (slotWidth_pos sym.type)).weaken fun _ p hp => ?_
        rw [hp, List.length_append, Nat.add_assoc]
        rfl
      | none =>
        obtain ⟨instr, s₂, hinstr, h⟩ := bind_ok.mp h
        obtain ⟨rfl, -⟩ := Prod.mk.inj (pure_ok.mp h)
        dsimp only
        split_ifs with hstr
        · exact .outside
        · rw [emitDefault, if_neg hstr, if_neg hfloat] at hinstr
          obtain ⟨rfl, -⟩ := Prod.mk.inj (pure_ok.mp hinstr)
          rw [storeSlot, if_neg hfloat] at hat ⊢
          exact Does.const (v := 0) hat.head rfl (Does.store hσ (k := 0) hat.tail.head hslot (slotWidth_pos sym.type))

theorem execStep_does {step : Option TSimple} (h : emitStep C live loc pc step s = .ok (code, s'))
    (hat : HasCode P breakPc continuePc pc code) :
    Does P F io fn base n pc σ (execStep C.functions call step) (fun _ p => p = pc + code.length) fun _ => σ := by
  cases step with
  | none =>
    obtain ⟨rfl, -⟩ := Prod.mk.inj (pure_ok.mp h)
    exact .pure rfl rfl
  | some st => exact emitSimple_does hlayout hfn hcall hσ h hat

omit hlayout hfn hcall hσ

/-- A turn takes at least a step, so that a loop whose turns run out has run as long. -/
theorem iterate_does {test : Eval W Word} {body : Eval W Completion} {step : Eval W Unit} {m : ℕ} (hm : m ≤ n)
    (hturn : ∀ (k : ℕ) (rest : Eval W Completion), k < n →
      Does P F io fn base k pc σ rest (Lands P breakPc continuePc q) (Completion.stack σ) →
      Does P F io fn base (k + 1) pc σ (turn test body step rest) (Lands P breakPc continuePc q) (Completion.stack σ)) :
    Does P F io fn base m pc σ (iterate test body step m) (Lands P breakPc continuePc q) (Completion.stack σ) := by
  induction m with
  | zero => exact fun env locals _ => ⟨0, _, Nat.le_refl 0, .refl _⟩
  | succ m ih => exact hturn m _ hm (ih (Nat.le_of_succ_le hm))

variable {test : Eval W Word} {body rest : Eval W Completion} {step : Eval W Unit} {k bodyPc stepPc : ℕ}

/-- The body of a loop and the way back to its start, its jumps leading where the loop sends them. -/
theorem again_does {endPc nextPc : ℕ} (hk : k ≤ n)
    (hbody : Does P F io fn base n bodyPc σ body (Lands P endPc nextPc stepPc) (Completion.stack σ))
    (hstep : Does P F io fn base k stepPc σ (step >>= fun _ => rest) (Lands P breakPc continuePc endPc) (Completion.stack σ))
    (hnext : Does P F io fn base k nextPc σ (step >>= fun _ => rest) (Lands P breakPc continuePc endPc) (Completion.stack σ)) :
    Does P F io fn base k bodyPc σ (body >>= fun o => o.again step rest) (Lands P breakPc continuePc endPc) (Completion.stack σ) := by
  refine (hbody.mono hk).bind fun o p hp => ?_
  cases o with
  | next =>
    obtain rfl : p = stepPc := hp
    exact hstep
  | continued =>
    obtain rfl : p = nextPc := hp
    exact hnext
  | broke =>
    obtain rfl : p = endPc := hp
    exact .pure rfl rfl
  | returned v => exact .pure hp rfl

/-- A turn with a test in front; the jump at the test's end is the step it takes. -/
theorem turn_does {testEnd endPc : ℕ} (hσ : base.frameBase ≤ σ.length) (hk : k < n)
    (htest : Does P F io fn base n pc σ test (fun _ p => p = testEnd) fun v => entry v :: σ)
    (hjump : P.code[testEnd]? = some (.jz endPc))
    (hbody : Does P F io fn base k (testEnd + 1) σ (body >>= fun o => o.again step rest) (Lands P breakPc continuePc endPc)
      (Completion.stack σ)) :
    Does P F io fn base (k + 1) pc σ (turn test body step rest) (Lands P breakPc continuePc endPc) (Completion.stack σ) := by
  refine (htest.mono hk).andThen fun t => Does.branch_succ hσ (Or.inl ⟨hjump, rfl⟩) ?_
  split_ifs
  · exact .pure rfl rfl
  · exact hbody

include hlayout hfn hcall

/-- The repeated part of a `for`. -/
theorem emitLoop_does (hσ : base.frameBase ≤ σ.length) {cond : Option TExpr} {step : Option TSimple} {emitBody : ℕ → Gen (List Site)}
    (hbody : ∀ (bodyPc : ℕ) (b : List Site) (s s' : GenState) (breakPc continuePc : ℕ), emitBody bodyPc s = .ok (b, s') →
      HasCode P breakPc continuePc bodyPc b →
      Does P F io fn base n bodyPc σ body (Lands P breakPc continuePc (bodyPc + b.length)) (Completion.stack σ))
    (h : emitLoop C live loc pc cond step emitBody s = .ok (code, s')) (hat : HasCode P breakPc continuePc pc code) :
    Does P F io fn base n pc σ (iterate (evalTest C.functions call cond) body (execStep C.functions call step) n)
      (Lands P breakPc continuePc (pc + code.length)) (Completion.stack σ) := by
  cases cond with
  | some cond =>
    obtain ⟨c, s₁, hc, h⟩ := bind_ok.mp h
    obtain ⟨b, s₂, hb, h⟩ := bind_ok.mp h
    obtain ⟨st, s₃, hst, h⟩ := bind_ok.mp h
    obtain ⟨rfl, -⟩ := Prod.mk.inj (pure_ok.mp h)
    simp only [List.append_assoc, List.cons_append] at hat ⊢
    have hstart := hat.right.tail
    have hsteps := hstart.right
    rw [List.length_map] at hsteps
    refine iterate_does (Nat.le_refl n) fun k rest hk hrest => ?_
    have hlast : Does P F io fn base k (pc + c.length + 1 + b.length) σ (execStep C.functions call step >>= fun _ => rest) _ _ :=
      ((execStep_does hlayout hfn hcall hσ hst hsteps.left).mono hk.le).andThen fun _ =>
        (Does.jmp hsteps.right.head hrest).mono (Nat.le_succ k)
    have hend : pc + (c ++ op (.jz (pc + c.length + 1 + b.length + st.length + 1)) [.val .bool] live ::
        (b.map (Site.patchLoop (pc + c.length + 1 + b.length + st.length + 1) (pc + c.length + 1 + b.length)) ++
          (st ++ [op (.jmp pc) [] live]))).length = pc + c.length + 1 + b.length + st.length + 1 := by
      simp
      omega
    rw [hend] at hlast ⊢
    exact turn_does hσ hk (value_does hlayout hfn hcall hσ hc hat.left) hat.right.head
      (again_does hk.le (hbody _ _ _ _ _ _ hb hstart.left.patched) hlast hlast)
  | none =>
    obtain ⟨b, s₂, hb, h⟩ := bind_ok.mp h
    obtain ⟨st, s₃, hst, h⟩ := bind_ok.mp h
    obtain ⟨rfl, -⟩ := Prod.mk.inj (pure_ok.mp h)
    simp only [List.append_assoc] at hat ⊢
    have hsteps := hat.right
    rw [List.length_map] at hsteps
    refine iterate_does (Nat.le_refl n) fun k rest hk hrest => ?_
    have hlast : Does P F io fn base (k + 1) (pc + b.length) σ (execStep C.functions call step >>= fun _ => rest) _ _ :=
      ((execStep_does hlayout hfn hcall hσ hst hsteps.left).mono hk).andThen fun _ => Does.jmp hsteps.right.head hrest
    have hend : pc + (b.map (Site.patchLoop (pc + b.length + st.length + 1) (pc + b.length)) ++
        (st ++ [op (.jmp pc) [] live])).length = pc + b.length + st.length + 1 := by
      simp
      omega
    rw [hend] at hlast ⊢
    exact again_does hk (hbody _ _ _ _ _ _ hb hat.left.patched) hlast hlast

/-- The code of a `while`. -/
theorem emitWhile_does (hσ : base.frameBase ≤ σ.length) {cond : TExpr} {c b : List Site} {s'' : GenState}
    (hc : emitExpr C live loc pc [] cond s = .ok (c, s'')) {endPc : ℕ}
    (hbody : Does P F io fn base n (pc + c.length + 1) σ body (Lands P endPc pc (pc + c.length + 1 + b.length)) (Completion.stack σ))
    (hat : HasCode P breakPc continuePc pc (c ++ op (.jz endPc) [.val .bool] live :: b.map (Site.patchLoop endPc pc) ++
      [op (.jmp pc) [] live])) :
    Does P F io fn base n pc σ (iterate (evalExpr C.functions call cond) body (pure ()) n)
      (Lands P breakPc continuePc endPc) (Completion.stack σ) := by
  rw [List.append_assoc] at hat
  have hback := hat.right.tail.right
  rw [List.length_map] at hback
  refine iterate_does (Nat.le_refl n) fun k rest hk hrest => ?_
  exact turn_does hσ hk (value_does hlayout hfn hcall hσ hc hat.left) hat.right.head
    (again_does hk.le hbody ((Does.jmp hback.head hrest).mono (Nat.le_succ k)) hrest)

omit hlayout hfn hcall in
theorem length_if {c t e : List Site} {x y : Site} :
    pc + (c ++ x :: (t ++ y :: e)).length = pc + c.length + 1 + t.length + 1 + e.length := by
  simp
  omega

omit hlayout hfn hcall in
theorem length_while {c b : List Site} {x y : Site} {f : Site → Site} :
    pc + (c ++ x :: b.map f ++ [y]).length = pc + c.length + 1 + b.length + 1 := by
  simp
  omega

/-- No scope a jump leaves has references to release. -/
def LoopContext.Plain (loop : Option LoopContext) : Prop := ∀ l ∈ loop, l.scopes.flatten = []

omit hlayout hfn hcall in
theorem LoopContext.Plain.enter {loop : Option LoopContext} (h : LoopContext.Plain loop) :
    LoopContext.Plain (loop.map (LoopContext.enter [])) := by
  intro l hl
  obtain ⟨l', hl', rfl⟩ := Option.mem_map.mp hl
  exact h l' hl'

omit hlayout hfn hcall in
theorem LoopContext.Plain.inner : LoopContext.Plain (some { live := live }) := by
  intro l hl
  obtain rfl := Option.mem_some.mp hl
  rfl

omit hlayout hfn hcall in
theorem emitLoopJump_plain {loop : Option LoopContext} {kind : String} {jump : Emitted} {pos : Pos}
    (h : emitLoopJump C kind jump loop pos s = .ok (code, s')) (hloop : LoopContext.Plain loop) :
    ∃ live, code = [⟨jump, [], live, .plain⟩] := by
  cases loop with
  | none => cases h
  | some l =>
    obtain ⟨rfl, -⟩ := Prod.mk.inj (pure_ok.mp h)
    rw [hloop l rfl]
    exact ⟨l.live, rfl⟩

variable (hσ : base.frameBase ≤ σ.length)

include hσ

set_option linter.unusedSectionVars false

mutual
theorem emitStmt_does : ∀ (st : TStmt) {loop : Option LoopContext} {live : List Symbol} {loc : Option Pos} {pc breakPc continuePc : ℕ}
    {code : List Site} {s s' : GenState}, emitStmt C loop live loc pc st s = .ok (code, s') → LoopContext.Plain loop →
      HasCode P breakPc continuePc pc code →
      Does P F io fn base n pc σ (execStmt C.functions call io n st) (Lands P breakPc continuePc (pc + code.length)) (Completion.stack σ)
  | .simple st => by
    intro h hloop hat
    rw [execStmt]
    exact (emitSimple_does hlayout hfn hcall hσ h hat).next
  | .varDecl pos sym init => by
    intro h hloop hat
    obtain ⟨loc, s₁, s₂, h⟩ := located_ok h
    rw [execStmt]
    exact (emitVarDecl_does hlayout hfn hcall hσ h hat).next
  | .print pos value => by
    intro h hloop hat
    obtain ⟨loc, s₁, s₂, h⟩ := located_ok h
    rw [execStmt]
    have hprint := emitPrint_does hlayout hfn hcall hσ h hat
    exact hprint.next
  | .println pos value => by
    intro h hloop hat
    obtain ⟨loc, s₁, s₂, h⟩ := located_ok h
    rw [execStmt]
    have hprint := emitPrint_does hlayout hfn hcall hσ h hat
    exact hprint.next
  | .return_ pos none => by
    intro h hloop hat
    obtain ⟨loc, s₁, s₂, h⟩ := located_ok h
    obtain ⟨rfl, -⟩ := Prod.mk.inj (pure_ok.mp h)
    rw [execStmt]
    exact Does.const (v := 0) hat.head rfl (.pure hat.tail.head rfl)
  | .return_ pos (some value) => by
    intro h hloop hat
    obtain ⟨loc, s₁, s₂, h⟩ := located_ok h
    obtain ⟨v, s₃, hv, h⟩ := bind_ok.mp h
    obtain ⟨rfl, -⟩ := Prod.mk.inj (pure_ok.mp h)
    rw [execStmt]
    exact (value_does hlayout hfn hcall hσ hv hat.left).andThen fun v => .pure hat.right.head rfl
  | .if_ pos cond thenBlock elseBlock => by
    intro h hloop hat
    obtain ⟨loc, s₁, s₂, h⟩ := located_ok h
    obtain ⟨c, s₃, hc, h⟩ := bind_ok.mp h
    obtain ⟨t, s₄, ht, h⟩ := bind_ok.mp h
    obtain ⟨e, s₅, he, h⟩ := bind_ok.mp h
    obtain ⟨rfl, -⟩ := Prod.mk.inj (pure_ok.mp h)
    simp only [List.append_assoc, List.cons_append] at hat ⊢
    have hthen := hat.right.tail
    rw [execStmt, length_if]
    refine (value_does hlayout hfn hcall hσ hc hat.left).andThen fun v => Does.branch hσ (Or.inl ⟨hat.right.head, rfl⟩) ?_
    split_ifs
    · exact emitBlock_does elseBlock he hloop hthen.right.tail
    · exact (emitBlock_does thenBlock ht hloop hthen.left).jumpOver hthen.right.head
  | .while_ pos cond body => by
    intro h hloop hat
    obtain ⟨loc, s₁, s₂, h⟩ := located_ok h
    obtain ⟨c, s₃, hc, h⟩ := bind_ok.mp h
    obtain ⟨b, s₄, hb, h⟩ := bind_ok.mp h
    obtain ⟨rfl, -⟩ := Prod.mk.inj (pure_ok.mp h)
    have hcode := hat
    rw [List.append_assoc] at hcode
    rw [execStmt, length_while]
    exact emitWhile_does hlayout hfn hcall hσ hc (emitBlock_does body hb .inner hcode.right.tail.left.patched) hat
  | .for_ pos none cond step body refs => by
    intro h hloop hat
    obtain ⟨loc, s₁, s₂, h⟩ := located_ok h
    rw [execStmt]
    refine emitLoop_does hlayout hfn hcall hσ (fun bodyPc b s s' breakPc continuePc hb hat => ?_) h hat
    exact emitBlock_does body hb .inner hat
  | .for_ pos (some init) cond step body refs => by
    intro h hloop hat
    obtain ⟨loc, s₁, s₂, h⟩ := located_ok h
    obtain ⟨i, s₃, hi, h⟩ := bind_ok.mp h
    obtain ⟨l, s₄, hl, h⟩ := bind_ok.mp h
    obtain ⟨rfl, -⟩ := Prod.mk.inj (pure_ok.mp h)
    rw [execStmt]
    split_ifs with hrefs
    · subst hrefs
      rw [show releaseScope _ C.layout [] = [] from rfl, List.append_nil] at hat ⊢
      refine (emitStmt_does init hi hloop.enter hat.left).sequence ?_
      rw [List.length_append, ← Nat.add_assoc]
      refine emitLoop_does hlayout hfn hcall hσ (fun bodyPc b s s' breakPc continuePc hb hat => ?_) hl hat.right
      exact emitBlock_does body hb .inner hat
    · exact .outside
  | .break_ pos => by
    intro h hloop hat
    obtain ⟨loc, s₁, s₂, h⟩ := located_ok h
    obtain ⟨live', rfl⟩ := emitLoopJump_plain h hloop
    rw [execStmt]
    exact jump_does hat.head rfl rfl
  | .continue_ pos => by
    intro h hloop hat
    obtain ⟨loc, s₁, s₂, h⟩ := located_ok h
    obtain ⟨live', rfl⟩ := emitLoopJump_plain h hloop
    rw [execStmt]
    exact jump_does hat.head rfl rfl
  | .block pos body => by
    intro h hloop hat
    obtain ⟨loc, s₁, s₂, h⟩ := located_ok h
    rw [execStmt]
    exact emitBlock_does body h hloop hat
  | .vmAsm _ _ _ | .match_ _ _ _ => by
    intros
    rw [execStmt]
    exact .outside

theorem emitStmts_does : ∀ (sts : List TStmt) {loop : Option LoopContext} {live : List Symbol} {loc : Option Pos}
    {pc breakPc continuePc : ℕ} {code : List Site} {s s' : GenState}, emitStmts C loop live loc pc sts s = .ok (code, s') →
      LoopContext.Plain loop → HasCode P breakPc continuePc pc code →
      Does P F io fn base n pc σ (execStmts C.functions call io n sts) (Lands P breakPc continuePc (pc + code.length))
        (Completion.stack σ)
  | [] => by
    intro h hloop hat
    obtain ⟨rfl, -⟩ := Prod.mk.inj (pure_ok.mp h)
    rw [execStmts]
    exact .pure rfl rfl
  | st :: sts => by
    intro h hloop hat
    obtain ⟨c, s₁, hc, h⟩ := bind_ok.mp h
    obtain ⟨cs, s₂, hcs, h⟩ := bind_ok.mp h
    obtain ⟨rfl, -⟩ := Prod.mk.inj (pure_ok.mp h)
    rw [execStmts, List.length_append, ← Nat.add_assoc]
    exact (emitStmt_does st hc hloop hat.left).sequence (emitStmts_does sts hcs hloop hat.right)

theorem emitBlock_does : ∀ (b : TBlock) {loop : Option LoopContext} {live : List Symbol} {loc : Option Pos}
    {pc breakPc continuePc : ℕ} {code : List Site} {s s' : GenState}, emitBlock C loop live loc pc b s = .ok (code, s') →
      LoopContext.Plain loop → HasCode P breakPc continuePc pc code →
      Does P F io fn base n pc σ (execBlock C.functions call io n b) (Lands P breakPc continuePc (pc + code.length))
        (Completion.stack σ)
  | .mk stmts refs => by
    intro h hloop hat
    obtain ⟨c, s₁, hc, h⟩ := bind_ok.mp h
    obtain ⟨rfl, -⟩ := Prod.mk.inj (pure_ok.mp h)
    rw [execBlock]
    split_ifs with hrefs
    · subst hrefs
      rw [show releaseScope _ C.layout [] = [] from rfl, List.append_nil] at hat ⊢
      exact emitStmts_does stmts hc hloop.enter hat
    · exact .outside
end

end Statements

end QuinLang
