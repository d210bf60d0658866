import QuinLang.Compiler.Simulation

/-! The code of an expression does what the expression evaluates to. -/

namespace QuinLang

open StateExcept Following

/-- The instruction of a site whose loop jumps are filled in. -/
def Site.filled (breakPc continuePc : ℕ) (s : Site) : Instruction :=
  match s.emitted with
  | .instr i => i
  | .breakJump => .jmp breakPc
  | .continueJump => .jmp continuePc
  | .endJump => .jmp 0

/-- The program has the code at `pc`, its loop jumps leading to the given places. -/
def HasCode (P : CompiledProgram) (breakPc continuePc pc : ℕ) (code : List Site) : Prop :=
  ∀ (k : ℕ) (site : Site), code[k]? = some site → P.code[pc + k]? = some (site.filled breakPc continuePc)

namespace HasCode

variable {P : CompiledProgram} {breakPc continuePc pc : ℕ} {code code' : List Site} {site : Site}

theorem left (h : HasCode P breakPc continuePc pc (code ++ code')) : HasCode P breakPc continuePc pc code := by
  intro k site hk
  exact h k site (by rw [List.getElem?_append_left (List.getElem?_eq_some_iff.mp hk).1, hk])

theorem right (h : HasCode P breakPc continuePc pc (code ++ code')) : HasCode P breakPc continuePc (pc + code.length) code' := by
  intro k site hk
  rw [Nat.add_assoc]
  exact h _ site (by rw [List.getElem?_append_right (by omega), Nat.add_sub_cancel_left, hk])

theorem head (h : HasCode P breakPc continuePc pc (site :: code)) : P.code[pc]? = some (site.filled breakPc continuePc) :=
  h 0 site rfl

theorem tail (h : HasCode P breakPc continuePc pc (site :: code)) : HasCode P breakPc continuePc (pc + 1) code :=
  (show HasCode P breakPc continuePc pc ([site] ++ code) from h).right

/-- Filling in the jumps of a loop's body leaves none for the loop around. -/
theorem patched {endPc stepPc : ℕ} (h : HasCode P breakPc continuePc pc (code.map (Site.patchLoop endPc stepPc))) :
    HasCode P endPc stepPc pc code := by
  intro k site hk
  rw [h k (site.patchLoop endPc stepPc) (by rw [List.getElem?_map, hk]; rfl)]
  obtain ⟨emitted, stack, live, role⟩ := site
  cases emitted <;> rfl

end HasCode

section Forms

variable {C : GenContext} {live : List Symbol} {pos : Pos} {type : Ty} {pc : ℕ} {σ : List Static} {code : List Site}

theorem arraySlot_local {sym : Symbol} {s s' : GenState} {r : Symbol × LocalSlot} (h : arraySlot C (.local pos sym) s = .ok (r, s')) :
    r.1 = sym ∧ C.layout.slot? sym = some r.2 := by
  simp only [arraySlot] at h
  obtain ⟨slot, s₁, hs, h⟩ := bind_ok.mp h
  split at h
  · obtain ⟨rfl, -⟩ := Prod.mk.inj (pure_ok.mp h)
    exact ⟨rfl, slotOf_ok hs⟩
  · cases h

namespace ExprCode

-- Derives the equations once, for all the proofs below.
attribute [local simp] emitExpr evalExpr

theorem int {v : ℤ} (h : ExprCode C live pc σ (.literal pos (.int v)) code) :
    code = [op (.pushInt (v % 65536).toNat) σ live] := by
  obtain ⟨loc, s, s', h⟩ := h
  simp only [emitExpr] at h
  obtain ⟨loc, s₁, s₂, h⟩ := located_ok h
  exact (Prod.mk.inj (pure_ok.mp h)).1.symm

theorem bool {b : Bool} (h : ExprCode C live pc σ (.literal pos (.bool b)) code) :
    code = [op (.pushInt (if b then 1 else 0)) σ live] := by
  obtain ⟨loc, s, s', h⟩ := h
  simp only [emitExpr] at h
  obtain ⟨loc, s₁, s₂, h⟩ := located_ok h
  exact (Prod.mk.inj (pure_ok.mp h)).1.symm

theorem funcRefIndex {name : TypeName} (h : ExprCode C live pc σ (.funcRef pos name type) code) :
    ∃ i, funcIndex C name = some i ∧ code = [op (.pushInt i) σ live] := by
  obtain ⟨loc, s, s', h⟩ := h
  simp only [emitExpr] at h
  obtain ⟨loc, s₁, s₂, h⟩ := located_ok h
  cases hi : funcIndex C name with
  | none => simp [hi, genError, codegenError] at h
  | some i =>
    simp only [hi] at h
    exact ⟨i, rfl, (Prod.mk.inj (pure_ok.mp h)).1.symm⟩

theorem localSlot {sym : Symbol} (h : ExprCode C live pc σ (.local pos sym) code) (hfloat : sym.type ≠ .float) :
    ∃ slot, C.layout.slot? sym = some slot ∧ code = [op (.loadLocal slot.index) σ live] := by
  obtain ⟨loc, s, s', h⟩ := h
  simp only [emitExpr] at h
  obtain ⟨loc, s₁, s₂, h⟩ := located_ok h
  obtain ⟨slot, s₃, hs, h⟩ := bind_ok.mp h
  rw [if_neg hfloat] at h
  split at h
  · cases h
  · exact ⟨slot, slotOf_ok hs, (Prod.mk.inj (pure_ok.mp h)).1.symm⟩

theorem unaryWord {o : UnaryOp} {right : TExpr} (h : ExprCode C live pc σ (.unary pos o right type) code) (hfloat : type ≠ .float) :
    ∃ r, ExprCode C live pc σ right r ∧ code = r ++ [op o.instruction (.val right.type :: σ) live] := by
  obtain ⟨loc, s, s', h⟩ := h
  simp only [emitExpr] at h
  obtain ⟨loc, s₁, s₂, h⟩ := located_ok h
  obtain ⟨r, s₃, hr, h⟩ := bind_ok.mp h
  obtain ⟨rfl, -⟩ := Prod.mk.inj (pure_ok.mp h)
  refine ⟨r, ⟨_, _, _, hr⟩, ?_⟩
  cases o with
  | neg =>
    rw [if_neg hfloat]
    rfl
  | not | bitnot => rfl

theorem indexLocal {apos : Pos} {sym : Symbol} {index : TExpr}
    (h : ExprCode C live pc σ (.index pos (.local apos sym) index type) code) (harray : sym.type.isFrameArray = true) :
    ∃ slot i, C.layout.slot? sym = some slot ∧ ExprCode C live pc σ index i ∧
      code = i ++ [op (.boundsCheck slot.length) (.val .int :: σ) live, op (.loadLocalIdx slot.index) (.index slot.length :: σ) live] := by
  obtain ⟨loc, s, s', h⟩ := h
  simp only [emitExpr] at h
  obtain ⟨loc, s₁, s₂, h⟩ := located_ok h
  cases hty : sym.type with
  | frameArray length =>
    simp only [TExpr.type, hty] at h
    obtain ⟨⟨sym', slot⟩, s₃, hslot, h⟩ := bind_ok.mp h
    obtain ⟨i, s₄, hi, h⟩ := bind_ok.mp h
    exact ⟨slot, i, (arraySlot_local hslot).2, ⟨_, _, _, hi⟩, (Prod.mk.inj (pure_ok.mp h)).1.symm⟩
  | _ => simp [Ty.isFrameArray, hty] at harray

theorem callLocalSlot {sym : Symbol} {args : List TExpr} (h : ExprCode C live pc σ (.callLocal pos sym args type) code) :
    ∃ as slot, ArgsCode C live pc σ args as ∧ C.layout.slot? sym = some slot ∧
      code = as ++ [op (.loadLocal slot.index) (pushTypes args σ) live, op .callIndirect (.val sym.type :: pushTypes args σ) live] := by
  obtain ⟨loc, s, s', h⟩ := h
  simp only [emitExpr] at h
  obtain ⟨loc, s₁, s₂, h⟩ := located_ok h
  obtain ⟨as, s₃, has, h⟩ := bind_ok.mp h
  obtain ⟨slot, s₄, hs, h⟩ := bind_ok.mp h
  exact ⟨as, slot, ⟨_, _, _, has⟩, slotOf_ok hs, (Prod.mk.inj (pure_ok.mp h)).1.symm⟩

theorem arrayPushLocal {apos : Pos} {sym : Symbol} {target : TypeName} {length value : TExpr}
    (h : ExprCode C live pc σ (.call pos "array_push" target [.local apos sym, length, value] type) code) :
    ∃ slot l v, C.layout.slot? sym = some slot ∧ ExprCode C live pc σ length l ∧
      ExprCode C live (pc + l.length + 1) (.val .int :: .val .int :: σ) value v ∧
      code = l ++ op .dup (.val .int :: σ) live :: v
        ++ [op .swap (.val .int :: .val .int :: .val .int :: σ) live,
          op (.boundsCheck slot.length) (.val .int :: .val .int :: .val .int :: σ) live,
          op (.storeLocalIdx slot.index) (.index slot.length :: .val .int :: .val .int :: σ) live,
          op (.pushInt 1) (.val .int :: σ) live, op .add (.val .int :: .val .int :: σ) live] := by
  obtain ⟨loc, s, s', h⟩ := h
  simp only [emitExpr] at h
  obtain ⟨loc, s₁, s₂, h⟩ := located_ok h
  obtain ⟨⟨sym', slot⟩, s₃, hslot, h⟩ := bind_ok.mp h
  obtain ⟨l, s₄, hl, h⟩ := bind_ok.mp h
  obtain ⟨v, s₅, hv, h⟩ := bind_ok.mp h
  exact ⟨slot, l, v, (arraySlot_local hslot).2, ⟨_, _, _, hl⟩, ⟨_, _, _, hv⟩, (Prod.mk.inj (pure_ok.mp h)).1.symm⟩

theorem arrayPopLocal {apos : Pos} {sym : Symbol} {target : TypeName} {length : TExpr}
    (h : ExprCode C live pc σ (.call pos "array_pop" target [.local apos sym, length] type) code) :
    ∃ slot l, C.layout.slot? sym = some slot ∧ ExprCode C live pc σ length l ∧
      code = l ++ [op (.pushInt 1) (.val .int :: σ) live, op .sub (.val .int :: .val .int :: σ) live,
        op (.boundsCheck slot.length) (.val .int :: σ) live, op (.loadLocalIdx slot.index) (.index slot.length :: σ) live] := by
  obtain ⟨loc, s, s', h⟩ := h
  simp only [emitExpr] at h
  obtain ⟨loc, s₁, s₂, h⟩ := located_ok h
  obtain ⟨⟨sym', slot⟩, s₃, hslot, h⟩ := bind_ok.mp h
  obtain ⟨l, s₄, hl, h⟩ := bind_ok.mp h
  exact ⟨slot, l, (arraySlot_local hslot).2, ⟨_, _, _, hl⟩, (Prod.mk.inj (pure_ok.mp h)).1.symm⟩

end ExprCode

theorem binarySites_word {o : BinaryOp} {l r : Ty} (hfloat : l ≠ .float) (hstr : l ≠ .str) :
    binarySites live o l r σ = [op (binaryOp o) (.val r :: .val l :: σ) live] := by
  unfold binarySites
  rw [if_neg fun h => hstr h.2]
  cases o <;> simp [floatOp, comparisonOp, binaryOp, hfloat, hstr]

end Forms

section Expressions

variable {W : Type} {P : CompiledProgram} {F : FloatOps} {io : ProgramIO W} {C : GenContext} {fn : TFunction} {base : VM W}
  {n breakPc continuePc entryPc : ℕ} {call : Calls W} {live : List Symbol} {pc f : ℕ} {σ : List Entry} {args : List Word}

/-- The calls the machine makes are those of `call`. -/
structure CallsFollow (P : CompiledProgram) (F : FloatOps) (io : ProgramIO W) (n : ℕ) (call : Calls W) : Prop where
  direct : ∀ (t : VM W) (f : ℕ) (args : List Word) (rest : List Entry), P.code[t.pc]? = some (.call f) →
    t.stack = (args.map entry).reverse ++ rest → t.frameBase ≤ rest.length →
    Tracks (Next P F io) (Fails P F io) n t (fun r u => u = { t with pc := t.pc + 1, stack := entry r.1 :: rest, io := r.2 })
      (call "CALL" f args t.io)
  indirect : ∀ (t : VM W) (f : Word) (args : List Word) (rest : List Entry), P.code[t.pc]? = some .callIndirect →
    t.stack = entry f :: ((args.map entry).reverse ++ rest) → t.frameBase ≤ rest.length →
    Tracks (Next P F io) (Fails P F io) n t (fun r u => u = { t with pc := t.pc + 1, stack := entry r.1 :: rest, io := r.2 })
      (call "CALL_INDIRECT" f.toNat args t.io)

theorem CallsFollow.does (hcall : CallsFollow P F io n call) (hσ : base.frameBase ≤ σ.length) (hi : P.code[pc]? = some (.call f)) :
    Does P F io fn base n pc ((args.map entry).reverse ++ σ) (callWith call "CALL" f args) (fun _ p => p = pc + 1)
      fun v => entry v :: σ := by
  intro env locals hholds
  refine (hcall.direct (base.at pc ((args.map entry).reverse ++ σ) locals env.io) f args σ hi rfl hσ).map ?_
  rintro r u rfl
  exact ⟨pc + 1, locals, rfl, rfl, hholds⟩

theorem CallsFollow.doesIndirect (hcall : CallsFollow P F io n call) (hσ : base.frameBase ≤ σ.length) {f : Word}
    (hi : P.code[pc]? = some .callIndirect) :
    Does P F io fn base n pc (entry f :: ((args.map entry).reverse ++ σ)) (callWith call "CALL_INDIRECT" f.toNat args)
      (fun _ p => p = pc + 1) fun v => entry v :: σ := by
  intro env locals hholds
  refine (hcall.indirect (base.at pc (entry f :: ((args.map entry).reverse ++ σ)) locals env.io) f args σ hi rfl hσ).map ?_
  rintro r u rfl
  exact ⟨pc + 1, locals, rfl, rfl, hholds⟩

variable (P F io C fn base n breakPc continuePc call live)

/-- The code of the expression, wherever it stands, leaves what the expression evaluates to. -/
def Evaluates (e : TExpr) : Prop :=
  ∀ {pc : ℕ} {τ : List Static} {code : List Site} {σ : List Entry}, ExprCode C live pc τ e code →
    HasCode P breakPc continuePc pc code → base.frameBase ≤ σ.length →
      Does P F io fn base n pc σ (evalExpr C.functions call e) (fun _ p => p = pc + code.length) fun v => entry v :: σ

variable {P F io C fn base n breakPc continuePc call live}

theorem evalAll_does (es : List TExpr) (hes : ∀ e ∈ es, Evaluates P F io C fn base n breakPc continuePc call live e)
    {τ : List Static} {code : List Site} (hcode : ArgsCode C live pc τ es code) (hat : HasCode P breakPc continuePc pc code)
    (hσ : base.frameBase ≤ σ.length) :
    Does P F io fn base n pc σ (evalAll (evalEach C.functions call es)) (fun _ p => p = pc + code.length)
      fun vs => (vs.map entry).reverse ++ σ := by
  induction es generalizing pc τ code σ with
  | nil =>
    obtain rfl := hcode.nil
    exact .pure rfl rfl
  | cons e es ih =>
    obtain ⟨c, cs, hc, hcs, rfl⟩ := hcode.cons
    rw [evalEach, evalAll]
    refine (hes e List.mem_cons_self hc hat.left hσ).andThen fun v => ?_
    refine (ih (σ := entry v :: σ) (fun e he => hes e (List.mem_cons_of_mem _ he)) hcs hat.right (Nat.le_succ_of_le hσ)).andThen fun vs => ?_
    exact .pure (by rw [List.length_append, Nat.add_assoc]) (by simp)

/-- The last test of a short circuit, and the two results. -/
theorem shortCircuit_end {v : Word} (hσ : base.frameBase ≤ σ.length)
    (hcode : (P.code[pc]? = some (.jz (pc + 3)) ∧ P.code[pc + 1]? = some (.pushInt 1) ∧ P.code[pc + 3]? = some (.pushInt 0)) ∨
      P.code[pc]? = some (.jnz (pc + 3)) ∧ P.code[pc + 1]? = some (.pushInt 0) ∧ P.code[pc + 3]? = some (.pushInt 1))
    (hover : P.code[pc + 2]? = some (.jmp (pc + 3 + 1))) :
    Does P F io fn base n pc (entry v :: σ) (pure (boolWord (v != 0))) (fun _ p => p = pc + 3 + 1) fun v => entry v :: σ := by
  have hjump {w : Word} : Does P F io fn base n (pc + 2) (entry w :: σ) (pure w) (fun _ p => p = pc + 3 + 1)
      fun v => entry v :: σ := Does.mono (Does.jmp hover (.pure rfl rfl)) (Nat.le_succ n)
  by_cases hv : v = 0
  · have hzero : boolWord (v != 0) = 0 := by rw [hv]; rfl
    rw [hzero]
    rcases hcode with ⟨htest, -, hother⟩ | ⟨htest, hnext, -⟩
    · exact Does.branch hσ (Or.inl ⟨htest, rfl⟩) (by rw [if_pos hv]; exact Does.pushInt hother rfl)
    · exact Does.branch hσ (Or.inr ⟨htest, rfl⟩) (by rw [if_pos hv]; exact Does.const hnext rfl hjump)
  · have hone : boolWord (v != 0) = 1 := by rw [bne_iff_ne.mpr hv]; rfl
    rw [hone]
    rcases hcode with ⟨htest, hnext, -⟩ | ⟨htest, -, hother⟩
    · exact Does.branch hσ (Or.inl ⟨htest, rfl⟩) (by rw [if_neg hv]; exact Does.const hnext rfl hjump)
    · exact Does.branch hσ (Or.inr ⟨htest, rfl⟩) (by rw [if_neg hv]; exact Does.pushInt hother rfl)

theorem evaluates_land {pos : Pos} {left right : TExpr} {type : Ty}
    (hl : Evaluates P F io C fn base n breakPc continuePc call live left)
    (hr : Evaluates P F io C fn base n breakPc continuePc call live right) :
    Evaluates P F io C fn base n breakPc continuePc call live (.binary pos left .land right type) := by
  intro pc τ code σ hcode hat hσ
  obtain ⟨l, r, hlc, hrc, rfl⟩ := hcode.land
  rw [List.append_assoc] at hat
  have hend := hat.right.tail.right
  rw [evalExpr, show ∀ x y z w : Site, pc + (l ++ op (.jz (pc + l.length + 1 + r.length + 3)) (.val .bool :: τ) live :: r ++
    [x, y, z, w]).length = pc + l.length + 1 + r.length + 3 + 1 from fun _ _ _ _ => by simp; omega]
  refine (hl hlc hat.left hσ).andThen fun a => Does.branch hσ (Or.inl ⟨hat.right.head, rfl⟩) ?_
  split_ifs
  · exact Does.pushInt hend.tail.tail.tail.head rfl
  · exact (hr hrc hat.right.tail.left hσ).andThen fun b =>
      shortCircuit_end hσ (Or.inl ⟨hend.head, hend.tail.head, hend.tail.tail.tail.head⟩) hend.tail.tail.head

theorem evaluates_lor {pos : Pos} {left right : TExpr} {type : Ty}
    (hl : Evaluates P F io C fn base n breakPc continuePc call live left)
    (hr : Evaluates P F io C fn base n breakPc continuePc call live right) :
    Evaluates P F io C fn base n breakPc continuePc call live (.binary pos left .lor right type) := by
  intro pc τ code σ hcode hat hσ
  obtain ⟨l, r, hlc, hrc, rfl⟩ := hcode.lor
  rw [List.append_assoc] at hat
  have hend := hat.right.tail.right
  rw [evalExpr, show ∀ x y z w : Site, pc + (l ++ op (.jnz (pc + l.length + 1 + r.length + 3)) (.val .bool :: τ) live :: r ++
    [x, y, z, w]).length = pc + l.length + 1 + r.length + 3 + 1 from fun _ _ _ _ => by simp; omega]
  refine (hl hlc hat.left hσ).andThen fun a => Does.branch hσ (Or.inr ⟨hat.right.head, rfl⟩) ?_
  split_ifs
  · exact (hr hrc hat.right.tail.left hσ).andThen fun b =>
      shortCircuit_end hσ (Or.inr ⟨hend.head, hend.tail.head, hend.tail.tail.tail.head⟩) hend.tail.tail.head
  · exact Does.pushInt hend.tail.tail.tail.head rfl

theorem evalExpr_binary {names : List TypeName} {pos : Pos} {left right : TExpr} {o : BinaryOp} {type : Ty} (ho : o ≠ .land)
    (ho' : o ≠ .lor) : evalExpr names call (.binary pos left o right type) =
      if left.type = .float ∨ left.type = .str then outside
      else (do
        let a ← evalExpr names call left
        let b ← evalExpr names call right
        binaryWord o a b) := by
  rw [evalExpr]
  · exact ho
  · exact ho'

theorem evaluates_binary {pos : Pos} {left right : TExpr} {o : BinaryOp} {type : Ty}
    (hl : Evaluates P F io C fn base n breakPc continuePc call live left)
    (hr : Evaluates P F io C fn base n breakPc continuePc call live right) :
    Evaluates P F io C fn base n breakPc continuePc call live (.binary pos left o right type) := by
  intro pc τ code σ hcode hat hσ
  by_cases hland : o = .land
  · subst hland
    exact evaluates_land hl hr hcode hat hσ
  by_cases hlor : o = .lor
  · subst hlor
    exact evaluates_lor hl hr hcode hat hσ
  rw [evalExpr_binary hland hlor]
  split_ifs with hty
  · exact .outside
  · obtain ⟨hfloat, hstr⟩ := not_or.mp hty
    obtain ⟨l, r, hlc, hrc, rfl⟩ := hcode.binary hland hlor
    rw [binarySites_word hfloat hstr] at hat ⊢
    rw [List.append_assoc] at hat ⊢
    refine (hl hlc hat.left hσ).andThen fun a => ?_
    refine (hr (σ := entry a :: σ) hrc hat.right.left (Nat.le_succ_of_le hσ)).andThen fun b => ?_
    refine (Does.binary hσ hland hlor hat.right.right.head).weaken fun v p hp => ?_
    rw [hp]
    simp
    omega

theorem evaluates_index {pos : Pos} {array index : TExpr} {type : Ty} (hlayout : C.layout = buildLayout fn)
    (hi : Evaluates P F io C fn base n breakPc continuePc call live index) :
    Evaluates P F io C fn base n breakPc continuePc call live (.index pos array index type) := by
  intro pc τ code σ hcode hat hσ
  cases array with
  | «local» apos sym =>
    rw [evalExpr]
    split_ifs with harray
    · obtain ⟨slot, i, hslot, hic, rfl⟩ := hcode.indexLocal harray
      rw [hlayout] at hslot
      refine (hi hic hat.left hσ).andThen fun index => (Does.boundsCheck hσ hat.right.head hslot).bind fun k p hk => ?_
      obtain ⟨rfl, hindex, hlt⟩ := hk
      refine (Does.loadIdx hσ hat.right.tail.head hslot hindex hlt).weaken fun v p hp => ?_
      rw [hp, List.length_append, Nat.add_assoc, Nat.add_assoc]
      rfl
    · exact .outside
  | _ => exact .outside

section Calls

variable (hlayout : C.layout = buildLayout fn) (hcall : CallsFollow P F io n call)

include hlayout in
theorem evaluates_arrayPush {pos apos : Pos} {sym : Symbol} {target : TypeName} {length value : TExpr} {type : Ty}
    (hl : Evaluates P F io C fn base n breakPc continuePc call live length)
    (hv : Evaluates P F io C fn base n breakPc continuePc call live value) {τ : List Static} {code : List Site}
    (hcode : ExprCode C live pc τ (.call pos "array_push" target [.local apos sym, length, value] type) code)
    (hat : HasCode P breakPc continuePc pc code) (hσ : base.frameBase ≤ σ.length) :
    Does P F io fn base n pc σ (do
      let n ← evalExpr C.functions call length
      let v ← evalExpr C.functions call value
      writeVar sym (← element sym n) v
      return n + 1) (fun _ p => p = pc + code.length) fun v => entry v :: σ := by
  obtain ⟨slot, l, v, hslot, hlc, hvc, rfl⟩ := hcode.arrayPushLocal
  rw [hlayout] at hslot
  rw [List.append_assoc] at hat ⊢
  have hrest := hat.right.tail.right
  refine (hl hlc hat.left hσ).andThen fun length => ?_
  refine Does.dup hσ hat.right.head ?_
  have hone : base.frameBase ≤ (entry length :: σ).length := Nat.le_succ_of_le hσ
  have htwo : base.frameBase ≤ (entry length :: entry length :: σ).length := Nat.le_succ_of_le hone
  refine (hv hvc hat.right.tail.left htwo).andThen fun value => ?_
  refine Does.swap hone hrest.head ?_
  refine (Does.boundsCheck (σ := entry value :: entry length :: σ) (Nat.le_succ_of_le hone) hrest.tail.head hslot).bind fun k p hk => ?_
  obtain ⟨rfl, hindex, hlt⟩ := hk
  refine (Does.storeIdx hone hrest.tail.tail.head hslot hindex hlt).andThen fun _ => ?_
  refine Does.const (v := 1) hrest.tail.tail.tail.head rfl ?_
  refine (Does.binary (o := .add) hσ (by decide) (by decide) hrest.tail.tail.tail.tail.head).weaken fun v p hp => ?_
  rw [hp]
  simp
  omega

include hlayout in
theorem evaluates_arrayPop {pos apos : Pos} {sym : Symbol} {target : TypeName} {length : TExpr} {type : Ty}
    (hl : Evaluates P F io C fn base n breakPc continuePc call live length) {τ : List Static} {code : List Site}
    (hcode : ExprCode C live pc τ (.call pos "array_pop" target [.local apos sym, length] type) code)
    (hat : HasCode P breakPc continuePc pc code) (hσ : base.frameBase ≤ σ.length) :
    Does P F io fn base n pc σ (do
      let n ← evalExpr C.functions call length
      readVar sym (← element sym (n - 1))) (fun _ p => p = pc + code.length) fun v => entry v :: σ := by
  obtain ⟨slot, l, hslot, hlc, rfl⟩ := hcode.arrayPopLocal
  rw [hlayout] at hslot
  have hrest := hat.right
  refine (hl hlc hat.left hσ).andThen fun length => ?_
  refine Does.const (v := 1) hrest.head rfl ?_
  refine Does.thenWord (Does.binary (o := .sub) hσ (by decide) (by decide) hrest.tail.head) ?_
  refine (Does.boundsCheck hσ hrest.tail.tail.head hslot).bind fun k p hk => ?_
  obtain ⟨rfl, hindex, hlt⟩ := hk
  refine (Does.loadIdx hσ hrest.tail.tail.tail.head hslot hindex hlt).weaken fun v p hp => ?_
  rw [hp]
  simp
  omega

theorem evaluates_ctSelect {pos : Pos} {target : TypeName} {mask x y : TExpr} {type : Ty}
    (hm : Evaluates P F io C fn base n breakPc continuePc call live mask)
    (hx : Evaluates P F io C fn base n breakPc continuePc call live x)
    (hy : Evaluates P F io C fn base n breakPc continuePc call live y) {τ : List Static} {code : List Site}
    (hcode : ExprCode C live pc τ (.call pos "ct_select" target [mask, x, y] type) code)
    (hat : HasCode P breakPc continuePc pc code) (hσ : base.frameBase ≤ σ.length) :
    Does P F io fn base n pc σ (do
      let a ← evalExpr C.functions call x
      let b ← evalExpr C.functions call y
      let m ← evalExpr C.functions call mask
      let c ← evalExpr C.functions call y
      return c + (a - b) * m) (fun _ p => p = pc + code.length) fun v => entry v :: σ := by
  obtain ⟨a, b, m, c, hac, hbc, hmc, hcc, rfl⟩ := hcode.ctSelect
  simp only [List.append_assoc, List.cons_append] at hat ⊢
  have hone (v : Word) : base.frameBase ≤ (entry v :: σ).length := Nat.le_succ_of_le hσ
  have hb := hat.right
  have hm' := hb.right.tail
  have hc := hm'.right.tail
  refine (hx hac hat.left hσ).andThen fun a => (hy hbc hb.left (hone a)).andThen fun b => ?_
  refine Does.thenWord (Does.binary (o := .sub) hσ (by decide) (by decide) hb.right.head) ?_
  refine (hm hmc hm'.left (hone _)).andThen fun m => ?_
  refine Does.thenWord (Does.binary (o := .mul) hσ (by decide) (by decide) hm'.right.head) ?_
  refine (hy hcc hc.left (hone _)).andThen fun c => ?_
  rw [BitVec.add_comm]
  refine (Does.binary (o := .add) hσ (by decide) (by decide) hc.right.head).weaken fun v p hp => ?_
  rw [hp]
  simp
  omega

include hlayout hcall in
theorem evaluates_call {pos : Pos} {callee : String} {target : TypeName} {args : List TExpr} {type : Ty}
    (hes : ∀ e ∈ args, Evaluates P F io C fn base n breakPc continuePc call live e) :
    Evaluates P F io C fn base n breakPc continuePc call live (.call pos callee target args type) := by
  intro pc τ code σ hcode hat hσ
  rw [evalExpr]
  unfold evalCall
  split_ifs with hlow hcmp hbuiltin
  · split
    · next apos sym length value _ l v heq =>
      simp only [evalEach, List.cons.injEq, and_true] at heq
      obtain ⟨-, rfl, rfl⟩ := heq
      exact evaluates_arrayPush hlayout (hes _ (by simp)) (hes _ (by simp)) hcode hat hσ
    · next apos sym length _ l heq =>
      simp only [evalEach, List.cons.injEq, and_true] at heq
      obtain ⟨-, rfl⟩ := heq
      exact evaluates_arrayPop hlayout (hes _ (by simp)) hcode hat hσ
    · next mask x y m a b heq =>
      simp only [evalEach, List.cons.injEq, and_true] at heq
      obtain ⟨rfl, rfl, rfl⟩ := heq
      exact evaluates_ctSelect (hes _ (by simp)) (hes _ (by simp)) (hes _ (by simp)) hcode hat hσ
    · exact .outside
  · obtain ⟨as, has, ⟨instrs, hi, rfl⟩ | ⟨hnone, -⟩⟩ := hcode.call hlow
    · obtain rfl : instrs = [.cmpEq] := Option.some.inj (hi.symm.trans hcmp)
      refine (evalAll_does args hes has hat.left hσ).andThen fun vs => ?_
      split
      · next a b =>
        refine (Does.binary (o := .eq) hσ (by decide) (by decide) hat.right.head).weaken fun v p hp => ?_
        rw [hp, List.length_append, Nat.add_assoc]
        rfl
      · exact .outside
    · rw [hcmp] at hnone
      cases hnone
  · exact .outside
  · obtain ⟨as, has, ⟨instrs, hi, -⟩ | ⟨-, i, hi, rfl⟩⟩ := hcode.call hlow
    · exact absurd (by rw [hi]; rfl) hbuiltin
    · rw [show C.functions.idxOf? target = some i from hi]
      refine (evalAll_does args hes has hat.left hσ).andThen fun vs => ?_
      refine (hcall.does hσ hat.right.head).weaken fun v p hp => ?_
      rw [hp, List.length_append, Nat.add_assoc]
      rfl

variable (hfn : P.functions[base.currentFn]? = some ((buildLayout fn).info entryPc))

include hlayout hcall hfn

theorem evaluates_callLocal {pos : Pos} {sym : Symbol} {args : List TExpr} {type : Ty}
    (hes : ∀ e ∈ args, Evaluates P F io C fn base n breakPc continuePc call live e) :
    Evaluates P F io C fn base n breakPc continuePc call live (.callLocal pos sym args type) := by
  intro pc τ code σ hcode hat hσ
  rw [evalExpr]
  split_ifs with hword
  · obtain ⟨as, slot, has, hslot, rfl⟩ := hcode.callLocalSlot
    rw [hlayout] at hslot
    refine (evalAll_does args hes has hat.left hσ).andThen fun vs => ?_
    refine (Does.load hat.right.head hslot hfn hword).andThen fun f => ?_
    refine (hcall.doesIndirect hσ hat.right.tail.head).weaken fun v p hp => ?_
    rw [hp, List.length_append, Nat.add_assoc, Nat.add_assoc]
    rfl
  · exact .outside

set_option linter.unusedSectionVars false

mutual
/-- The code of an expression leaves what the expression evaluates to. -/
theorem emitExpr_does : ∀ e : TExpr, Evaluates P F io C fn base n breakPc continuePc call live e
  | .literal pos (.int v) => by
    intro hcode hat hσ
    obtain rfl := hcode.int
    refine Does.pushInt hat.head ?_
    rw [wordOfInt_eq, Int.toNat_of_nonneg (Int.emod_nonneg v (by decide)), BitVec.toNat_ofInt, BitVec.toNat_ofInt]
    exact congrArg Int.toNat (Int.emod_emod_of_dvd v (dvd_refl 65536))
  | .literal pos (.bool b) => by
    intro hcode hat hσ
    obtain rfl := hcode.bool
    refine Does.pushInt hat.head ?_
    cases b <;> rfl
  | .literal _ .null | .literal _ (.float _) | .literal _ (.str _) => by
    intros
    exact .outside
  | .funcRef pos name type => by
    intro hcode hat hσ
    obtain ⟨i, hi, rfl⟩ := hcode.funcRefIndex
    rw [evalExpr, show C.functions.idxOf? name = some i from hi]
    exact Does.pushInt hat.head (by rw [wordOfInt_eq, BitVec.ofInt_natCast])
  | .local pos sym => by
    intro hcode hat hσ
    rw [evalExpr]
    split_ifs with hword
    · obtain ⟨slot, hslot, rfl⟩ := hcode.localSlot fun hfloat => by rw [hfloat] at hword; cases hword
      exact Does.load hat.head (hlayout ▸ hslot) hfn hword
    · exact .outside
  | .unary pos o right type => by
    intro hcode hat hσ
    rw [evalExpr]
    split_ifs with hfloat
    · exact .outside
    · obtain ⟨r, hr, rfl⟩ := hcode.unaryWord hfloat
      refine (emitExpr_does right hr hat.left hσ).andThen fun a => ?_
      refine (Does.unary hσ o hat.right.head).weaken fun v p hp => ?_
      rw [hp, List.length_append, Nat.add_assoc]
      rfl
  | .binary pos left o right type => evaluates_binary (emitExpr_does left) (emitExpr_does right)
  | .index pos array index type => evaluates_index hlayout (emitExpr_does index)
  | .callLocal pos sym args type => evaluates_callLocal hlayout hcall hfn (exprs_do args)
  | .call pos callee target args type => evaluates_call hlayout hcall (exprs_do args)
  | .variant _ _ _ | .addressOfVar _ _ | .addressOfElem _ _ _ | .field _ _ _ _ | .structLit _ _ _
  | .callField _ _ _ _ => by
    intros
    exact .outside

theorem exprs_do : ∀ es : List TExpr, ∀ e ∈ es, Evaluates P F io C fn base n breakPc continuePc call live e
  | [] => by simp
  | e :: es => List.forall_mem_cons.mpr ⟨emitExpr_does e, exprs_do es⟩
end

end Calls

end Expressions

end QuinLang
