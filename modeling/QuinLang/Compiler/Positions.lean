import QuinLang.Compiler.StackRuns

/-! Code generation goes through the pcs from below, so the markers of a source map
ascend, and the position in force at a marker's pc is the marker's. -/

namespace QuinLang

open StateExcept

section Rising

variable {α β : Type} {lo lo' : ℕ} {x : Gen α} {f : α → Gen β} {mid : α → ℕ} {hi : β → ℕ}

/-- The marks made so far ascend, none of them past `p`. -/
def RisenTo (marks : List (ℕ × Pos)) (p : ℕ) : Prop := marks.Pairwise (fun m m' => m.1 ≤ m'.1) ∧ ∀ m ∈ marks, m.1 ≤ p

theorem RisenTo.mono {marks : List (ℕ × Pos)} {p q : ℕ} (h : RisenTo marks p) (hpq : p ≤ q) : RisenTo marks q :=
  ⟨h.1, fun m hm => (h.2 m hm).trans hpq⟩

/-- What is emitted from `lo` on makes its marks from there up to `hi` of the result. -/
def Rises (lo : ℕ) (x : Gen α) (hi : α → ℕ) : Prop :=
  ∀ s a s', x s = .ok (a, s') → RisenTo s.marks lo → RisenTo s'.marks (hi a)

/-- Code that stands at `pc`. -/
abbrev Emits (pc : ℕ) (x : Gen (List Site)) : Prop := Rises pc x fun code => pc + code.length

/-- No mark is made. -/
def Quiet (x : Gen α) : Prop := ∀ s a s', x s = .ok (a, s') → s'.marks = s.marks

theorem Rises.bind (h : Rises lo' x mid) (hlo : lo ≤ lo') (hf : ∀ a, Rises (mid a) (f a) hi) : Rises lo (x >>= f) hi := by
  intro s b s' hrun hs
  obtain ⟨a, s₁, hx, hfa⟩ := bind_ok.mp hrun
  exact hf a s₁ b s' hfa (h s a s₁ hx (hs.mono hlo))

theorem Rises.pure {b : β} (h : lo ≤ hi b) : Rises lo (Pure.pure b : Gen β) hi := by
  intro s a s' hrun hs
  obtain ⟨rfl, rfl⟩ := Prod.mk.inj (pure_ok.mp hrun)
  exact hs.mono h

theorem Rises.mono (h : Rises lo' x mid) (hlo : lo ≤ lo') : Rises lo x mid :=
  fun s a s' hrun hs => h s a s' hrun (hs.mono hlo)

theorem Quiet.bind (h : Quiet x) (hf : ∀ a, Rises lo (f a) hi) : Rises lo (x >>= f) hi := by
  intro s b s' hrun hs
  obtain ⟨a, s₁, hx, hfa⟩ := bind_ok.mp hrun
  refine hf a s₁ b s' hfa ?_
  rw [h s a s₁ hx]
  exact hs

theorem Quiet.pure (a : α) : Quiet (Pure.pure a : Gen α) := by
  intro s b s' hrun
  obtain ⟨-, rfl⟩ := Prod.mk.inj (pure_ok.mp hrun)
  rfl

theorem Quiet.then {f : α → Gen β} (h : Quiet x) (hf : ∀ a, Quiet (f a)) : Quiet (x >>= f) := by
  intro s b s' hrun
  obtain ⟨a, s₁, hx, hfa⟩ := bind_ok.mp hrun
  exact (hf a s₁ b s' hfa).trans (h s a s₁ hx)

theorem genError_quiet {pos : Pos} {message : String} : Quiet (genError pos message : Gen α) := by
  intro s a s' hrun
  cases hrun

theorem genError_rises {pos : Pos} {message : String} : Rises lo (genError pos message : Gen β) hi := by
  intro s a s' hrun
  cases hrun

theorem addString_quiet (value : String) : Quiet (addString value) := by
  intro s a s' hrun
  unfold addString at hrun
  split at hrun
  · cases hrun
    rfl
  · cases hrun
    rfl

theorem mark_rises {pc : ℕ} (pos : Pos) (h : lo ≤ pc) : Rises lo (mark pc pos) fun _ => pc := by
  intro s a s' hrun hs
  obtain ⟨-, rfl⟩ := Prod.mk.inj (modify_ok.mp hrun)
  constructor
  · exact List.pairwise_append.mpr ⟨hs.1, List.pairwise_singleton .., fun m hm m' hm' => by
      rw [List.mem_singleton.mp hm']
      exact (hs.2 m hm).trans h⟩
  · intro m hm
    rcases List.mem_append.mp hm with hm | hm
    · exact (hs.2 m hm).trans h
    · rw [List.mem_singleton.mp hm]

/-- Positions are marked where the code starts and where it ends. -/
theorem Emits.located {pc : ℕ} {outer : Option Pos} {pos : Pos} {body : Option Pos → Gen (List Site)}
    (h : ∀ loc, Emits pc (body loc)) : Emits pc (located outer pos pc body) := by
  have hmark {k : Gen (List Site)} (hk : Emits pc k) : Emits pc (mark pc pos >>= fun _ => k) :=
    (mark_rises pos le_rfl).bind le_rfl fun _ => hk
  unfold QuinLang.located
  cases outer with
  | none =>
    have hrest (loc : Option Pos) : Emits pc (body loc >>= fun code => Pure.pure code) :=
      (h loc).bind le_rfl fun code => .pure le_rfl
    dsimp only
    split
    · exact hmark (hrest _)
    · exact hrest _
  | some p =>
    have hrest (loc : Option Pos) : Emits pc (body loc >>= fun code => mark (pc + code.length) p >>= fun _ => Pure.pure code) :=
      (h loc).bind le_rfl fun code => (mark_rises p le_rfl).bind le_rfl fun _ => .pure le_rfl
    dsimp only
    split
    · exact hmark (hrest _)
    · exact hrest _

end Rising

section Expressions

variable (C : GenContext) (live : List Symbol)

theorem slotOf_quiet (pos : Pos) (sym : Symbol) : Quiet (slotOf C pos sym) := by
  unfold slotOf
  split
  · exact .pure _
  · exact genError_quiet

theorem arraySlot_quiet (array : TExpr) : Quiet (arraySlot C array) := by
  unfold arraySlot
  split
  · refine (slotOf_quiet C _ _).then fun slot => ?_
    split
    · exact .pure _
    · exact genError_quiet
  · exact genError_quiet

theorem fieldOf_quiet (pos : Pos) (objType : Ty) (field : String) : Quiet (fieldOf C pos objType field) := by
  unfold fieldOf
  split
  · split
    · exact genError_quiet
    · split
      · exact genError_quiet
      · exact .pure _
  · exact genError_quiet

/-- The builtins that are lowered in place, and calls. -/
theorem emitCall_rises {pos : Pos} {callee : String} {target : TypeName} {args : List TExpr} {type : Ty} {loc : Option Pos}
    {pc : ℕ} {σ : List Static} (heach : ∀ e ∈ args, ∀ loc pc σ, Emits pc (emitExpr C live loc pc σ e))
    (hall : ∀ loc pc σ, Emits pc (emitArgs C live loc pc σ args)) :
    Emits pc (emitExpr C live loc pc σ (.call pos callee target args type)) := by
  rw [emitExpr.eq_def]
  split <;> rename_i heq <;> cases heq
  · simp only [List.forall_mem_cons] at heach
    obtain ⟨-, hlength, hvalue, -⟩ := heach
    refine .located fun loc => (arraySlot_quiet C _).bind fun slot => ?_
    refine (hlength loc pc σ).bind le_rfl fun l => ?_
    exact (hvalue loc _ _).bind (by omega) fun v => .pure (by simp; omega)
  · simp only [List.forall_mem_cons] at heach
    refine .located fun loc => (arraySlot_quiet C _).bind fun slot => ?_
    exact (heach.2.1 loc pc σ).bind le_rfl fun l => .pure (by simp)
  · simp only [List.forall_mem_cons] at heach
    exact .located fun loc => (heach.1 loc pc σ).bind le_rfl fun l => .pure (by simp)
  · simp only [List.forall_mem_cons] at heach
    obtain ⟨hmask, hx, hy, -⟩ := heach
    refine .located fun loc => (hx loc pc σ).bind le_rfl fun a => ?_
    refine (hy loc _ _).bind le_rfl fun b => ?_
    refine (hmask loc _ _).bind (by omega) fun m => ?_
    exact (hy loc _ _).bind (by omega) fun c => .pure (by simp; omega)
  · refine .located fun loc => ?_
    split
    · exact (hall loc pc σ).bind le_rfl fun as => .pure (by simp)
    · split
      · exact genError_rises
      · exact (hall loc pc σ).bind le_rfl fun as => .pure (by simp)

mutual
theorem emitExpr_rises : ∀ (e : TExpr) (loc : Option Pos) (pc : ℕ) (σ : List Static), Emits pc (emitExpr C live loc pc σ e)
  | .literal pos value, loc, pc, σ => by
    simp only [emitExpr]
    refine .located fun _ => ?_
    cases value with
    | str text => exact (addString_quiet text).bind fun sid => .pure (by simp)
    | _ => exact .pure (by simp)
  | .funcRef pos name type, loc, pc, σ => by
    simp only [emitExpr]
    refine .located fun _ => ?_
    split
    · exact .pure (by simp)
    · exact genError_rises
  | .variant pos info args, loc, pc, σ => by
    simp only [emitExpr]
    refine .located fun loc => ?_
    split
    · exact .pure (by simp)
    · exact (emitPayload_rises args info.fields loc (pc + 1) σ info []).bind (by omega) fun rest => .pure (by simp; omega)
  | .local pos sym, loc, pc, σ => by
    simp only [emitExpr]
    refine .located fun _ => (slotOf_quiet C pos sym).bind fun slot => ?_
    split
    · exact genError_rises
    · split
      · exact .pure (by simp)
      · exact .pure (by simp)
  | .addressOfVar pos sym, loc, pc, σ => by
    simp only [emitExpr]
    exact .located fun _ => (slotOf_quiet C pos sym).bind fun slot => .pure (by simp)
  | .addressOfElem pos array index, loc, pc, σ => by
    simp only [emitExpr]
    refine .located fun loc => (arraySlot_quiet C array).bind fun slot => ?_
    exact (emitExpr_rises index loc pc σ).bind le_rfl fun i => .pure (by simp)
  | .unary pos o right type, loc, pc, σ => by
    simp only [emitExpr]
    exact .located fun loc => (emitExpr_rises right loc pc σ).bind le_rfl fun r => .pure (by simp)
  | .binary pos left o right type, loc, pc, σ => by
    have hboth {loc : Option Pos} {k : ℕ} {σ₂ : List Static} {g : List Site → List Site → List Site}
        (hg : ∀ l r, l.length + k + r.length ≤ (g l r).length) : Emits pc (do
        let l ← emitExpr C live loc pc σ left
        let r ← emitExpr C live loc (pc + l.length + k) σ₂ right
        return g l r) := by
      refine (emitExpr_rises left loc pc σ).bind le_rfl fun l => ?_
      refine (emitExpr_rises right loc _ σ₂).bind (by omega) fun r => .pure ?_
      have hlen := hg l r
      omega
    cases o with
    | land =>
      simp only [emitExpr]
      exact .located fun loc => hboth (k := 1) fun l r => by simp; omega
    | lor =>
      simp only [emitExpr]
      exact .located fun loc => hboth (k := 1) fun l r => by simp; omega
    | _ =>
      simp only [emitExpr]
      exact .located fun loc => hboth (k := 0) fun l r => by simp
  | .index pos array index type, loc, pc, σ => by
    simp only [emitExpr]
    refine .located fun loc => ?_
    split
    · refine (emitExpr_rises array loc pc σ).bind le_rfl fun a => ?_
      exact (emitExpr_rises index loc _ _).bind le_rfl fun i => .pure (by simp; omega)
    · refine (arraySlot_quiet C array).bind fun slot => ?_
      exact (emitExpr_rises index loc pc σ).bind le_rfl fun i => .pure (by simp)
  | .field pos obj field type, loc, pc, σ => by
    simp only [emitExpr]
    refine .located fun loc => (fieldOf_quiet C pos obj.type field).bind fun fld => ?_
    exact (emitExpr_rises obj loc pc σ).bind le_rfl fun o => .pure (by simp)
  | .structLit pos name inits, loc, pc, σ => by
    simp only [emitExpr]
    refine .located fun loc => ?_
    split
    · exact genError_rises
    · exact (emitInits_rises inits loc (pc + 1) σ _ []).bind (by omega) fun rest => .pure (by simp; omega)
  | .callField pos receiver args type, loc, pc, σ => by
    simp only [emitExpr]
    refine .located fun loc => (emitArgs_rises args loc pc σ).bind le_rfl fun as => ?_
    exact (emitExpr_rises receiver loc _ _).bind le_rfl fun r => .pure (by simp; omega)
  | .callLocal pos sym args type, loc, pc, σ => by
    simp only [emitExpr]
    refine .located fun loc => (emitArgs_rises args loc pc σ).bind le_rfl fun as => ?_
    exact (slotOf_quiet C pos sym).bind fun slot => .pure (by simp)
  | .call pos callee target args type, loc, pc, σ => emitCall_rises C live (emitEach_rises args) (emitArgs_rises args)

theorem emitEach_rises : ∀ (es : List TExpr), ∀ e ∈ es, ∀ loc pc σ, Emits pc (emitExpr C live loc pc σ e)
  | [] => (by simp)
  | e :: es => List.forall_mem_cons.mpr ⟨emitExpr_rises e, emitEach_rises es⟩

theorem emitArgs_rises : ∀ (es : List TExpr) (loc : Option Pos) (pc : ℕ) (σ : List Static), Emits pc (emitArgs C live loc pc σ es)
  | [], loc, pc, σ => by
    simp only [emitArgs]
    exact .pure (by simp)
  | e :: es, loc, pc, σ => by
    simp only [emitArgs]
    refine (emitExpr_rises e loc pc σ).bind le_rfl fun c => ?_
    exact (emitArgs_rises es loc _ _).bind le_rfl fun cs => .pure (by simp; omega)

theorem emitPayload_rises : ∀ (es : List TExpr) (flds : List StructField) (loc : Option Pos) (pc : ℕ) (σ : List Static)
    (info : VariantInfo) (stored : List ℕ), Emits pc (emitPayload C live loc pc σ info stored es flds)
  | [], flds, loc, pc, σ, info, stored => by
    simp only [emitPayload]
    exact .pure (by simp)
  | e :: es, [], loc, pc, σ, info, stored => by
    simp only [emitPayload]
    exact .pure (by simp)
  | e :: es, fld :: flds, loc, pc, σ, info, stored => by
    simp only [emitPayload]
    refine (emitExpr_rises e loc (pc + 1) _).bind (by omega) fun c => ?_
    exact (emitPayload_rises es flds loc _ _ _ _).bind (by omega) fun cs => .pure (by simp; omega)

theorem emitInits_rises : ∀ (inits : List TInit) (loc : Option Pos) (pc : ℕ) (σ : List Static) (info : StructInfo)
    (stored : List ℕ), Emits pc (emitInits C live loc pc σ info stored inits)
  | [], loc, pc, σ, info, stored => by
    simp only [emitInits]
    exact .pure (by simp)
  | .mk pos name value :: inits, loc, pc, σ, info, stored => by
    simp only [emitInits]
    split
    · exact genError_rises
    · refine (emitExpr_rises value loc (pc + 1) _).bind (by omega) fun c => ?_
      exact (emitInits_rises inits loc _ _ _ _).bind (by omega) fun cs => .pure (by simp; omega)
end

end Expressions

section Statements

variable (C : GenContext)

theorem emitPrint_rises (live : List Symbol) (loc : Option Pos) (newline : Bool) (pc : ℕ) (value : TExpr) :
    Emits pc (emitPrint C live loc newline pc value) := by
  unfold emitPrint
  refine (emitExpr_rises C live value loc pc []).bind le_rfl fun v => ?_
  split
  · have htext : Quiet (emitBoolToStr live (pc + v.length)) :=
      (addString_quiet "true").then fun _ => (addString_quiet "false").then fun _ => .pure _
    exact htext.bind fun b => .pure (by simp)
  · exact .pure (by simp)

theorem emitSimple_rises (live : List Symbol) (loc : Option Pos) (pc : ℕ) (st : TSimple) : Emits pc (emitSimple C live loc pc st) := by
  refine .located fun loc => ?_
  cases st with
  | assignLocal pos sym value =>
    simp only [emitSimpleBody]
    refine (slotOf_quiet C pos sym).bind fun slot => ?_
    split
    · exact genError_rises
    · exact (emitExpr_rises C live value loc pc []).bind le_rfl fun v => .pure (by simp)
  | assignElem pos targetPos array index value =>
    simp only [emitSimpleBody]
    split
    · refine (emitExpr_rises C live array loc pc []).bind le_rfl fun a => ?_
      refine Rises.bind (Emits.located fun loc => emitExpr_rises C live index loc _ _) le_rfl fun i => ?_
      exact (emitExpr_rises C live value loc _ _).bind le_rfl fun v => .pure (by simp; omega)
    · refine (arraySlot_quiet C array).bind fun slot => ?_
      refine (emitExpr_rises C live value loc pc []).bind le_rfl fun v => ?_
      refine Rises.bind (Emits.located fun loc => ?_) le_rfl fun i => .pure (by simp; omega)
      exact (emitExpr_rises C live index loc _ _).bind le_rfl fun i => .pure (by simp)
  | assignField pos targetPos obj field value =>
    simp only [emitSimpleBody]
    refine (fieldOf_quiet C targetPos obj.type field).bind fun fld => ?_
    refine (emitExpr_rises C live obj loc pc []).bind le_rfl fun o => ?_
    exact (emitExpr_rises C live value loc _ _).bind le_rfl fun v => .pure (by simp; omega)
  | expr pos e =>
    simp only [emitSimpleBody]
    exact (emitExpr_rises C live e loc pc []).bind le_rfl fun c => .pure (by simp)

theorem emitVarDecl_rises (live : List Symbol) (loc : Option Pos) (pc : ℕ) (pos : Pos) (sym : Symbol) (init : Option TExpr) :
    Emits pc (emitVarDecl C live loc pc pos sym init) := by
  unfold emitVarDecl
  refine (slotOf_quiet C pos sym).bind fun slot => ?_
  split
  · exact .pure (by simp)
  · cases init with
    | some value => exact (emitExpr_rises C live value loc pc []).bind le_rfl fun v => .pure (by simp)
    | none =>
      have hdefault : Quiet (emitDefault sym.type) := by
        unfold emitDefault
        split
        · exact (addString_quiet "").then fun _ => .pure _
        · split
          · exact .pure _
          · exact .pure _
      exact hdefault.bind fun instr => .pure (by simp)

theorem bindPayload_quiet (typeId : ℕ) (pos : Pos) (live syms : List Symbol) (flds : List StructField) :
    Quiet (bindPayload C typeId pos live syms flds) := by
  induction syms generalizing live flds with
  | nil => exact .pure _
  | cons sym syms ih =>
    cases flds with
    | nil => exact .pure _
    | cons fld flds =>
      simp only [bindPayload]
      split
      · exact genError_quiet
      · exact (ih (sym :: live) flds).then fun rest => .pure _

theorem emitLoop_rises (live : List Symbol) (loc : Option Pos) (pc : ℕ) (cond : Option TExpr) (step : Option TSimple)
    {emitBody : ℕ → Gen (List Site)} (hbody : ∀ pc, Emits pc (emitBody pc)) : Emits pc (emitLoop C live loc pc cond step emitBody) := by
  have hstep (pc : ℕ) : Emits pc (emitStep C live loc pc step) := by
    cases step with
    | none => exact .pure (by simp)
    | some st => exact emitSimple_rises C live loc pc st
  unfold emitLoop
  cases cond with
  | some cond =>
    refine (emitExpr_rises C live cond loc pc []).bind le_rfl fun c => ?_
    refine (hbody _).bind (by omega) fun b => ?_
    exact (hstep _).bind le_rfl fun st => .pure (by simp; omega)
  | none =>
    refine (hbody pc).bind le_rfl fun b => ?_
    exact (hstep _).bind le_rfl fun st => .pure (by simp; omega)

theorem emitLoopJump_rises (kind : String) (jump : Emitted) (loop : Option LoopContext) (pos : Pos) (pc : ℕ) :
    Emits pc (emitLoopJump C kind jump loop pos) := by
  unfold emitLoopJump
  split
  · exact genError_rises
  · exact .pure (by simp)

mutual
theorem emitStmt_rises : ∀ (st : TStmt) (loop : Option LoopContext) (live : List Symbol) (loc : Option Pos) (pc : ℕ),
    Emits pc (emitStmt C loop live loc pc st)
  | .simple s, loop, live, loc, pc => by
    simp only [emitStmt]
    exact emitSimple_rises C live loc pc s
  | .varDecl pos sym init, loop, live, loc, pc => by
    simp only [emitStmt]
    exact .located fun loc => emitVarDecl_rises C live loc pc pos sym init
  | .print pos value, loop, live, loc, pc => by
    simp only [emitStmt]
    exact .located fun loc => emitPrint_rises C live loc false pc value
  | .println pos value, loop, live, loc, pc => by
    simp only [emitStmt]
    exact .located fun loc => emitPrint_rises C live loc true pc value
  | .return_ pos none, loop, live, loc, pc => by
    simp only [emitStmt]
    exact .located fun loc => .pure (by simp)
  | .return_ pos (some value), loop, live, loc, pc => by
    simp only [emitStmt]
    exact .located fun loc => (emitExpr_rises C live value loc pc []).bind le_rfl fun v => .pure (by simp)
  | .vmAsm pos code visible, loop, live, loc, pc => by
    simp only [emitStmt]
    refine .located fun loc s c s' hrun hs => ?_
    split at hrun
    · cases hrun
      exact hs.mono (Nat.le_add_right ..)
    · cases hrun
  | .if_ pos cond thenBlock elseBlock, loop, live, loc, pc => by
    simp only [emitStmt]
    refine .located fun loc => (emitExpr_rises C live cond loc pc []).bind le_rfl fun c => ?_
    refine (emitBlock_rises thenBlock loop live loc _).bind (by omega) fun t => ?_
    exact (emitBlock_rises elseBlock loop live loc _).bind (by omega) fun e => .pure (by simp; omega)
  | .while_ pos cond body, loop, live, loc, pc => by
    simp only [emitStmt]
    refine .located fun loc => (emitExpr_rises C live cond loc pc []).bind le_rfl fun c => ?_
    exact (emitBlock_rises body _ live loc _).bind (by omega) fun b => .pure (by simp; omega)
  | .for_ pos none cond step body refs, loop, live, loc, pc => by
    simp only [emitStmt]
    exact .located fun loc => emitLoop_rises C live loc pc cond step fun pc => emitBlock_rises body _ live loc pc
  | .for_ pos (some init) cond step body refs, loop, live, loc, pc => by
    simp only [emitStmt]
    refine .located fun loc => (emitStmt_rises init _ live loc pc).bind le_rfl fun i => ?_
    refine (emitLoop_rises C _ loc _ cond step fun pc => emitBlock_rises body _ _ loc pc).bind le_rfl fun l => ?_
    exact .pure (by simp; omega)
  | .match_ pos subject arms, loop, live, loc, pc => by
    simp only [emitStmt]
    refine .located fun loc => (emitExpr_rises C live subject loc pc []).bind le_rfl fun s => ?_
    refine (emitArms_rises arms loop live loc subject.type _).bind (by omega) fun as => ?_
    exact (emitCatchAll_rises arms loop live loc _).bind (by omega) fun rest => .pure (by simp; omega)
  | .break_ pos, loop, live, loc, pc => by
    simp only [emitStmt]
    exact .located fun _ => emitLoopJump_rises C "break" .breakJump loop pos pc
  | .continue_ pos, loop, live, loc, pc => by
    simp only [emitStmt]
    exact .located fun _ => emitLoopJump_rises C "continue" .continueJump loop pos pc
  | .block pos body, loop, live, loc, pc => by
    simp only [emitStmt]
    exact .located fun loc => emitBlock_rises body loop live loc pc

theorem emitStmts_rises : ∀ (sts : List TStmt) (loop : Option LoopContext) (live : List Symbol) (loc : Option Pos) (pc : ℕ),
    Emits pc (emitStmts C loop live loc pc sts)
  | [], loop, live, loc, pc => by
    simp only [emitStmts]
    exact .pure (by simp)
  | st :: sts, loop, live, loc, pc => by
    simp only [emitStmts]
    refine (emitStmt_rises st loop live loc pc).bind le_rfl fun c => ?_
    exact (emitStmts_rises sts loop _ loc _).bind le_rfl fun cs => .pure (by simp; omega)

theorem emitBlock_rises : ∀ (b : TBlock) (loop : Option LoopContext) (live : List Symbol) (loc : Option Pos) (pc : ℕ),
    Emits pc (emitBlock C loop live loc pc b)
  | .mk stmts refs, loop, live, loc, pc => by
    simp only [emitBlock]
    exact (emitStmts_rises stmts _ live loc pc).bind le_rfl fun c => .pure (by simp)

theorem emitArms_rises : ∀ (arms : List TArm) (loop : Option LoopContext) (live : List Symbol) (loc : Option Pos) (subject : Ty)
    (pc : ℕ), Emits pc (emitArms C loop live loc subject pc arms)
  | [], loop, live, loc, subject, pc => by
    simp only [emitArms]
    exact .pure (by simp)
  | .mk pos none bindings (.mk stmts refs) :: arms, loop, live, loc, subject, pc => by
    simp only [emitArms]
    exact emitArms_rises arms loop live loc subject pc
  | .mk pos (some v) bindings (.mk stmts refs) :: arms, loop, live, loc, subject, pc => by
    simp only [emitArms]
    refine (bindPayload_quiet C v.typeId pos live bindings v.fields).bind fun p => ?_
    refine (emitStmts_rises stmts _ _ loc _).bind (by omega) fun b => ?_
    exact (emitArms_rises arms loop live loc subject _).bind (by omega) fun rest => .pure (by simp; omega)

theorem emitCatchAll_rises : ∀ (arms : List TArm) (loop : Option LoopContext) (live : List Symbol) (loc : Option Pos) (pc : ℕ),
    Emits pc (emitCatchAll C loop live loc pc arms)
  | [], loop, live, loc, pc => by
    simp only [emitCatchAll]
    exact .pure (by simp)
  | .mk pos none bindings (.mk stmts refs) :: arms, loop, live, loc, pc => by
    simp only [emitCatchAll]
    exact (emitStmts_rises stmts _ live loc pc).bind le_rfl fun c => .pure (by simp)
  | .mk pos (some v) bindings (.mk stmts refs) :: arms, loop, live, loc, pc => by
    simp only [emitCatchAll]
    exact emitCatchAll_rises arms loop live loc pc
end

theorem emitFunctions_rises (types : TypeTable) (names : List TypeName) (fns : List TFunction) (pc : ℕ) :
    Rises pc (emitFunctions types names pc fns) fun emitted => pc + (emitted.flatMap fun e => e.2.2).length := by
  induction fns generalizing pc with
  | nil => exact .pure (by simp)
  | cons fn fns ih =>
    have hcode : Emits pc (emitFunctionCode ⟨types, names, buildLayout fn, fn.sig.ret⟩ fn pc) :=
      (emitStmts_rises _ fn.body none _ none pc).bind le_rfl fun body => .pure (by simp)
    refine hcode.bind le_rfl fun code => ?_
    exact (ih (pc + code.length)).bind le_rfl fun rest => .pure (by simp [Nat.add_assoc])

end Statements

section Markers

/-- A marker is at a pc of its own. -/
def SourceMap.Ascends (map : SourceMap) : Prop := map.markers.Pairwise fun m m' => m.1 < m'.1

theorem mark_descends {built : List (ℕ × Pos)} {pc : ℕ} (pos : Pos) (h : built.Pairwise fun m m' => m'.1 < m.1)
    (hpc : ∀ m ∈ built, m.1 ≤ pc) :
    ((SourceMap.mark built pc pos).Pairwise fun m m' => m'.1 < m.1) ∧ ∀ m ∈ SourceMap.mark built pc pos, m.1 ≤ pc := by
  cases built with
  | nil => exact ⟨List.pairwise_singleton .., by simp [SourceMap.mark]⟩
  | cons last rest =>
    obtain ⟨lastPc, lastPos⟩ := last
    obtain ⟨hlast, hrest⟩ := List.pairwise_cons.mp h
    obtain ⟨hle, hbelow⟩ := List.forall_mem_cons.mp hpc
    rw [SourceMap.mark]
    split_ifs with hsame hpos
    · exact ⟨List.pairwise_cons.mpr ⟨hlast, hrest⟩, List.forall_mem_cons.mpr ⟨hle, hbelow⟩⟩
    · exact ⟨h, hpc⟩
    · have hlt : lastPc < pc := lt_of_le_of_ne hle hsame
      refine ⟨List.pairwise_cons.mpr ⟨List.forall_mem_cons.mpr ⟨hlt, fun m hm => ?_⟩, h⟩, List.forall_mem_cons.mpr ⟨le_rfl, hpc⟩⟩
      exact (hlast m hm).trans hlt

theorem foldl_mark_descends (marks : List (ℕ × Pos)) (built : List (ℕ × Pos)) (h : built.Pairwise fun m m' => m'.1 < m.1)
    (hbelow : ∀ m ∈ built, ∀ m' ∈ marks, m.1 ≤ m'.1) (hmarks : marks.Pairwise fun m m' => m.1 ≤ m'.1) :
    (marks.foldl (fun built m => SourceMap.mark built m.1 m.2) built).Pairwise fun m m' => m'.1 < m.1 := by
  induction marks generalizing built with
  | nil => exact h
  | cons m marks ih =>
    obtain ⟨hfirst, hrest⟩ := List.pairwise_cons.mp hmarks
    obtain ⟨hmark, hle⟩ := mark_descends m.2 h fun m' hm' => hbelow m' hm' m List.mem_cons_self
    exact ih _ hmark (fun m' hm' m'' hm'' => (hle m' hm').trans (hfirst m'' hm'')) hrest

theorem build_ascends {marks : List (ℕ × Pos)} (h : marks.Pairwise fun m m' => m.1 ≤ m'.1) : (SourceMap.build marks).Ascends :=
  List.pairwise_reverse.mpr (foldl_mark_descends marks [] List.Pairwise.nil (fun _ hm => absurd hm List.not_mem_nil) h)

/-- Whatever the program, the markers of its source map ascend. -/
theorem compile_ascends {fuel : ℕ} {program : Program} {g : Generated} (h : compile fuel program = .ok g) :
    g.program.sourceMap.Ascends := by
  obtain ⟨checked, s, emitted, -, hem, -, -, -, -, -, hmap⟩ := compile_ok h
  rw [hmap]
  have hrisen := emitFunctions_rises checked.types (checked.functions.map TFunction.name) checked.functions 0 {} emitted s hem
  exact build_ascends (hrisen ⟨List.Pairwise.nil, fun _ hm => absurd hm List.not_mem_nil⟩).1

theorem emitFunctions_entries {types : TypeTable} {names : List TypeName} {pc : ℕ} {fns : List TFunction} {s s' : GenState}
    {emitted : List (FunctionLayout × ℕ × List Site)} (h : emitFunctions types names pc fns s = .ok (emitted, s')) :
    ∀ e ∈ emitted, e.2.1 ≤ pc + (emitted.flatMap fun e => e.2.2).length := by
  induction fns generalizing pc s s' emitted with
  | nil =>
    obtain ⟨rfl, -⟩ := Prod.mk.inj (pure_ok.mp h)
    exact fun e he => absurd he List.not_mem_nil
  | cons fn fns ih =>
    obtain ⟨code, s₁, -, h⟩ := bind_ok.mp h
    obtain ⟨rest, s₂, hrest, h⟩ := bind_ok.mp h
    obtain ⟨rfl, -⟩ := Prod.mk.inj (pure_ok.mp h)
    rw [List.flatMap_cons, List.length_append]
    refine List.forall_mem_cons.mpr ⟨Nat.le_add_right .., fun e he => ?_⟩
    have hle := ih hrest e he
    dsimp only
    omega

/-- No function starts past the end of the code. -/
theorem compile_entries {fuel : ℕ} {program : Program} {g : Generated} (h : compile fuel program = .ok g) :
    ∀ fn ∈ g.program.functions, fn.entryPc ≤ g.program.code.length := by
  obtain ⟨checked, s, emitted, -, hem, -, -, hsites, hcode, hinfo, -⟩ := compile_ok h
  intro fn hfn
  rw [hinfo] at hfn
  obtain ⟨e, he, rfl⟩ := List.mem_map.mp hfn
  rw [hcode, List.length_map, hsites]
  exact (emitFunctions_entries hem e he).trans (Nat.zero_add _).le

end Markers

end QuinLang
