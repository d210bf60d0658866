import QuinLang.Compiler.TypeIds

/-! When code generation succeeds on a checked program: an `int[N]` variable has no value
form, and the array operations take nothing but such a variable. -/

namespace QuinLang

open StateExcept

/-- A variable that occupies a range of slots. -/
def TExpr.namesArray : TExpr → Bool
  | .local _ sym => sym.type.arrayLength ≠ 0
  | _ => false

mutual
/-- Array variables stand only where an array operation names one. -/
def TExpr.placed : TExpr → Bool
  | .literal _ _ | .funcRef _ _ _ | .addressOfVar _ _ => true
  | .variant _ _ args => placedExprs args
  | .local _ sym => sym.type.arrayLength = 0
  | .addressOfElem _ array index => array.namesArray && index.placed
  | .unary _ _ right _ => right.placed
  | .binary _ left _ right _ => left.placed && right.placed
  | .index _ array index _ =>
    (match array.type with
      | .array _ => array.placed
      | _ => array.namesArray) && index.placed
  | .field _ obj _ _ => obj.placed
  | .structLit _ _ inits => placedInits inits
  | .callField _ receiver args _ => placedExprs args && receiver.placed
  | .callLocal _ _ args _ => placedExprs args
  | .call _ "array_push" _ [array, length, value] _ => array.namesArray && (length.placed && value.placed)
  | .call _ "array_pop" _ [array, length] _ => array.namesArray && length.placed
  | .call _ _ _ args _ => placedExprs args

def placedExprs : List TExpr → Bool
  | [] => true
  | e :: es => e.placed && placedExprs es

def placedInits : List TInit → Bool
  | [] => true
  | .mk _ _ value :: rest => value.placed && placedInits rest
end

def TSimple.placed : TSimple → Bool
  | .assignLocal _ _ value => value.placed
  | .assignElem _ _ array index value =>
    (match array.type with
      | .array _ => array.placed
      | _ => array.namesArray) && (index.placed && value.placed)
  | .assignField _ _ obj _ value => obj.placed && value.placed
  | .expr _ e => e.placed

mutual
def TStmt.placed : TStmt → Bool
  | .simple s => s.placed
  | .varDecl _ _ init => init.all TExpr.placed
  | .print _ value | .println _ value => value.placed
  | .return_ _ value => value.all TExpr.placed
  | .vmAsm _ _ _ | .break_ _ | .continue_ _ => true
  | .if_ _ cond thenBlock elseBlock => cond.placed && (thenBlock.placed && elseBlock.placed)
  | .while_ _ cond body => cond.placed && body.placed
  | .for_ _ none cond step body _ => cond.all TExpr.placed && (body.placed && step.all TSimple.placed)
  | .for_ _ (some init) cond step body _ =>
    init.placed && (cond.all TExpr.placed && (body.placed && step.all TSimple.placed))
  | .match_ _ subject arms => subject.placed && placedArms arms
  | .block _ body => body.placed

def placedStmts : List TStmt → Bool
  | [] => true
  | s :: ss => s.placed && placedStmts ss

def TBlock.placed : TBlock → Bool
  | .mk stmts _ => placedStmts stmts

def placedArms : List TArm → Bool
  | [] => true
  | .mk _ _ _ body :: arms => body.placed && placedArms arms
end

mutual
/-- No `vm_asm` block. -/
def TStmt.asmFree : TStmt → Bool
  | .vmAsm _ _ _ => false
  | .if_ _ _ thenBlock elseBlock => thenBlock.asmFree && elseBlock.asmFree
  | .while_ _ _ body | .for_ _ none _ _ body _ | .block _ body => body.asmFree
  | .for_ _ (some init) _ _ body _ => init.asmFree && body.asmFree
  | .match_ _ _ arms => asmFreeArms arms
  | _ => true

def asmFreeStmts : List TStmt → Bool
  | [] => true
  | s :: ss => s.asmFree && asmFreeStmts ss

def TBlock.asmFree : TBlock → Bool
  | .mk stmts _ => asmFreeStmts stmts

def asmFreeArms : List TArm → Bool
  | [] => true
  | .mk _ _ _ body :: arms => body.asmFree && asmFreeArms arms
end

section Steps

theorem genError_succeeds {α : Type} (pos : Pos) (message : String) : Succeeds (genError pos message : Gen α) False :=
  .of_error fun _ => ⟨_, rfl⟩

theorem addString_succeeds (value : String) : Succeeds (addString value) True := by
  refine .of_ok fun s => ?_
  unfold addString
  cases s.strings.idxOf? value with
  | some sid => exact ⟨_, rfl⟩
  | none => exact ⟨_, rfl⟩

theorem mark_succeeds (pc : ℕ) (pos : Pos) : Succeeds (mark pc pos) True := .of_ok fun _ => ⟨_, rfl⟩

/-- Recording positions does not fail. -/
theorem located_succeeds {outer : Option Pos} {pos : Pos} {pc : ℕ} {body : Option Pos → Gen (List Site)} {P : Prop}
    (h : ∀ loc, Succeeds (body loc) P) : Succeeds (located outer pos pc body) P := by
  have hrest {loc : Option Pos} {rest : List Site → Gen (List Site)} (hr : ∀ code, Succeeds (rest code) True) :
      Succeeds (body loc >>= rest) P :=
    ((h loc).bind hr).iff (and_iff_left trivial)
  have hmark {k : Gen (List Site)} (hk : Succeeds k P) : Succeeds (mark pc pos >>= fun _ => k) P :=
    ((mark_succeeds pc pos).bind fun _ => hk).iff (and_iff_right trivial)
  unfold located
  cases outer with
  | none =>
    dsimp only
    split
    · exact hmark (hrest fun code => .pure code)
    · exact hrest fun code => .pure code
  | some p =>
    have htail (code : List Site) : Succeeds (mark (pc + code.length) p >>= fun _ => pure code) True :=
      (mark_succeeds _ p).map fun _ => code
    dsimp only
    split
    · exact hmark (hrest htail)
    · exact hrest htail

end Steps

section Expressions

variable {C : GenContext} {G : Globals} {live : List Symbol}

/-- The symbol has its slots in the frame. -/
def Slotted (C : GenContext) (sym : Symbol) : Prop :=
  ∃ k, C.layout.slot? sym = some ⟨k, sym.type.arrayLength⟩

/-- The context emission reads has the types and functions the tree was checked against. -/
structure Resolves (C : GenContext) (G : Globals) : Prop where
  types : C.types = G.types
  functions : ∀ n sig, G.sig? n = some sig → (∀ b ∈ getBuiltins, b.name = n → ∃ w ∈ G.wrapped, n = .named w) →
    n ∈ C.functions

theorem slotOf_of_slotted {sym : Symbol} (h : Slotted C sym) (pos : Pos) :
    ∃ k, slotOf C pos sym = pure ⟨k, sym.type.arrayLength⟩ := by
  obtain ⟨k, hk⟩ := h
  exact ⟨k, by simp only [slotOf, hk]⟩

theorem isArray_iff (k n : ℕ) : (LocalSlot.mk k n).isArray = true ↔ n ≠ 0 := by
  simp [LocalSlot.isArray, Nat.pos_iff_ne_zero]

theorem not_isArray {t : Ty} (h : t.isFrameArray = false) (k : ℕ) :
    ¬ (LocalSlot.mk k t.arrayLength).isArray = true := by
  rw [isArray_iff, not_not]
  cases t with
  | frameArray n => cases h
  | _ => rfl

theorem arraySlot_succeeds {array : TExpr} (h : ExprOk G live array) (hl : ∀ sym ∈ live, Slotted C sym) :
    Succeeds (arraySlot C array) (array.namesArray = true) := by
  cases array with
  | «local» pos sym =>
    obtain ⟨k, hk⟩ := slotOf_of_slotted (hl sym h) pos
    simp only [arraySlot, hk, pure_bind, TExpr.namesArray, decide_eq_true_eq]
    split
    · rename_i hs
      exact (Succeeds.pure _).iff (by simpa [isArray_iff] using hs)
    · rename_i hs
      exact (genError_succeeds _ _).iff (by simpa [isArray_iff] using hs)
  | _ => exact (genError_succeeds _ _).iff (by simp [TExpr.namesArray])

theorem funcIndex_of_mem {n : TypeName} (h : n ∈ C.functions) : ∃ i, funcIndex C n = some i := by
  rw [← Option.isSome_iff_exists]
  simpa [funcIndex] using h

theorem fieldOf_ok (pos : Pos) {t ft : Ty} {field : String} (hr : Resolves C G) (h : FieldOk G t field ft) :
    ∃ fld, fieldOf C pos t field = pure fld := by
  obtain ⟨n, info, fld, rfl, hi, hf, -⟩ := h
  exact ⟨fld, by simp only [fieldOf, hr.types, hi, hf]⟩

/-- The builtins lowered where they are called. -/
def loweredBuiltins : List String := ["array_push", "array_pop", "array_new", "ct_select"]

/-- Every other builtin has its instructions. -/
theorem builtinOps_builtin {sig : FunctionSig} (hs : sig ∈ getBuiltins) {c : String} (hn : sig.name = .named c)
    (hc : c ∉ loweredBuiltins) : ∃ instrs, builtinOps c sig.params.length = some instrs := by
  have h : ∀ sig ∈ getBuiltins, sig.name.spell ∈ loweredBuiltins ∨
      (builtinOps sig.name.spell sig.params.length).isSome = true := by decide
  have hsig := h sig hs
  rw [hn] at hsig
  exact Option.isSome_iff_exists.mp (hsig.resolve_left hc)

theorem builtinOps_function {c : String} (h : ∀ b ∈ getBuiltins, b.name ≠ .named c) (n : ℕ) :
    builtinOps c n = none := by
  unfold builtinOps
  split <;> first | rfl | exact absurd h (by decide)

theorem emitExpr_call {pos : Pos} {callee : String} {target : TypeName} {args : List TExpr} {type : Ty}
    (hc : callee ∉ loweredBuiltins) (outer : Option Pos) (pc : ℕ) (σ : List Static) :
    emitExpr C live outer pc σ (.call pos callee target args type) = located outer pos pc fun loc =>
      match builtinOps callee args.length with
      | some instrs => do
        let as ← emitArgs C live loc pc σ args
        return as ++ builtinSites args σ live instrs
      | none =>
        match funcIndex C target with
        | none => genError pos s!"Call to unknown function '{target}'"
        | some i => do
          let as ← emitArgs C live loc pc σ args
          return as ++ [op (.call i) (pushTypes args σ) live] := by
  rw [emitExpr.eq_def]
  split <;> rename_i heq <;> cases heq <;> first | rfl | exact absurd (by decide) hc

theorem placed_call {pos : Pos} {callee : String} {target : TypeName} {args : List TExpr} {type : Ty}
    (h : callee ≠ "array_push") (h' : callee ≠ "array_pop") :
    (TExpr.call pos callee target args type).placed = placedExprs args := by
  rw [TExpr.placed.eq_def]
  split <;> rename_i heq <;> cases heq <;> first | rfl | exact absurd rfl h | exact absurd rfl h'

/-- `ct_select` lowers each argument, the last one twice. -/
theorem emitCtSelect_succeeds {pos : Pos} {target : TypeName} {args : List TExpr} {type : Ty} {outer : Option Pos}
    {pc : ℕ} {σ : List Static} (hlen : args.length = 3)
    (h : ∀ e ∈ args, ∀ outer pc σ, Succeeds (emitExpr C live outer pc σ e) (e.placed = true)) :
    Succeeds (emitExpr C live outer pc σ (.call pos "ct_select" target args type)) (placedExprs args = true) := by
  obtain ⟨mask, x, y, rfl⟩ := List.length_eq_three.mp hlen
  simp only [List.forall_mem_cons, List.not_mem_nil, false_imp_iff, forall_const, and_true] at h
  obtain ⟨hm, hx, hy⟩ := h
  simp only [emitExpr, placedExprs, Bool.and_true, Bool.and_eq_true]
  have hand : (x.placed = true ∧ y.placed = true ∧ mask.placed = true ∧ y.placed = true) ↔
      (mask.placed = true ∧ x.placed = true ∧ y.placed = true) := by tauto
  refine located_succeeds fun loc => Succeeds.iff ?_ hand
  refine (hx _ _ _).bind fun a => ?_
  refine (hy _ _ _).bind fun b => ?_
  refine (hm _ _ _).bind fun m => ?_
  exact (hy _ _ _).map _

variable (hr : Resolves C G) (hl : ∀ sym ∈ live, Slotted C sym)

include hr hl

set_option linter.unusedSectionVars false

mutual
/-- A well typed expression is lowered exactly where its array variables are placed. -/
theorem emitExpr_succeeds : ∀ (e : TExpr) {outer : Option Pos} {pc : ℕ} {σ : List Static}, ExprOk G live e →
    Succeeds (emitExpr C live outer pc σ e) (e.placed = true)
  | .literal pos value, outer, pc, σ, _ => by
    simp only [emitExpr, TExpr.placed]
    refine located_succeeds fun _ => ?_
    cases value with
    | str text => exact ((addString_succeeds text).map fun sid => _).iff (by simp)
    | _ => exact (Succeeds.pure _).iff (by simp)
  | .funcRef pos name type, outer, pc, σ, h => by
    obtain ⟨⟨sig, hs, -⟩, hw⟩ := h
    obtain ⟨i, hi⟩ := funcIndex_of_mem (hr.functions _ _ hs hw)
    simp only [emitExpr, hi, TExpr.placed]
    exact located_succeeds fun _ => (Succeeds.pure _).iff (by simp)
  | .variant pos info args, outer, pc, σ, h => by
    obtain ⟨-, hfit, hes⟩ := h
    have hlen : args.length = info.fields.length := by simpa using hfit.length_eq
    simp only [emitExpr, TExpr.placed]
    refine located_succeeds fun loc => ?_
    split
    · rename_i hf
      rw [hf] at hlen
      obtain rfl := List.length_eq_zero_iff.mp hlen
      exact (Succeeds.pure _).iff (by simp [placedExprs])
    · exact (emitPayload_succeeds args info.fields hlen hes).map _
  | .local pos sym, outer, pc, σ, h => by
    obtain ⟨k, hk⟩ := slotOf_of_slotted (hl sym h) pos
    simp only [emitExpr, hk, pure_bind, TExpr.placed, decide_eq_true_eq]
    refine located_succeeds fun _ => ?_
    split
    · rename_i hs
      exact (genError_succeeds _ _).iff (by simpa [isArray_iff] using hs)
    · rename_i hs
      have hlen : sym.type.arrayLength = 0 := by simpa [isArray_iff] using hs
      split <;> exact (Succeeds.pure _).iff (by simp [hlen])
  | .addressOfVar pos sym, outer, pc, σ, h => by
    obtain ⟨k, hk⟩ := slotOf_of_slotted (hl sym h.1) pos
    simp only [emitExpr, hk, pure_bind, TExpr.placed]
    exact located_succeeds fun _ => (Succeeds.pure _).iff (by simp)
  | .addressOfElem pos array index, outer, pc, σ, h => by
    obtain ⟨-, -, ha, hi⟩ := h
    simp only [emitExpr, TExpr.placed, Bool.and_eq_true]
    refine located_succeeds fun loc => (arraySlot_succeeds ha hl).bind fun p => ?_
    exact (emitExpr_succeeds index hi).map _
  | .unary pos o right type, outer, pc, σ, h => by
    simp only [emitExpr, TExpr.placed]
    exact located_succeeds fun loc => (emitExpr_succeeds right h.2).map _
  | .binary pos left o right type, outer, pc, σ, h => by
    obtain ⟨-, hleft, hright⟩ := h
    have hboth : ∀ {loc pc₁ σ₁} {pc₂ : List Site → ℕ} {σ₂} {g : List Site → List Site → List Site}, Succeeds (do
        let l ← emitExpr C live loc pc₁ σ₁ left
        let r ← emitExpr C live loc (pc₂ l) σ₂ right
        return g l r) ((TExpr.binary pos left o right type).placed = true) := fun {loc pc₁ σ₁ pc₂ σ₂ g} => by
      rw [TExpr.placed, Bool.and_eq_true]
      exact (emitExpr_succeeds left hleft).bind fun l => (emitExpr_succeeds right hright).map _
    cases o <;> simp only [emitExpr] <;> exact located_succeeds fun loc => hboth
  | .index pos array index type, outer, pc, σ, h => by
    obtain ⟨-, ha, hi⟩ := h
    simp only [emitExpr, TExpr.placed, Bool.and_eq_true]
    refine located_succeeds fun loc => ?_
    cases array.type with
    | array element => exact (emitExpr_succeeds array ha).bind fun a => (emitExpr_succeeds index hi).map _
    | _ => exact (arraySlot_succeeds ha hl).bind fun p => (emitExpr_succeeds index hi).map _
  | .field pos obj field type, outer, pc, σ, h => by
    obtain ⟨hf, ho⟩ := h
    simp only [emitExpr, TExpr.placed]
    refine located_succeeds fun loc => ?_
    obtain ⟨fld, hfld⟩ := fieldOf_ok pos hr hf
    rw [hfld, pure_bind]
    exact (emitExpr_succeeds obj ho).map _
  | .structLit pos name inits, outer, pc, σ, h => by
    obtain ⟨info, hinfo, hinits, -⟩ := h
    simp only [emitExpr, hr.types, hinfo, TExpr.placed]
    exact located_succeeds fun loc => (emitInits_succeeds inits hinits).map _
  | .callField pos receiver args type, outer, pc, σ, h => by
    obtain ⟨params, -, -, hrec, hes⟩ := h
    simp only [emitExpr, TExpr.placed, Bool.and_eq_true]
    exact located_succeeds fun loc => (emitArgs_succeeds args hes).bind fun as => (emitExpr_succeeds receiver hrec).map _
  | .callLocal pos sym args type, outer, pc, σ, h => by
    obtain ⟨params, -, hm, -, hes⟩ := h
    obtain ⟨k, hk⟩ := slotOf_of_slotted (hl sym hm) pos
    simp only [emitExpr, hk, pure_bind, TExpr.placed]
    exact located_succeeds fun loc => (emitArgs_succeeds args hes).map _
  | .call pos callee target args type, outer, pc, σ, h => by
    obtain ⟨hcall, hes⟩ := h
    cases hcall with
    | push ht hlt hvt =>
      obtain ⟨ha, hlen, hv, -⟩ := hes
      simp only [emitExpr, TExpr.placed, Bool.and_eq_true]
      exact located_succeeds fun loc => (arraySlot_succeeds ha hl).bind fun p => (emitExpr_succeeds _ hlen).bind
        fun l => (emitExpr_succeeds _ hv).map _
    | pop ht hlt =>
      obtain ⟨ha, hlen, -⟩ := hes
      simp only [emitExpr, TExpr.placed, Bool.and_eq_true]
      exact located_succeeds fun loc => (arraySlot_succeeds ha hl).bind fun p => (emitExpr_succeeds _ hlen).map _
    | new hlt =>
      rw [placed_call (by decide) (by decide)]
      simp only [emitExpr, placedExprs, Bool.and_true]
      exact located_succeeds fun loc => (emitExpr_succeeds _ hes.1).map _
    | len ha =>
      rw [emitExpr_call (by decide), placed_call (by decide) (by decide)]
      exact located_succeeds fun loc => (emitArgs_succeeds _ hes).map _
    | builtin hc hs hn hf =>
      rename_i sig
      have hpush : callee ≠ "array_push" := fun he => hc (by rw [he]; decide)
      have hpop : callee ≠ "array_pop" := fun he => hc (by rw [he]; decide)
      rw [placed_call hpush hpop]
      by_cases hct : callee = "ct_select"
      · subst hct
        have hthree : ∀ sig ∈ getBuiltins, sig.name = .named "ct_select" → sig.params.length = 3 := by decide
        exact emitCtSelect_succeeds (hf.length_eq.trans (hthree sig hs hn)) (emitEach_succeeds args hes)
      · have hlow : callee ∉ loweredBuiltins := by
          simp only [arrayBuiltins, loweredBuiltins, List.mem_cons, List.not_mem_nil] at hc ⊢
          tauto
        obtain ⟨instrs, hi⟩ := builtinOps_builtin hs hn hlow
        rw [emitExpr_call hlow, hf.length_eq, hi]
        exact located_succeeds fun loc => (emitArgs_succeeds args hes).map _
    | function hc hb ht hs hf =>
      have hlow : callee ∉ loweredBuiltins := by
        have hall : ∀ c ∈ loweredBuiltins, ∃ b ∈ getBuiltins, b.name = .named c := by decide
        intro hm
        obtain ⟨b, hbm, hbn⟩ := hall callee hm
        exact hb b hbm hbn
      have hne : callee ≠ "array_push" ∧ callee ≠ "array_pop" := by
        simp only [loweredBuiltins, List.mem_cons, List.not_mem_nil] at hlow
        tauto
      obtain ⟨i, hi⟩ := funcIndex_of_mem (hr.functions _ _ hs fun b hb hn => absurd hn (ht b hb))
      rw [emitExpr_call hlow, placed_call hne.1 hne.2, builtinOps_function hb, hi]
      exact located_succeeds fun loc => (emitArgs_succeeds args hes).map _

theorem emitEach_succeeds : ∀ (es : List TExpr), ExprsOk G live es → ∀ e ∈ es, ∀ outer pc σ,
    Succeeds (emitExpr C live outer pc σ e) (e.placed = true)
  | [], _ => (by simp)
  | e :: es, h => List.forall_mem_cons.mpr ⟨fun _ _ _ => emitExpr_succeeds e h.1, emitEach_succeeds es h.2⟩

theorem emitArgs_succeeds : ∀ (es : List TExpr) {loc : Option Pos} {pc : ℕ} {σ : List Static}, ExprsOk G live es →
    Succeeds (emitArgs C live loc pc σ es) (placedExprs es = true)
  | [], loc, pc, σ, _ => by
    simp only [emitArgs, placedExprs]
    exact (Succeeds.pure _).iff (by simp)
  | e :: es, loc, pc, σ, h => by
    obtain ⟨he, hes⟩ := h
    simp only [emitArgs, placedExprs, Bool.and_eq_true]
    exact (emitExpr_succeeds e he).bind fun c => (emitArgs_succeeds es hes).map _

theorem emitPayload_succeeds : ∀ (es : List TExpr) (flds : List StructField) {loc : Option Pos} {pc : ℕ}
    {σ : List Static} {info : VariantInfo} {stored : List ℕ}, es.length = flds.length → ExprsOk G live es →
    Succeeds (emitPayload C live loc pc σ info stored es flds) (placedExprs es = true)
  | [], flds, loc, pc, σ, info, stored, _, _ => by
    simp only [emitPayload, placedExprs]
    exact (Succeeds.pure _).iff (by simp)
  | e :: es, [], loc, pc, σ, info, stored, hlen, _ => by cases hlen
  | e :: es, fld :: flds, loc, pc, σ, info, stored, hlen, h => by
    obtain ⟨he, hes⟩ := h
    simp only [emitPayload, placedExprs, Bool.and_eq_true]
    exact (emitExpr_succeeds e he).bind fun c => (emitPayload_succeeds es flds (by simpa using hlen) hes).map _

theorem emitInits_succeeds : ∀ (inits : List TInit) {loc : Option Pos} {pc : ℕ} {σ : List Static}
    {info : StructInfo} {stored : List ℕ}, InitsOk G live info inits →
    Succeeds (emitInits C live loc pc σ info stored inits) (placedInits inits = true)
  | [], loc, pc, σ, info, stored, _ => by
    simp only [emitInits, placedInits]
    exact (Succeeds.pure _).iff (by simp)
  | .mk pos name value :: inits, loc, pc, σ, info, stored, h => by
    obtain ⟨⟨fld, hfld, -⟩, hv, hrest⟩ := h
    simp only [emitInits, hfld, placedInits, Bool.and_eq_true]
    exact (emitExpr_succeeds value hv).bind fun c => (emitInits_succeeds inits hrest).map _
end

end Expressions

section Statements

variable {C : GenContext} {G : Globals} {live : List Symbol} {loc : Option Pos} {pc : ℕ}

theorem emitPrint_succeeds (hr : Resolves C G) (hl : ∀ sym ∈ live, Slotted C sym) {newline : Bool} {value : TExpr}
    (h : ExprOk G live value) : Succeeds (emitPrint C live loc newline pc value) (value.placed = true) := by
  unfold emitPrint
  split
  · refine ((emitExpr_succeeds hr hl value h).bind fun v => (?_ : Succeeds _ True)).iff (and_iff_left trivial)
    have htext : Succeeds (emitBoolToStr live (pc + v.length)) True :=
      ((addString_succeeds "true").bind fun _ => (addString_succeeds "false").map _).iff (and_iff_left trivial)
    exact htext.map _
  · exact (emitExpr_succeeds hr hl value h).map _

theorem emitSimple_succeeds (hr : Resolves C G) (hl : ∀ sym ∈ live, Slotted C sym) {st : TSimple}
    (h : SimpleOk G live st) : Succeeds (emitSimple C live loc pc st) (st.placed = true) := by
  refine located_succeeds fun loc => ?_
  cases st with
  | assignLocal pos sym value =>
    obtain ⟨hm, harr, -, hv⟩ := h
    obtain ⟨k, hk⟩ := slotOf_of_slotted (hl sym hm) pos
    simp only [emitSimpleBody, hk, pure_bind, if_neg (not_isArray harr k), TSimple.placed]
    exact (emitExpr_succeeds hr hl value hv).map _
  | assignElem pos targetPos array index value =>
    obtain ⟨-, ha, hi, hv⟩ := h
    simp only [emitSimpleBody, TSimple.placed, Bool.and_eq_true]
    have hgoal : ∀ {P : Prop}, (P ∧ value.placed = true ∧ index.placed = true) ↔
        (P ∧ index.placed = true ∧ value.placed = true) := fun {P} => and_congr_right fun _ => and_comm
    cases array.type with
    | array element =>
      refine (emitExpr_succeeds hr hl array ha).bind fun a => ?_
      refine (located_succeeds fun loc => emitExpr_succeeds hr hl index hi).bind fun i => ?_
      exact (emitExpr_succeeds hr hl value hv).map _
    | _ =>
      refine Succeeds.iff ?_ hgoal
      refine (arraySlot_succeeds ha hl).bind fun p => ?_
      refine (emitExpr_succeeds hr hl value hv).bind fun v => ?_
      exact (located_succeeds fun loc => (emitExpr_succeeds hr hl index hi).map _).map _
  | assignField pos targetPos obj field value =>
    obtain ⟨⟨t, hf, -⟩, ho, hv⟩ := h
    obtain ⟨fld, hfld⟩ := fieldOf_ok targetPos hr hf
    simp only [emitSimpleBody, hfld, pure_bind, TSimple.placed, Bool.and_eq_true]
    exact (emitExpr_succeeds hr hl obj ho).bind fun o => (emitExpr_succeeds hr hl value hv).map _
  | expr pos e =>
    simp only [emitSimpleBody, TSimple.placed]
    exact (emitExpr_succeeds hr hl e h).map _

theorem emitVarDecl_succeeds (hr : Resolves C G) (hl : ∀ sym ∈ live, Slotted C sym) {pos : Pos} {sym : Symbol}
    {init : Option TExpr} (hsym : Slotted C sym)
    (h : ∀ v, init = some v → sym.type.assignable v.type = true ∧ sym.type.isFrameArray = false ∧ ExprOk G live v) :
    Succeeds (emitVarDecl C live loc pc pos sym init) (init.all TExpr.placed = true) := by
  obtain ⟨k, hk⟩ := slotOf_of_slotted hsym pos
  simp only [emitVarDecl, hk, pure_bind]
  cases init with
  | none =>
    split
    · exact (Succeeds.pure _).iff (by simp)
    · have hdefault : Succeeds (emitDefault sym.type) True := by
        unfold emitDefault
        split
        · exact (addString_succeeds "").map _
        · split <;> exact .pure _
      exact (hdefault.map _).iff (by simp)
  | some v =>
    obtain ⟨-, harr, hv⟩ := h v rfl
    rw [if_neg (not_isArray harr k)]
    exact ((emitExpr_succeeds hr hl v hv).map _).iff (by simp)

theorem bindPayload_succeeds {typeId : ℕ} {pos : Pos} {syms : List Symbol} (h : ∀ sym ∈ syms, Slotted C sym)
    (live : List Symbol) (flds : List StructField) : Succeeds (bindPayload C typeId pos live syms flds) True := by
  induction syms generalizing live flds with
  | nil => exact .pure _
  | cons sym syms ih =>
    cases flds with
    | nil => exact .pure _
    | cons fld flds =>
      obtain ⟨k, hk⟩ := h sym List.mem_cons_self
      simp only [bindPayload, hk]
      exact (ih (fun s hs => h s (List.mem_cons_of_mem _ hs)) (sym :: live) flds).map _

theorem emitLoop_succeeds (hr : Resolves C G) (hl : ∀ sym ∈ live, Slotted C sym) {cond : Option TExpr}
    {step : Option TSimple} {emitBody : ℕ → Gen (List Site)} {P : Prop}
    (hc : ∀ c ∈ cond, ConditionOk G live c) (hs : ∀ s ∈ step, SimpleOk G live s) (hb : ∀ pc, Succeeds (emitBody pc) P) :
    Succeeds (emitLoop C live loc pc cond step emitBody)
      (cond.all TExpr.placed = true ∧ P ∧ step.all TSimple.placed = true) := by
  have hstep : ∀ pc, Succeeds (emitStep C live loc pc step) (step.all TSimple.placed = true) := fun pc => by
    cases step with
    | none => exact (Succeeds.pure _).iff (by simp)
    | some s => exact (emitSimple_succeeds hr hl (hs s rfl)).iff (by simp)
  unfold emitLoop
  cases cond with
  | none => exact ((hb pc).bind fun b => (hstep _).map _).iff (by simp)
  | some c =>
    refine Succeeds.iff ?_ (and_congr_left fun _ => by simp : c.placed = true ∧ _ ↔ _)
    refine (emitExpr_succeeds hr hl c (hc c rfl).2).bind fun cs => ?_
    exact (hb _).bind fun b => (hstep _).map _

theorem slotted_liveAfter {frame : List Symbol} {inLoop : Bool} {st : TStmt}
    (hframe : ∀ sym : Symbol, frame[sym.index]? = some sym → Slotted C sym) (hl : ∀ sym ∈ live, Slotted C sym)
    (h : StmtScoped frame inLoop st) : ∀ sym ∈ liveAfter live st, Slotted C sym := by
  cases st with
  | varDecl pos sym init =>
    intro s hs
    rcases List.mem_cons.mp hs with rfl | hs
    · exact hframe s h
    · exact hl s hs
  | _ => exact hl

theorem emitLoopJump_succeeds {kind : String} {jump : Emitted} {loop : Option LoopContext} {pos : Pos}
    (h : loop.isSome = true) : Succeeds (emitLoopJump C kind jump loop pos) True := by
  cases loop with
  | none => cases h
  | some l => exact .pure _

def TArm.isNamed : TArm → Bool
  | .mk _ variant _ _ => variant.isSome

/-- The arms that name a variant are lowered apart from the catch-all. -/
theorem placedArms_named (arms : List TArm) : placedArms arms = true ↔
    placedArms (arms.filter TArm.isNamed) = true ∧ placedArms (arms.filter fun a => !a.isNamed) = true := by
  induction arms with
  | nil => simp [placedArms]
  | cons arm arms ih =>
    obtain ⟨pos, variant, bindings, body⟩ := arm
    cases variant with
    | none =>
      rw [List.filter_cons_of_neg (by simp [TArm.isNamed]), List.filter_cons_of_pos (by rfl)]
      simp only [placedArms, Bool.and_eq_true, ih]
      tauto
    | some v =>
      rw [List.filter_cons_of_pos (by rfl), List.filter_cons_of_neg (by simp [TArm.isNamed])]
      simp only [placedArms, Bool.and_eq_true, ih]
      tauto

variable {ret : Ty} {frame : List Symbol} (hr : Resolves C G)
  (hframe : ∀ sym : Symbol, frame[sym.index]? = some sym → Slotted C sym)

include hr hframe

set_option linter.unusedSectionVars false

mutual
/-- A well typed statement without `vm_asm` is lowered exactly where its array variables
are placed. -/
theorem emitStmt_succeeds : ∀ (st : TStmt) {loop : Option LoopContext} {live : List Symbol} {loc : Option Pos}
    {pc : ℕ}, (∀ sym ∈ live, Slotted C sym) → StmtOk G ret live st → StmtScoped frame loop.isSome st →
      st.asmFree = true → Succeeds (emitStmt C loop live loc pc st) (st.placed = true)
  | .simple s, loop, live, loc, pc, hl, h, _, _ => by
    simp only [emitStmt, TStmt.placed]
    exact emitSimple_succeeds hr hl h
  | .varDecl pos sym init, loop, live, loc, pc, hl, h, hsc, _ => by
    simp only [emitStmt, TStmt.placed]
    exact located_succeeds fun loc => emitVarDecl_succeeds hr hl (hframe sym hsc) h
  | .print pos value, loop, live, loc, pc, hl, h, _, _ => by
    simp only [emitStmt, TStmt.placed]
    exact located_succeeds fun loc => emitPrint_succeeds hr hl h.2
  | .println pos value, loop, live, loc, pc, hl, h, _, _ => by
    simp only [emitStmt, TStmt.placed]
    exact located_succeeds fun loc => emitPrint_succeeds hr hl h.2
  | .return_ pos none, loop, live, loc, pc, hl, h, _, _ => by
    simp only [emitStmt, TStmt.placed]
    exact located_succeeds fun loc => (Succeeds.pure _).iff (by simp)
  | .return_ pos (some value), loop, live, loc, pc, hl, h, _, _ => by
    simp only [emitStmt, TStmt.placed]
    exact located_succeeds fun loc => ((emitExpr_succeeds hr hl value h.2).map _).iff (by simp)
  | .vmAsm pos code visible, loop, live, loc, pc, _, _, _, hasm => by cases hasm
  | .break_ pos, loop, live, loc, pc, hl, h, hsc, _ => by
    simp only [emitStmt, TStmt.placed]
    exact located_succeeds fun _ => (emitLoopJump_succeeds hsc).iff (by simp)
  | .continue_ pos, loop, live, loc, pc, hl, h, hsc, _ => by
    simp only [emitStmt, TStmt.placed]
    exact located_succeeds fun _ => (emitLoopJump_succeeds hsc).iff (by simp)
  | .block pos body, loop, live, loc, pc, hl, h, hsc, hasm => by
    simp only [emitStmt, TStmt.placed]
    exact located_succeeds fun loc => emitBlock_succeeds body hl h hsc hasm
  | .if_ pos cond thenBlock elseBlock, loop, live, loc, pc, hl, h, hsc, hasm => by
    obtain ⟨hc, ht, he⟩ := h
    obtain ⟨hts, hes⟩ := hsc
    obtain ⟨hta, hea⟩ := Bool.and_eq_true_iff.mp hasm
    simp only [emitStmt, TStmt.placed, Bool.and_eq_true]
    refine located_succeeds fun loc => (emitExpr_succeeds hr hl cond hc.2).bind fun c => ?_
    exact (emitBlock_succeeds thenBlock hl ht hts hta).bind fun t => (emitBlock_succeeds elseBlock hl he hes hea).map _
  | .while_ pos cond body, loop, live, loc, pc, hl, h, hsc, hasm => by
    obtain ⟨hc, hb⟩ := h
    simp only [emitStmt, TStmt.placed, Bool.and_eq_true]
    refine located_succeeds fun loc => (emitExpr_succeeds hr hl cond hc.2).bind fun c => ?_
    have hbody : ∀ pc, Succeeds (emitBlock C (some { live := live }) live loc pc body) (body.placed = true) :=
      fun _ => emitBlock_succeeds body hl hb hsc hasm
    exact (hbody _).map _
  | .for_ pos none cond step body refs, loop, live, loc, pc, hl, h, hsc, hasm => by
    obtain ⟨hc, hs, hb, -⟩ := h
    simp only [emitStmt, TStmt.placed, Bool.and_eq_true]
    exact located_succeeds fun loc => emitLoop_succeeds hr hl hc hs fun pc => emitBlock_succeeds body hl hb hsc hasm
  | .for_ pos (some init) cond step body refs, loop, live, loc, pc, hl, h, hsc, hasm => by
    obtain ⟨hi, hc, hs, hb, -⟩ := h
    obtain ⟨his, hbs⟩ := hsc
    obtain ⟨hia, hba⟩ := Bool.and_eq_true_iff.mp hasm
    have hl' := slotted_liveAfter hframe hl his
    simp only [emitStmt, TStmt.placed, Bool.and_eq_true]
    refine located_succeeds fun loc => (emitStmt_succeeds init hl hi (by simpa using his) hia).bind fun i => ?_
    have hbody : ∀ pc, Succeeds (emitBlock C (some { live := liveAfter live init }) (liveAfter live init) loc pc body)
        (body.placed = true) := fun _ => emitBlock_succeeds body hl' hb hbs hba
    exact (emitLoop_succeeds hr hl' hc hs hbody).map _
  | .match_ pos subject arms, loop, live, loc, pc, hl, h, hsc, hasm => by
    obtain ⟨name, -, hsub, harms⟩ := h
    simp only [emitStmt, TStmt.placed, Bool.and_eq_true]
    refine located_succeeds fun loc => (emitExpr_succeeds hr hl subject hsub).bind fun s => ?_
    refine Succeeds.iff ?_ (placedArms_named arms).symm
    refine (emitArms_succeeds arms hl harms hsc hasm).bind fun as => ?_
    exact (emitCatchAll_succeeds arms hl harms hsc hasm).map _

theorem emitStmts_succeeds : ∀ (sts : List TStmt) {loop : Option LoopContext} {live : List Symbol} {loc : Option Pos}
    {pc : ℕ}, (∀ sym ∈ live, Slotted C sym) → StmtsOk G ret live sts → StmtsScoped frame loop.isSome sts →
      asmFreeStmts sts = true → Succeeds (emitStmts C loop live loc pc sts) (placedStmts sts = true)
  | [], loop, live, loc, pc, _, _, _, _ => by
    simp only [emitStmts, placedStmts]
    exact (Succeeds.pure _).iff (by simp)
  | st :: sts, loop, live, loc, pc, hl, h, hsc, hasm => by
    rw [StmtsOk] at h
    obtain ⟨hst, hsts⟩ := h
    obtain ⟨hsc₁, hsc₂⟩ := hsc
    obtain ⟨ha₁, ha₂⟩ := Bool.and_eq_true_iff.mp hasm
    simp only [emitStmts, placedStmts, Bool.and_eq_true]
    refine (emitStmt_succeeds st hl hst hsc₁ ha₁).bind fun c => ?_
    exact (emitStmts_succeeds sts (slotted_liveAfter hframe hl hsc₁) hsts hsc₂ ha₂).map _

theorem emitBlock_succeeds : ∀ (b : TBlock) {loop : Option LoopContext} {live : List Symbol} {loc : Option Pos}
    {pc : ℕ}, (∀ sym ∈ live, Slotted C sym) → BlockOk G ret live b → BlockScoped frame loop.isSome b →
      b.asmFree = true → Succeeds (emitBlock C loop live loc pc b) (b.placed = true)
  | .mk stmts refs, loop, live, loc, pc, hl, h, hsc, hasm => by
    simp only [emitBlock, TBlock.placed]
    refine (emitStmts_succeeds stmts hl h.1 ?_ hasm).map _
    rw [Option.isSome_map]
    exact hsc

theorem emitArms_succeeds : ∀ (arms : List TArm) {loop : Option LoopContext} {live : List Symbol} {loc : Option Pos}
    {pc : ℕ} {subject : Ty} {name : TypeName}, (∀ sym ∈ live, Slotted C sym) → ArmsOk G ret name live arms →
      ArmsScoped frame loop.isSome arms → asmFreeArms arms = true →
      Succeeds (emitArms C loop live loc subject pc arms) (placedArms (arms.filter TArm.isNamed) = true)
  | [], loop, live, loc, pc, subject, name, _, _, _, _ => by
    simp only [emitArms]
    exact (Succeeds.pure _).iff (by simp [placedArms])
  | .mk pos none bindings (.mk stmts refs) :: arms, loop, live, loc, pc, subject, name, hl, h, hsc, hasm => by
    rw [ArmsOk] at h
    obtain ⟨-, -, -, hsc⟩ := hsc
    simp only [emitArms]
    rw [List.filter_cons_of_neg (by simp [TArm.isNamed])]
    exact emitArms_succeeds arms hl h.2.2 hsc (Bool.and_eq_true_iff.mp hasm).2
  | .mk pos (some v) bindings (.mk stmts refs) :: arms, loop, live, loc, pc, subject, name, hl, h, hsc, hasm => by
    rw [ArmsOk] at h
    obtain ⟨-, hb, -, harms⟩ := h
    obtain ⟨-, hsyms, hbs, hsc⟩ := hsc
    obtain ⟨ha₁, ha₂⟩ := Bool.and_eq_true_iff.mp hasm
    have hslots : ∀ sym ∈ bindings, Slotted C sym := fun sym hm => hframe sym (hsyms sym hm)
    have hl' : ∀ sym ∈ bindings.reverse ++ live, Slotted C sym := by
      intro sym hm
      rcases List.mem_append.mp hm with hm | hm
      · exact hslots sym (List.mem_reverse.mp hm)
      · exact hl sym hm
    simp only [emitArms]
    rw [List.filter_cons_of_pos (by rfl)]
    simp only [placedArms, TBlock.placed, Bool.and_eq_true]
    refine ((bindPayload_succeeds hslots live v.fields).bind fun p => ?_).iff (and_iff_right trivial)
    refine (emitStmts_succeeds stmts hl' hb ?_ ha₁).bind fun b => ?_
    · rw [Option.isSome_map]
      exact hbs
    · exact (emitArms_succeeds arms hl harms hsc ha₂).map _

theorem emitCatchAll_succeeds : ∀ (arms : List TArm) {loop : Option LoopContext} {live : List Symbol}
    {loc : Option Pos} {pc : ℕ} {name : TypeName}, (∀ sym ∈ live, Slotted C sym) → ArmsOk G ret name live arms →
      ArmsScoped frame loop.isSome arms → asmFreeArms arms = true →
      Succeeds (emitCatchAll C loop live loc pc arms) (placedArms (arms.filter fun a => !a.isNamed) = true)
  | [], loop, live, loc, pc, name, _, _, _, _ => by
    simp only [emitCatchAll]
    exact (Succeeds.pure _).iff (by simp [placedArms])
  | .mk pos none bindings (.mk stmts refs) :: arms, loop, live, loc, pc, name, hl, h, hsc, hasm => by
    rw [ArmsOk] at h
    obtain ⟨hlast, -, hbs, -⟩ := hsc
    obtain rfl := hlast rfl
    simp only [emitCatchAll]
    rw [List.filter_cons_of_pos (by rfl), List.filter_nil]
    simp only [placedArms, TBlock.placed, Bool.and_true]
    refine (emitStmts_succeeds stmts hl h.1 ?_ (Bool.and_eq_true_iff.mp hasm).1).map _
    rw [Option.isSome_map]
    exact hbs
  | .mk pos (some v) bindings (.mk stmts refs) :: arms, loop, live, loc, pc, name, hl, h, hsc, hasm => by
    rw [ArmsOk] at h
    obtain ⟨-, -, -, hsc⟩ := hsc
    simp only [emitCatchAll]
    rw [List.filter_cons_of_neg (by simp [TArm.isNamed])]
    exact emitCatchAll_succeeds arms hl h.2.2.2 hsc (Bool.and_eq_true_iff.mp hasm).2
end

end Statements

section Programs

variable {G : Globals} {fn : TFunction}

theorem getElem?_assignSlots {frame : List Symbol} {next i : ℕ} {sym : Symbol} (h : frame[i]? = some sym) :
    ∃ k, (assignSlots next frame)[i]? = some ⟨k, sym.type.arrayLength⟩ := by
  induction frame generalizing next i with
  | nil => cases h
  | cons s frame ih =>
    cases i with
    | zero =>
      cases h
      exact ⟨next, rfl⟩
    | succ i => exact ih h

theorem slotted_of_frame {C : GenContext} (hC : C.layout = buildLayout fn) {sym : Symbol}
    (h : fn.frame[sym.index]? = some sym) : Slotted C sym := by
  obtain ⟨k, hk⟩ := @getElem?_assignSlots fn.frame 0 sym.index sym h
  refine ⟨k, ?_⟩
  rw [hC]
  exact (if_pos h).trans hk

theorem emitFunctionCode_succeeds {C : GenContext} (hr : Resolves C G) (hC : C.layout = buildLayout fn)
    (h : Emittable G fn) (hasm : asmFreeStmts fn.body = true) (pc : ℕ) :
    Succeeds (emitFunctionCode C fn pc) (placedStmts fn.body = true) := by
  have hframe : ∀ sym : Symbol, fn.frame[sym.index]? = some sym → Slotted C sym := fun sym => slotted_of_frame hC
  have hl : ∀ sym ∈ (fn.frame.take fn.numParams).reverse, Slotted C sym := fun sym hm =>
    hframe sym (h.params sym (List.mem_reverse.mp hm))
  have hbody : Succeeds (emitStmts C none (fn.frame.take fn.numParams).reverse none pc fn.body)
      (placedStmts fn.body = true) := emitStmts_succeeds hr hframe fn.body hl h.typed.body h.body hasm
  exact hbody.map _

theorem emitFunctions_succeeds {types : TypeTable} {names : List TypeName} {fns : List TFunction}
    (hr : ∀ layout ret, Resolves ⟨types, names, layout, ret⟩ G) (h : ∀ fn ∈ fns, Emittable G fn)
    (hasm : ∀ fn ∈ fns, asmFreeStmts fn.body = true) (pc : ℕ) :
    Succeeds (emitFunctions types names pc fns) (∀ fn ∈ fns, placedStmts fn.body = true) := by
  induction fns generalizing pc with
  | nil => exact (Succeeds.pure _).iff (by simp)
  | cons fn fns ih =>
    simp only [List.forall_mem_cons] at h hasm ⊢
    refine (emitFunctionCode_succeeds (hr _ _) rfl h.1 hasm.1 pc).bind fun code => ?_
    exact (ih h.2 hasm.2 _).map _

theorem duplicateFunction_eq_none {fns : List TFunction} {seen : List TypeName}
    (h : (fns.map TFunction.name).Nodup) (h' : ∀ n ∈ seen, n ∉ fns.map TFunction.name) :
    duplicateFunction seen fns = none := by
  induction fns generalizing seen with
  | nil => rfl
  | cons fn fns ih =>
    obtain ⟨hn, hnd⟩ := List.nodup_cons.mp h
    have hseen : fn.name ∉ seen := fun hm => h' fn.name hm List.mem_cons_self
    rw [duplicateFunction, if_neg hseen]
    refine ih hnd fun n hm => ?_
    rcases List.mem_cons.mp hm with rfl | hm
    · exact hn
    · exact fun hin => h' n hm (List.mem_cons_of_mem _ hin)

/-- No function is due twice. -/
theorem SemaState.Ok.due_nodup {s : SemaState} (ok : s.Ok) : s.due.Nodup := by
  obtain ⟨rest, hrest⟩ := ok.builtins
  have hdrop : s.functions.drop getBuiltins.length = rest := by rw [← hrest, List.drop_left]
  have hnames := ok.names
  rw [← hrest, List.map_append] at hnames
  obtain ⟨-, hnd, hdisj⟩ := List.nodup_append.mp hnames
  unfold SemaState.due
  rw [hdrop]
  refine hnd.append (ok.wrapped.map fun a b hab => TypeName.named.inj hab) fun n hn hw => ?_
  obtain ⟨w, hwm, rfl⟩ := List.mem_map.mp hw
  obtain ⟨b, hb, hbn⟩ := ok.wrappers w hwm
  exact hdisj _ (List.mem_map_of_mem hb) _ hn hbn

/-- Every function a checked tree refers to is emitted. -/
theorem Accepted.resolves {program : Program} {s : SemaState} (h : Accepted program s) (layout : FunctionLayout)
    (ret : Ty) : Resolves ⟨s.types, s.functionsToEmit.map TFunction.name, layout, ret⟩ s.globals := by
  refine ⟨rfl, fun n sig hsig hw => h.due.subset ?_⟩
  obtain ⟨hm, rfl⟩ := function?_mem hsig
  obtain ⟨rest, hrest⟩ := h.ok.builtins
  rw [← hrest] at hm
  rcases List.mem_append.mp hm with hm | hm
  · obtain ⟨w, hwm, hn⟩ := hw sig hm rfl
    rw [hn]
    exact List.mem_append_right _ (List.mem_map_of_mem hwm)
  · refine List.mem_append_left _ (List.mem_map_of_mem ?_)
    rw [← hrest, List.drop_left]
    exact hm

/-- Ids stay below the number of types, whatever table lists them. -/
theorem described_bounded {t : TypeTable} (h : t.Ok) : ∀ d ∈ described t, d.1 < t.typeIds.length := by
  intro d hd
  apply h.bounded
  rcases List.mem_append.mp hd with hd | hd
  · obtain ⟨i, hi, rfl⟩ := List.mem_map.mp hd
    exact List.mem_append_left _ (List.mem_map_of_mem hi)
  · obtain ⟨v, hv, rfl⟩ := List.mem_map.mp hd
    exact List.mem_append_right _ (List.mem_map_of_mem (TypeTable.mem_allVariants hv))

/-- What the analyser accepts compiles exactly where its array variables are placed. -/
theorem generate_ok_iff {fuel : ℕ} {program : Program} {checked : CheckedProgram}
    (h : analyze fuel program = .ok checked) (hasm : ∀ fn ∈ checked.functions, asmFreeStmts fn.body = true)
    (hcount : checked.types.typeIds.length ≤ MAX_TYPE_ID + 1) :
    (∃ g, generate checked = .ok g) ↔ ∀ fn ∈ checked.functions, placedStmts fn.body = true := by
  obtain ⟨s, hacc, htypes, hfns, hemit⟩ := analyze_ok h
  have hdup : duplicateFunction [] checked.functions = none := by
    refine duplicateFunction_eq_none ?_ (by simp)
    rw [hfns]
    exact hacc.due.nodup_iff.mp hacc.ok.due_nodup
  have hsmall : ¬ ((described checked.types).map fun d => d.1 + 1).foldl max 0 > MAX_TYPE_ID + 1 := by
    refine not_lt.mpr (foldl_max_le.mpr ⟨Nat.zero_le _, fun x hx => ?_⟩)
    obtain ⟨d, hd, rfl⟩ := List.mem_map.mp hx
    have := described_bounded (htypes ▸ hacc.ok.types) d hd
    omega
  have hrun : Succeeds (emitFunctions checked.types (checked.functions.map TFunction.name) 0 checked.functions)
      (∀ fn ∈ checked.functions, placedStmts fn.body = true) := by
    refine emitFunctions_succeeds (fun layout ret => ?_) hemit hasm 0
    rw [htypes, hfns]
    exact hacc.resolves layout ret
  rw [← hrun {}]
  unfold generate
  rw [hdup]
  dsimp only
  constructor
  · rintro ⟨g, hg⟩
    cases hem : emitFunctions checked.types (checked.functions.map TFunction.name) 0 checked.functions {} with
    | error e => simp [hem] at hg
    | ok r => exact ⟨r, rfl⟩
  · rintro ⟨⟨emitted, st⟩, hem⟩
    rw [hem]
    dsimp only
    rw [if_neg hsmall]
    exact ⟨_, rfl⟩

end Programs

/-- `fn main() { let a: int[3]; a[1] = 5; println(a[1]); }`. -/
def cellSource : Program where
  functions := [{
    name := "main", params := [], returnType := none,
    body := [
      .varDecl {} "a" (some (.frameArray 3)) none,
      .simple (.assign {} (.index {} (.identifier {} (.plain "a")) (.literal {} (.int 1))) (.literal {} (.int 5))),
      .println {} (.index {} (.identifier {} (.plain "a")) (.literal {} (.int 1)))] }]

theorem cellSource_generated : ∃ checked, analyze 1 cellSource = .ok checked ∧ ∃ g, generate checked = .ok g := by
  have h : (analyze 1 cellSource).toOption.map (fun checked =>
      (checked.functions.all fun fn => asmFreeStmts fn.body && placedStmts fn.body) &&
        decide (checked.types.typeIds.length ≤ MAX_TYPE_ID + 1)) = some true := by decide +kernel
  cases ha : analyze 1 cellSource with
  | error e =>
    rw [ha] at h
    cases h
  | ok checked =>
    rw [ha] at h
    have h := Option.some.inj h
    simp only [Bool.and_eq_true, List.all_eq_true, decide_eq_true_eq] at h
    exact ⟨checked, rfl, (generate_ok_iff ha (fun fn hm => (h.1 fn hm).1) h.2).mpr fun fn hm => (h.1 fn hm).2⟩

/-- `fn main() { let a: int[3]; a; }`. -/
def bareSource : Program where
  functions := [{
    name := "main", params := [], returnType := none,
    body := [
      .varDecl {} "a" (some (.frameArray 3)) none,
      .simple (.expr {} (.identifier {} (.plain "a")))] }]

/-- An array variable that is a statement of its own is accepted and has no code. -/
theorem bareSource_not_generated : ∃ checked, analyze 1 bareSource = .ok checked ∧
    (∀ fn ∈ checked.functions, asmFreeStmts fn.body = true) ∧ checked.types.typeIds.length ≤ MAX_TYPE_ID + 1 ∧
    generate checked = .error "[0:0] Array 'a' has no value form; index it or take its address" := by
  have h : (analyze 1 bareSource).toOption.map (fun checked =>
      (checked.functions.all fun fn => asmFreeStmts fn.body) &&
        decide (checked.types.typeIds.length ≤ MAX_TYPE_ID + 1)) = some true := by decide +kernel
  have h' : (analyze 1 bareSource).toOption.map (fun checked => (generate checked).map fun _ => ()) =
      some (.error "[0:0] Array 'a' has no value form; index it or take its address") := by decide +kernel
  cases ha : analyze 1 bareSource with
  | error e =>
    rw [ha] at h
    cases h
  | ok checked =>
    rw [ha] at h h'
    have h := Option.some.inj h
    simp only [Bool.and_eq_true, List.all_eq_true, decide_eq_true_eq] at h
    refine ⟨checked, rfl, h.1, h.2, ?_⟩
    have h' := Option.some.inj h'
    cases hg : generate checked with
    | error e => simpa [hg, Except.map] using h'
    | ok g => simp [hg, Except.map] at h'

end QuinLang
