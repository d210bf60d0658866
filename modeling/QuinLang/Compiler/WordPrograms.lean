import QuinLang.Compiler.Preservation

/-! A check that a program keeps to words, so that the evaluation covers all it does and the
run of its code is determined by it. -/

namespace QuinLang

open StateExcept Following

section Check

variable (fns : List TFunction)

/-- The function of the name takes so many words. -/
def takesWords (target : TypeName) (count : ℕ) : Bool :=
  match (fns.map TFunction.name).idxOf? target with
  | none => false
  | some i => (fns[i]?).any fun fn => fn.takes (List.replicate count 0)

/-- A call that keeps to words, given which of its arguments do. -/
def callWords (callee : String) (target : TypeName) (args : List TExpr) (ws : List Bool) : Bool :=
  if callee ∈ loweredBuiltins then
    match callee, args, ws with
    | "array_push", [.local _ _, _, _], [_, length, value] => length && value
    | "array_pop", [.local _ _, _], [_, length] => length
    | "ct_select", [_, _, _], [mask, x, y] => mask && x && y
    | _, _, _ => false
  else if builtinOps callee args.length = some [.cmpEq] then args.length = 2 && ws.all id
  else (builtinOps callee args.length).isNone && takesWords fns target args.length && ws.all id

mutual
def TExpr.words : TExpr → Bool
  | .literal _ (.int _) | .literal _ (.bool _) => true
  | .funcRef _ name _ => ((fns.map TFunction.name).idxOf? name).isSome
  | .local _ sym => sym.type.isWord
  | .unary _ _ right type => type ≠ .float && right.words
  | .binary _ left .land right _ | .binary _ left .lor right _ => left.words && right.words
  | .binary _ left _ right _ => left.type ≠ .float && left.type ≠ .str && left.words && right.words
  | .index _ (.local _ sym) index _ => sym.type.isFrameArray && index.words
  | .call _ callee target args _ => callWords fns callee target args (wordsEach args)
  | _ => false

def wordsEach : List TExpr → List Bool
  | [] => []
  | e :: es => e.words :: wordsEach es
end

def TSimple.words : TSimple → Bool
  | .assignLocal _ _ value => value.type ≠ .float && value.words fns
  | .assignElem _ _ (.local _ sym) index value => sym.type.isFrameArray && index.words fns && value.words fns
  | .expr _ e => e.words fns
  | _ => false

def declWords (sym : Symbol) (init : Option TExpr) : Bool :=
  0 < sym.type.arrayLength || sym.type ≠ .float && init.elim (sym.type ≠ .str) (TExpr.words fns)

def printWords (value : TExpr) : Bool :=
  value.type ≠ .str && value.type ≠ .bool && value.type ≠ .float && value.words fns

mutual
/-- Nothing but words, and no jump but out of a loop. -/
def TStmt.words (inLoop : Bool) : TStmt → Bool
  | .simple s => s.words fns
  | .varDecl _ sym init => declWords fns sym init
  | .print _ value | .println _ value => printWords fns value
  | .return_ _ value => value.all (TExpr.words fns)
  | .if_ _ cond thenBlock elseBlock => cond.words fns && thenBlock.words inLoop && elseBlock.words inLoop
  | .while_ _ cond body => cond.words fns && body.words true
  | .for_ _ none cond step body _ => cond.all (TExpr.words fns) && step.all (TSimple.words fns) && body.words true
  | .for_ _ (some init) cond step body refs =>
    refs.isEmpty && init.words inLoop && cond.all (TExpr.words fns) && step.all (TSimple.words fns) && body.words true
  | .break_ _ | .continue_ _ => inLoop
  | .block _ body => body.words inLoop
  | .vmAsm _ _ _ | .match_ _ _ _ => false

def stmtsWords (inLoop : Bool) : List TStmt → Bool
  | [] => true
  | s :: ss => s.words inLoop && stmtsWords inLoop ss

def TBlock.words (inLoop : Bool) : TBlock → Bool
  | .mk stmts refs => refs.isEmpty && stmtsWords inLoop stmts
end

def ofWords : Bool := fns.all fun fn => stmtsWords fns false fn.body

end Check

section Covered

variable {W α β : Type}

/-- Nothing the evaluation does not cover. -/
def Covered (m : Eval W α) : Prop := ∀ e, m e ≠ .error .outside

theorem Covered.pure (a : α) : Covered (Pure.pure a : Eval W α) := fun e h => by cases h

theorem Covered.bind {m : Eval W α} {f : α → Eval W β} (h : Covered m) (hf : ∀ a e e', m e = .ok (a, e') → Covered (f a)) :
    Covered (m >>= f) := by
  intro e hout
  have hbind : (m >>= f) e = m e >>= fun r => f r.1 r.2 := rfl
  rw [hbind] at hout
  cases hm : m e with
  | error x =>
    rw [hm] at hout
    exact h e (hm.trans (congrArg Except.error (Except.error.inj hout)))
  | ok r =>
    rw [hm] at hout
    exact hf r.1 e r.2 hm r.2 hout

theorem Covered.andThen {m : Eval W α} {f : α → Eval W β} (h : Covered m) (hf : ∀ a, Covered (f a)) : Covered (m >>= f) :=
  h.bind fun a _ _ _ => hf a

theorem covered_abort (message : String) : Covered (abort message : Eval W α) := fun e h => by cases h

theorem covered_readVar (sym : Symbol) (k : ℕ) : Covered (readVar sym k : Eval W Word) := fun e h => by cases h

theorem covered_writeVar (sym : Symbol) (k : ℕ) (v : Word) : Covered (writeVar sym k v : Eval W Unit) := fun e h => by cases h

theorem covered_element (sym : Symbol) (index : Word) : Covered (element sym index : Eval W ℕ) := by
  unfold element
  split_ifs
  · exact covered_abort _
  · exact .pure _

theorem covered_binaryWord {o : BinaryOp} (ho : o ≠ .land) (ho' : o ≠ .lor) (a b : Word) : Covered (binaryWord o a b : Eval W Word) := by
  cases o with
  | land => exact absurd rfl ho
  | lor => exact absurd rfl ho'
  | div | mod | shl | shr =>
    rw [binaryWord]
    split_ifs
    · exact covered_abort _
    · exact .pure _
  | _ => exact .pure _

theorem covered_puts (io : ProgramIO W) (text : String) : Covered (puts io text) := by
  intro e h
  unfold puts at h
  split at h <;> cases h

theorem covered_evalAll {ms : List (Eval W Word)} (h : ∀ m ∈ ms, Covered m) : Covered (evalAll ms) := by
  induction ms with
  | nil => exact .pure _
  | cons m ms ih =>
    refine (h m List.mem_cons_self).andThen fun v => ?_
    exact (ih fun m hm => h m (List.mem_cons_of_mem _ hm)).andThen fun vs => .pure _

theorem length_evalAll {ms : List (Eval W Word)} {e e' : Env W} {vs : List Word} (h : evalAll ms e = .ok (vs, e')) :
    vs.length = ms.length := by
  induction ms generalizing e vs with
  | nil =>
    cases h
    rfl
  | cons m ms ih =>
    obtain ⟨v, e₁, -, h⟩ := bind_ok.mp h
    obtain ⟨vs', e₂, hvs, h⟩ := bind_ok.mp h
    cases h
    rw [List.length_cons, ih hvs, List.length_cons]

end Covered

section Expressions

variable {W : Type} {fns : List TFunction} {call : Calls W}

/-- A function is called with the words it takes. -/
def CallsCovered (fns : List TFunction) (call : Calls W) : Prop :=
  ∀ (opName : String) (i : ℕ) (fn : TFunction) (args : List Word) (w : W), fns[i]? = some fn → fn.takes args = true →
    call opName i args w ≠ .error .outside

theorem takes_replicate (fn : TFunction) (args : List Word) : fn.takes (List.replicate args.length 0) = fn.takes args := by
  simp [TFunction.takes]

theorem covered_callWith (hcall : CallsCovered fns call) {target : TypeName} {args : List Word}
    (h : takesWords fns target args.length = true) :
    ∃ i, (fns.map TFunction.name).idxOf? target = some i ∧ Covered (callWith call "CALL" i args) := by
  unfold takesWords at h
  split at h
  · cases h
  · next i hi =>
    refine ⟨i, hi, fun e hout => ?_⟩
    obtain ⟨fn, hfn, htakes⟩ := (Option.any_eq_true _ _).mp h
    rw [takes_replicate] at htakes
    have hinside := hcall "CALL" i fn args e.io hfn htakes
    unfold callWith at hout
    cases hr : call "CALL" i args e.io with
    | error x =>
      rw [hr] at hout hinside
      exact hinside (congrArg Except.error (Except.error.inj hout))
    | ok r =>
      rw [hr] at hout
      cases hout

theorem covered_evalCall (hcall : CallsCovered fns call) {callee : String} {target : TypeName} {args : List TExpr} {ws : List Bool}
    {values : List (Eval W Word)} (h : callWords fns callee target args ws = true)
    (hlen : values.length = args.length) (hvalues : List.Forall₂ (fun w m => w = true → Covered m) ws values) :
    Covered (evalCall (fns.map TFunction.name) call callee target args values) := by
  have hall (hws : ws.all id = true) : ∀ m ∈ values, Covered m := by
    clear h hlen
    induction hvalues with
    | nil => simp
    | cons hm _ ih =>
      simp only [List.all_cons, Bool.and_eq_true, id_eq] at hws
      exact List.forall_mem_cons.mpr ⟨hm hws.1, ih hws.2⟩
  unfold evalCall
  unfold callWords at h
  split_ifs at h ⊢ with hlow hcmp
  · split at h
    · next apos sym el ev _ length value =>
      rcases hvalues with _ | ⟨-, _ | ⟨hl, _ | ⟨hv, _ | _⟩⟩⟩
      simp only [Bool.and_eq_true] at h
      exact (hl h.1).andThen fun n => (hv h.2).andThen fun v => (covered_element _ _).andThen fun k => (covered_writeVar _ _ _).andThen fun _ => .pure _
    · next apos sym el _ length =>
      rcases hvalues with _ | ⟨-, _ | ⟨hl, _ | _⟩⟩
      exact (hl h).andThen fun n => (covered_element _ _).andThen fun k => covered_readVar _ _
    · next em ex ey mask x y =>
      rcases hvalues with _ | ⟨hm, _ | ⟨hx, _ | ⟨hy, _ | _⟩⟩⟩
      simp only [Bool.and_eq_true] at h
      exact (hx h.1.2).andThen fun a => (hy h.2).andThen fun b => (hm h.1.1).andThen fun m => (hy h.2).andThen fun c => .pure _
    · cases h
  · simp only [Bool.and_eq_true, decide_eq_true_eq] at h
    refine (covered_evalAll (hall h.2)).bind fun vs e e' hvs => ?_
    have hvs := length_evalAll hvs
    obtain ⟨a, b, rfl⟩ : ∃ a b, vs = [a, b] := List.length_eq_two.mp (hvs.trans (hlen.trans h.1))
    exact .pure _
  · simp_all
  · simp only [Bool.and_eq_true] at h
    obtain ⟨⟨-, htakes⟩, hws⟩ := h
    cases hi : (fns.map TFunction.name).idxOf? target with
    | none =>
      unfold takesWords at htakes
      rw [hi] at htakes
      cases htakes
    | some i =>
      refine (covered_evalAll (hall hws)).bind fun vs e e' hvs => ?_
      rw [← hlen, ← length_evalAll hvs] at htakes
      obtain ⟨i', hi', hinside⟩ := covered_callWith hcall htakes
      obtain rfl := Option.some.inj (hi.symm.trans hi')
      exact hinside

theorem length_evalEach (names : List TypeName) (es : List TExpr) : (evalEach names call es).length = es.length := by
  induction es with
  | nil => rfl
  | cons e es ih => rw [evalEach, List.length_cons, ih, List.length_cons]

theorem words_binary {left right : TExpr} {o : BinaryOp} {pos : Pos} {type : Ty} (ho : o ≠ .land) (ho' : o ≠ .lor) :
    (TExpr.binary pos left o right type).words fns =
      (left.type ≠ .float && left.type ≠ .str && left.words fns && right.words fns) := by
  rw [TExpr.words]
  · exact ho
  · exact ho'

theorem covered_binary {left right : TExpr} {o : BinaryOp} {pos : Pos} {type : Ty}
    (hl : left.words fns = true → Covered (evalExpr (fns.map TFunction.name) call left))
    (hr : right.words fns = true → Covered (evalExpr (fns.map TFunction.name) call right))
    (h : (TExpr.binary pos left o right type).words fns = true) :
    Covered (evalExpr (fns.map TFunction.name) call (.binary pos left o right type)) := by
  by_cases hland : o = .land
  · subst hland
    simp only [TExpr.words, Bool.and_eq_true] at h
    rw [evalExpr]
    refine (hl h.1).andThen fun a => ?_
    split_ifs
    · exact .pure _
    · exact (hr h.2).andThen fun b => .pure _
  by_cases hlor : o = .lor
  · subst hlor
    simp only [TExpr.words, Bool.and_eq_true] at h
    rw [evalExpr]
    refine (hl h.1).andThen fun a => ?_
    split_ifs
    · exact (hr h.2).andThen fun b => .pure _
    · exact .pure _
  rw [words_binary hland hlor] at h
  simp only [Bool.and_eq_true, decide_eq_true_eq] at h
  rw [evalExpr_binary hland hlor, if_neg (not_or.mpr ⟨h.1.1.1, h.1.1.2⟩)]
  exact (hl h.1.2).andThen fun a => (hr h.2).andThen fun b => covered_binaryWord hland hlor a b

mutual
/-- The evaluation covers an expression of words. -/
theorem covered_evalExpr (hcall : CallsCovered fns call) : ∀ e : TExpr, e.words fns = true → Covered (evalExpr (fns.map TFunction.name) call e)
  | .literal _ (.int _), _ | .literal _ (.bool _), _ => by
    rw [evalExpr]
    exact .pure _
  | .funcRef _ name _, h => by
    rw [TExpr.words] at h
    obtain ⟨i, hi⟩ := Option.isSome_iff_exists.mp h
    rw [evalExpr, hi]
    exact .pure _
  | .local _ sym, h => by
    rw [TExpr.words] at h
    rw [evalExpr, if_pos h]
    exact covered_readVar _ _
  | .unary _ o right type, h => by
    simp only [TExpr.words, Bool.and_eq_true, decide_eq_true_eq] at h
    rw [evalExpr, if_neg h.1]
    exact (covered_evalExpr hcall right h.2).andThen fun a => .pure _
  | .binary _ left o right _, h => covered_binary (covered_evalExpr hcall left) (covered_evalExpr hcall right) h
  | .index _ (.local _ sym) index _, h => by
    simp only [TExpr.words, Bool.and_eq_true] at h
    rw [evalExpr, if_pos h.1]
    exact (covered_evalExpr hcall index h.2).andThen fun i => (covered_element _ _).andThen fun k => covered_readVar _ _
  | .call _ callee target args _, h => by
    rw [TExpr.words] at h
    rw [evalExpr]
    exact covered_evalCall hcall h (length_evalEach _ args) (covered_evalEach hcall args)

theorem covered_evalEach (hcall : CallsCovered fns call) : ∀ es : List TExpr,
    List.Forall₂ (fun w m => w = true → Covered m) (wordsEach fns es) (evalEach (fns.map TFunction.name) call es)
  | [] => by
    rw [wordsEach, evalEach]
    exact .nil
  | e :: es => by
    rw [wordsEach, evalEach]
    exact .cons (covered_evalExpr hcall e) (covered_evalEach hcall es)
end

end Expressions

section Statements

variable {W : Type} {fns : List TFunction} {call : Calls W} {io : ProgramIO W} {turns : ℕ} {inLoop : Bool}

/-- What is covered and leaves by a loop's jumps only from a loop. -/
structure Settles (inLoop : Bool) (m : Eval W Completion) : Prop where
  covered : Covered m
  jumps : inLoop = false → ∀ e o e', m e = .ok (o, e') → o ≠ .broke ∧ o ≠ .continued

theorem Settles.pure {o : Completion} (h : inLoop = false → o ≠ .broke ∧ o ≠ .continued) :
    Settles inLoop (Pure.pure o : Eval W Completion) := by
  refine ⟨.pure o, fun hl e o' e' ho => ?_⟩
  cases ho
  exact h hl

theorem Settles.bind {α : Type} {m : Eval W α} {f : α → Eval W Completion} (h : Covered m) (hf : ∀ a, Settles inLoop (f a)) :
    Settles inLoop (m >>= f) := by
  refine ⟨h.andThen fun a => (hf a).covered, fun hl e o e' ho => ?_⟩
  obtain ⟨a, e₁, -, ho⟩ := bind_ok.mp ho
  exact (hf a).jumps hl e₁ o e' ho

theorem Settles.sequence {m rest : Eval W Completion} (h : Settles inLoop m) (hrest : Settles inLoop rest) :
    Settles inLoop (m >>= fun o => o.andThen rest) := by
  refine ⟨h.covered.andThen fun o => ?_, fun hl e o e' ho => ?_⟩
  · cases o with
    | next => exact hrest.covered
    | _ => exact .pure _
  · obtain ⟨o₁, e₁, ho₁, ho⟩ := bind_ok.mp ho
    cases o₁ with
    | next => exact hrest.jumps hl e₁ o e' ho
    | broke => exact absurd rfl (h.jumps hl e _ e₁ ho₁).1
    | continued => exact absurd rfl (h.jumps hl e _ e₁ ho₁).2
    | returned v =>
      cases ho
      simp

/-- A loop takes up the jumps of its body. -/
theorem Settles.turn {test : Eval W Word} {body rest : Eval W Completion} {step : Eval W Unit} (htest : Covered test)
    (hbody : Settles true body) (hstep : Covered step) (hrest : Settles inLoop rest) : Settles inLoop (turn test body step rest) := by
  unfold QuinLang.turn
  refine .bind htest fun t => ?_
  split_ifs
  · exact .pure fun _ => by simp
  · refine .bind hbody.covered fun o => ?_
    cases o with
    | returned v => exact .pure fun _ => by simp
    | broke => exact .pure fun _ => by simp
    | next | continued => exact .bind hstep fun _ => hrest

theorem Settles.iterate {test : Eval W Word} {body : Eval W Completion} {step : Eval W Unit} (htest : Covered test)
    (hbody : Settles true body) (hstep : Covered step) (n : ℕ) : Settles inLoop (iterate test body step n) := by
  induction n with
  | zero => exact ⟨fun e h => (by cases h), fun _ e o e' h => (by cases h)⟩
  | succ n ih => exact .turn htest hbody hstep ih

variable (hcall : CallsCovered fns call)

include hcall

theorem covered_execSimple {st : TSimple} (h : st.words fns = true) : Covered (execSimple (fns.map TFunction.name) call st) := by
  cases st with
  | assignLocal pos sym value =>
    simp only [TSimple.words, Bool.and_eq_true, decide_eq_true_eq] at h
    rw [execSimple, if_neg h.1]
    exact (covered_evalExpr hcall value h.2).andThen fun v => covered_writeVar _ _ _
  | assignElem pos targetPos array index value =>
    cases array with
    | «local» apos sym =>
      simp only [TSimple.words, Bool.and_eq_true] at h
      rw [execSimple, if_pos h.1.1]
      refine (covered_evalExpr hcall value h.2).andThen fun v => (covered_evalExpr hcall index h.1.2).andThen fun i => ?_
      exact (covered_element _ _).andThen fun k => covered_writeVar _ _ _
    | _ => cases h
  | assignField pos targetPos obj field value => cases h
  | expr pos e => exact (covered_evalExpr hcall e h).andThen fun v => .pure ()

theorem covered_execStep {step : Option TSimple} (h : step.all (TSimple.words fns) = true) :
    Covered (execStep (fns.map TFunction.name) call step) := by
  cases step with
  | none => exact .pure ()
  | some st => exact covered_execSimple hcall h

theorem covered_evalTest {cond : Option TExpr} (h : cond.all (TExpr.words fns) = true) :
    Covered (evalTest (fns.map TFunction.name) call cond) := by
  cases cond with
  | none => exact .pure 1
  | some cond => exact covered_evalExpr hcall cond h

theorem covered_execDecl {sym : Symbol} {init : Option TExpr} (h : declWords fns sym init = true) :
    Covered (execDecl (fns.map TFunction.name) call sym init) := by
  unfold execDecl
  unfold declWords at h
  by_cases harray : 0 < sym.type.arrayLength
  · rw [if_pos harray]
    exact fun e h => by cases h
  · simp only [harray, decide_false, Bool.false_or, Bool.and_eq_true, decide_eq_true_eq] at h
    rw [if_neg harray, if_neg h.1]
    cases init with
    | some value => exact (covered_evalExpr hcall value h.2).andThen fun v => covered_writeVar _ _ _
    | none =>
      dsimp only
      rw [if_neg (of_decide_eq_true h.2)]
      exact covered_writeVar _ _ _

theorem covered_printWord {value : TExpr} {ending : String} (h : printWords fns value = true) :
    Covered (printWord (fns.map TFunction.name) call io value ending) := by
  unfold printWord
  simp only [printWords, Bool.and_eq_true, decide_eq_true_eq] at h
  rw [if_neg (by tauto)]
  exact (covered_evalExpr hcall value h.2).andThen fun v => covered_puts _ _

set_option linter.unusedSectionVars false

mutual
/-- The evaluation covers a statement of words. -/
theorem execStmt_settles : ∀ (st : TStmt) {inLoop : Bool}, st.words fns inLoop = true →
    Settles inLoop (execStmt (fns.map TFunction.name) call io turns st)
  | .simple st, _, h => by
    rw [execStmt]
    exact .bind (covered_execSimple hcall h) fun _ => .pure fun _ => by simp
  | .varDecl _ sym init, _, h => by
    rw [execStmt]
    exact .bind (covered_execDecl hcall h) fun _ => .pure fun _ => by simp
  | .print _ value, _, h | .println _ value, _, h => by
    rw [execStmt]
    exact .bind (covered_printWord hcall h) fun _ => .pure fun _ => by simp
  | .return_ _ none, _, _ => by
    rw [execStmt]
    exact .pure fun _ => by simp
  | .return_ _ (some value), _, h => by
    rw [execStmt]
    exact .bind (covered_evalExpr hcall value h) fun v => .pure fun _ => by simp
  | .if_ _ cond thenBlock elseBlock, _, h => by
    simp only [TStmt.words, Bool.and_eq_true] at h
    rw [execStmt]
    refine .bind (covered_evalExpr hcall cond h.1.1) fun t => ?_
    split_ifs
    · exact execBlock_settles elseBlock h.2
    · exact execBlock_settles thenBlock h.1.2
  | .while_ _ cond body, _, h => by
    simp only [TStmt.words, Bool.and_eq_true] at h
    rw [execStmt]
    exact .iterate (covered_evalExpr hcall cond h.1) (execBlock_settles body h.2) (.pure ()) turns
  | .for_ _ none cond step body _, _, h => by
    simp only [TStmt.words, Bool.and_eq_true] at h
    rw [execStmt]
    exact .iterate (covered_evalTest hcall h.1.1) (execBlock_settles body h.2) (covered_execStep hcall h.1.2) turns
  | .for_ _ (some init) cond step body refs, _, h => by
    simp only [TStmt.words, Bool.and_eq_true, List.isEmpty_iff] at h
    rw [execStmt, if_pos h.1.1.1.1]
    exact (execStmt_settles init h.1.1.1.2).sequence
      (.iterate (covered_evalTest hcall h.1.1.2) (execBlock_settles body h.2) (covered_execStep hcall h.1.2) turns)
  | .break_ _, _, h | .continue_ _, _, h => by
    rw [TStmt.words] at h
    rw [execStmt]
    exact .pure fun hl => by simp [h] at hl
  | .block _ body, _, h => by
    rw [execStmt]
    exact execBlock_settles body h

theorem execStmts_settles : ∀ (sts : List TStmt) {inLoop : Bool}, stmtsWords fns inLoop sts = true →
    Settles inLoop (execStmts (fns.map TFunction.name) call io turns sts)
  | [], _, _ => by
    rw [execStmts]
    exact .pure fun _ => by simp
  | st :: sts, _, h => by
    simp only [stmtsWords, Bool.and_eq_true] at h
    rw [execStmts]
    exact (execStmt_settles st h.1).sequence (execStmts_settles sts h.2)

theorem execBlock_settles : ∀ (b : TBlock) {inLoop : Bool}, b.words fns inLoop = true →
    Settles inLoop (execBlock (fns.map TFunction.name) call io turns b)
  | .mk stmts refs, _, h => by
    simp only [TBlock.words, Bool.and_eq_true, List.isEmpty_iff] at h
    rw [execBlock, if_pos h.1]
    exact execStmts_settles stmts h.2
end

end Statements

section Programs

variable {W : Type} {fns : List TFunction} {io : ProgramIO W}

theorem runBody_covered {call : Calls W} {turns : ℕ} {fn : TFunction} {args : List Word} {w : W} (hcall : CallsCovered fns call)
    (h : stmtsWords fns false fn.body = true) : runBody fns io call turns fn args w ≠ .error .outside := by
  intro hout
  have hsettles : Settles false (execStmts (fns.map TFunction.name) call io turns fn.body) := execStmts_settles hcall fn.body h
  unfold runBody at hout
  cases hr : execStmts (fns.map TFunction.name) call io turns fn.body ⟨fn.entryVars args, w⟩ with
  | error x =>
    rw [hr] at hout
    exact hsettles.covered _ (hr.trans (congrArg Except.error (Except.error.inj hout)))
  | ok r =>
    rw [hr] at hout
    obtain ⟨hbroke, hcontinued⟩ := hsettles.jumps rfl _ _ _ hr
    obtain ⟨o, e⟩ := r
    cases o with
    | next | returned => cases hout
    | broke => exact hbroke rfl
    | continued => exact hcontinued rfl

theorem callsCovered (h : ofWords fns = true) (n : ℕ) : CallsCovered fns (callFunction fns io n) := by
  have hbody {i : ℕ} {fn : TFunction} (hfn : fns[i]? = some fn) : stmtsWords fns false fn.body = true :=
    List.all_eq_true.mp h fn (List.mem_iff_getElem?.mpr ⟨i, hfn⟩)
  induction n with
  | zero => exact fun opName i fn args w hfn htakes hout => by cases hout
  | succ n ih =>
    intro opName i fn args w hfn htakes
    rw [callFunction, hfn]
    dsimp only
    rw [if_pos htakes]
    exact runBody_covered ih (hbody hfn)

theorem evalMain_covered (h : ofWords fns = true) {main n : ℕ} {w : W} (hmain : main < fns.length) :
    evalMain fns io main n w ≠ .error .outside := by
  intro hout
  unfold evalMain at hout
  rw [List.getElem?_eq_getElem hmain] at hout
  have hbody : stmtsWords fns false fns[main].body = true := List.all_eq_true.mp h _ (List.getElem_mem hmain)
  have hinside : runBody fns io (callFunction fns io n) n fns[main] [] w ≠ .error .outside :=
    runBody_covered (callsCovered h n) hbody
  dsimp only at hout
  cases hr : runBody fns io (callFunction fns io n) n fns[main] [] w with
  | error x =>
    rw [hr] at hout hinside
    exact hinside (congrArg Except.error (Except.error.inj hout))
  | ok r =>
    rw [hr] at hout
    cases hout

variable (F : FloatOps) (io) in
/-- A compiled program of words exits, fails and goes on forever exactly as its evaluation
returns, faults and runs out of every fuel. -/
theorem words_determined {fuel : ℕ} {program : Program} {g : Generated} {args : List String} {w : W} {s : VM W}
    (h : compile fuel program = .ok g) (hwords : ofWords g.functions = true) (hs : VM.start g.program args w = .ok s) :
    ∃ main, g.program.funcIndex "main" = some main ∧
      (∀ c w', Exits g.program F io args w c w' ↔ ∃ n, evalMain g.functions io main n w = .ok (c, w')) ∧
      (∀ e, Faults g.program F io args w e ↔ ∃ n, evalMain g.functions io main n w = .error (.fault e)) ∧
      (RunsOn g.program F io args w ↔ ∀ n, evalMain g.functions io main n w = .error .timeout) := by
  obtain ⟨main, hmain, hexits, hfaults, hwhole⟩ := compile_correct F io h hs
  have hlt : main < g.functions.length := by
    rw [← length_compiled h]
    unfold CompiledProgram.funcIndex at hmain
    obtain ⟨f, hf, rfl⟩ := Option.map_eq_some_iff.mp hmain
    have hm := List.mem_of_getLast? hf
    exact (List.getElem?_eq_some_iff.mp (List.mem_zipIdx_iff_getElem?.mp (List.mem_filter.mp hm).1)).1
  obtain ⟨hexits', hfaults', hforever⟩ := hwhole fun n => evalMain_covered hwords hlt
  exact ⟨main, hmain, fun c w' => ⟨hexits' c w', fun ⟨n, hn⟩ => hexits n c w' hn⟩,
    fun e => ⟨hfaults' e, fun ⟨n, hn⟩ => hfaults n e hn⟩, hforever⟩

theorem squares_ofWords : (compile 1 squaresSource).toOption.map (fun g =>
    (ofWords g.functions, (VM.start g.program [] ([] : List String)).toOption.isSome)) = some (true, true) := by
  decide +kernel

theorem squares_determined : ∃ g, compile 1 squaresSource = .ok g ∧ ∀ F : FloatOps, ∃ main, g.program.funcIndex "main" = some main ∧
    (∀ c w', Exits g.program F printed [] [] c w' ↔ ∃ n, evalMain g.functions printed main n [] = .ok (c, w')) ∧
    (∀ e, Faults g.program F printed [] [] e ↔ ∃ n, evalMain g.functions printed main n [] = .error (.fault e)) ∧
    (RunsOn g.program F printed [] [] ↔ ∀ n, evalMain g.functions printed main n [] = .error .timeout) := by
  have h := squares_ofWords
  cases hg : compile 1 squaresSource with
  | error e =>
    rw [hg] at h
    cases h
  | ok g =>
    refine ⟨g, rfl, fun F => ?_⟩
    rw [hg] at h
    obtain ⟨hwords, hstart⟩ := Prod.mk.inj (Option.some.inj h)
    cases hs : VM.start g.program [] ([] : List String) with
    | error e =>
      rw [hs] at hstart
      cases hstart
    | ok s => exact words_determined printed F hg hwords hs

end Programs

end QuinLang
