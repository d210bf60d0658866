import QuinLang.Compiler.Expressions

/-! Checking statements, functions and the program. -/

namespace QuinLang

/-- Whether control never continues past a statement, as far as the check goes. -/
def isPanic : Expr → Bool
  | .call _ callee _ _ => callee == .plain "panic"
  | .receiverCall _ callee _ _ => callee == "panic"
  | _ => false

mutual
def alwaysReturns : Stmt → Bool
  | .return_ _ _ => true
  | .simple (.expr _ e) => isPanic e
  | .block _ stmts => anyReturns stmts
  | .if_ _ _ thenBlock elseBlock => !elseBlock.isEmpty && (anyReturns thenBlock && anyReturns elseBlock)
  | .match_ _ _ arms => armsReturn arms
  | _ => false

def anyReturns : List Stmt → Bool
  | [] => false
  | s :: ss => alwaysReturns s || anyReturns ss

def armsReturn : List MatchArm → Bool
  | [] => true
  | .mk _ _ _ body :: arms => anyReturns body && armsReturn arms
end

/-- The references a scope declares directly, in order. -/
def scopeRefs (scope : Scope) : List Symbol :=
  ((scope.headD []).map Prod.snd).filter fun sym => sym.type.isReference

/-- Warn when main returns a constant its exit code cannot represent. -/
def checkExitCode (value : Expr) : Sema Unit :=
  match constInt value with
  | none => return ()
  | some result =>
    if 0 ≤ result ∧ result ≤ EXIT_CODE_MAX then return ()
    else
      modify fun s => { s with warnings := s.warnings ++ [⟨s!"main returns {result}, but a process exit code carries only the "
        ++ s!"low byte, so this exits {result % 256}. Return a value in "
        ++ s!"0..{EXIT_CODE_MAX} to say what you mean.", value.pos⟩] }

/-- The variant of `info` an arm names: under its own name, or under the name the
enum was declared with. -/
def armVariant (info : EnumInfo) : Name → Option VariantInfo
  | .path enumName short =>
    match info.variants.find? fun v => v.enumName = .named enumName ∧ v.shortName = short with
    | some v => some v
    | none =>
      match info.name with
      | .app base _ => if base = enumName then info.variants.find? fun v => v.shortName = short else none
      | _ => none
  | .plain _ => none

/-- The variant an arm matches, none for the catch-all, given what the arms before
it cover. -/
def checkArm (info : EnumInfo) (covered : List String) (variant : Option Name) (bindings : List String)
    (pos : Pos) : Sema (Option VariantInfo) :=
  match variant with
  | none => return none
  | some name =>
    match armVariant info name with
    | none => do
      require (namedVariant (← get).types name).isNone s!"'{name}' is not a variant of '{info.name}'" pos
      rejectVariantName name pos
      reject s!"Enum '{info.name}' has no variant '{name}'" pos
    | some v => do
      require (v.shortName ∉ covered) s!"Variant '{name}' is matched twice" pos
      require (bindings.length = v.fields.length) (s!"Variant '{v.name}' carries {v.carries}, but the arm "
        ++ s!"binds {bindings.length} name(s)") pos
      return some v

/-- Declare the bindings of an arm in its scope. -/
def declareBindings (pos : Pos) : Scope → List String → List StructField → Sema (List Symbol × Scope)
  | scope, name :: names, fld :: flds => do
    let (sym, scope) ← declare scope name fld.type pos
    let (syms, scope) ← declareBindings pos scope names flds
    return (sym :: syms, scope)
  | scope, _, _ => return ([], scope)

def declareArm (pos : Pos) (scope : Scope) (bindings : List String) :
    Option VariantInfo → Sema (List Symbol × Scope)
  | some v => declareBindings pos ([] :: scope) bindings v.fields
  | none => return ([], [] :: scope)

/-- Whether the arms of a match leave no variant out. -/
def checkCoverage (info : EnumInfo) (covered : List String) (catchAll : Option Pos) (pos : Pos) :
    Sema Unit := do
  let missing := (info.variants.map VariantInfo.shortName).filter fun n => n ∉ covered
  let spelled := ", ".intercalate missing
  match catchAll with
  | none => require (missing = []) s!"match on '{info.name}' does not cover: {spelled}" pos
  | some p =>
    if missing = [] then
      modify fun s => { s with
        warnings := s.warnings ++ [⟨s!"'_' covers no remaining variant of '{info.name}'", p⟩] }
    else return ()

/-- The type a declaration gives its variable, from its annotation and its initialiser. -/
def declaredType (name : String) (annotated : Option Ty) (init : Option TExpr) (pos : Pos) : Sema Ty :=
  match init, annotated with
  | some v, none => do
    require (v.type ≠ .null) (s!"Cannot infer type for '{name}' from 'null'; "
      ++ "annotate it with the reference type you mean") pos
    noArrayInit v.type
  | some v, some t => do
    require (t.assignable v.type) s!"Type mismatch in initializer for '{name}': {t} vs {v.type}" pos
    noArrayInit t
  | none, some t => return t
  | none, none => reject s!"Cannot infer type for '{name}' without initializer" pos
where
  noArrayInit (t : Ty) : Sema Ty := do
    require (!t.isFrameArray) (s!"Array variable '{name}' cannot have an initializer; "
      ++ "arrays are zeroed at declaration and filled element by element") pos
    return t

section Statements

variable (fuel : ℕ) (ret : Ty)

def resolveOptional (name : Option TypeName) (pos : Pos) : Sema (Option Ty) :=
  match name with
  | none => return none
  | some n => do return some (← resolveType fuel n pos)

def analyzeOptional (scope : Scope) (expected : Option Ty) : Option Expr → Sema (Option TExpr)
  | none => return none
  | some e => do return some (← analyzeExpr fuel scope expected e)

def analyzeCondition (scope : Scope) (cond : Expr) (what : String) (pos : Pos) : Sema TExpr := do
  let c ← analyzeExpr fuel scope none cond
  require (c.type = .bool) s!"{what} condition must be bool" pos
  return c

def analyzeAssign (scope : Scope) (pos : Pos) (value : Expr) : Expr → Sema TSimple
  | .identifier targetPos name =>
    match resolveName scope name with
    | none => reject s!"Undeclared variable '{name}'" targetPos
    | some sym => do
      require (!sym.type.isFrameArray) (s!"Cannot assign to array variable '{name}' as a whole; "
        ++ "assign to its elements instead") targetPos
      let v ← analyzeExpr fuel scope (some sym.type) value
      require (sym.type.assignable v.type) s!"Cannot assign {v.type} to {sym.type} variable '{name}'" targetPos
      return .assignLocal pos sym v
  | .index targetPos array index => do
    let a ← analyzeExpr fuel scope none array
    match a.type.element? with
    | some element =>
      let i ← analyzeExpr fuel scope none index
      require (i.type = .int) "Array index must be int" targetPos
      let v ← analyzeExpr fuel scope (some element) value
      require (element.assignable v.type) s!"Cannot assign {v.type} to an element of {a.type}" pos
      return .assignElem pos targetPos a i v
    | none =>
      let length ← indexable a.type "Index target must be an int[N] array" targetPos
      let i ← analyzeExpr fuel scope none index
      checkIndex length index i targetPos
      let v ← analyzeExpr fuel scope none value
      require (v.type = .int) "Array elements must be int" pos
      return .assignElem pos targetPos a i v
  | .fieldAccess targetPos obj field => do
    let o ← analyzeExpr fuel scope none obj
    let t ← fieldType o.type field targetPos
    let v ← analyzeExpr fuel scope (some t) value
    require (t.assignable v.type) s!"Cannot assign {v.type} to field '{field}' of type {t}" targetPos
    return .assignField pos targetPos o field v
  | _ => reject "Invalid assignment target" pos

def analyzeSimple (scope : Scope) : Simple → Sema TSimple
  | .assign pos target value => analyzeAssign fuel scope pos value target
  | .expr pos e => do return .expr pos (← analyzeExpr fuel scope none e)

def analyzeForCondition (scope : Scope) (cond : Option Expr) (pos : Pos) : Sema (Option TExpr) :=
  match cond with
  | none => return none
  | some c => do return some (← analyzeCondition fuel scope c "For" pos)

def analyzeStep (scope : Scope) (step : Option Simple) : Sema (Option TSimple) :=
  match step with
  | none => return none
  | some s => do return some (← analyzeSimple fuel scope s)

def analyzePrinted (scope : Scope) (value : Expr) (pos : Pos) : Sema TExpr := do
  let v ← analyzeExpr fuel scope none value
  require (v.type = .int ∨ v.type = .str ∨ v.type = .bool ∨ v.type = .float)
    s!"print/println expect int, float, str, or bool, got {v.type}" pos
  return v

def analyzeReturn (scope : Scope) (pos : Pos) : Option Expr → Sema TStmt
  | none => do
    require (ret = .void) s!"Expected return value of type {ret}" pos
    return .return_ pos none
  | some value => do
    require (ret ≠ .void) "Void function cannot return a value" pos
    let v ← analyzeExpr fuel scope (some ret) value
    require (ret.assignable v.type) s!"Return type mismatch: expected {ret}, got {v.type}" pos
    let s ← get
    (if s.currentFunction = .named "main" ∧ ret = .int then checkExitCode value else return ())
    return .return_ pos (some v)

def enterLoop : Sema Unit := modify fun s => { s with loopDepth := s.loopDepth + 1 }

def leaveLoop : Sema Unit := modify fun s => { s with loopDepth := s.loopDepth - 1 }

/-- The arms of a match that are left, and where a catch-all stood among the others. -/
structure ArmsSeen where
  covered : List String := []
  catchAll : Option Pos := none

/-- What `_analyze_block` makes of the statements of a scope. -/
def scopeBlock (checked : List TStmt × Scope) : TBlock := .mk checked.1 (scopeRefs checked.2)

mutual
/-- Check one statement; its declarations go into the innermost scope. -/
def analyzeStmt (scope : Scope) : Stmt → Sema (TStmt × Scope)
  | .varDecl pos name typeName init => do
    let annotated ← resolveOptional fuel typeName pos
    let v ← analyzeOptional fuel scope annotated init
    let t ← declaredType name annotated v pos
    let (sym, scope) ← declare scope name t pos
    return (.varDecl pos sym v, scope)
  | .simple s => do return (.simple (← analyzeSimple fuel scope s), scope)
  | .print pos value => do return (.print pos (← analyzePrinted fuel scope value pos), scope)
  | .println pos value => do return (.println pos (← analyzePrinted fuel scope value pos), scope)
  | .return_ pos value => do return (← analyzeReturn fuel ret scope pos value, scope)
  | .if_ pos cond thenBlock elseBlock => do
    let c ← analyzeCondition fuel scope cond "If" pos
    let t ← analyzeStmts ([] :: scope) thenBlock
    let e ← analyzeStmts ([] :: scope) elseBlock
    return (.if_ pos c (scopeBlock t) (scopeBlock e), scope)
  | .match_ pos subject arms => do
    let subj ← analyzeExpr fuel scope none subject
    match subj.type.enumName? with
    | none => reject s!"match requires an enum, got {subj.type}" pos
    | some name =>
      match (← get).types.enum? name with
      | none => throw .keyError
      | some info =>
        let (as, seen) ← analyzeArms scope info {} arms
        checkCoverage info seen.covered seen.catchAll pos
        return (.match_ pos subj as, scope)
  | .while_ pos cond body => do
    let c ← analyzeCondition fuel scope cond "While" pos
    enterLoop
    let b ← analyzeStmts ([] :: scope) body
    leaveLoop
    return (.while_ pos c (scopeBlock b), scope)
  | .for_ pos none cond step body => do
    let c ← analyzeForCondition fuel ([] :: scope) cond pos
    let st ← analyzeStep fuel ([] :: scope) step
    enterLoop
    let b ← analyzeStmts ([] :: [] :: scope) body
    leaveLoop
    return (.for_ pos none c st (scopeBlock b) [], scope)
  | .for_ pos (some init) cond step body => do
    let (i, loopScope) ← analyzeStmt ([] :: scope) init
    let c ← analyzeForCondition fuel loopScope cond pos
    let st ← analyzeStep fuel loopScope step
    enterLoop
    let b ← analyzeStmts ([] :: loopScope) body
    leaveLoop
    return (.for_ pos (some i) c st (scopeBlock b) (scopeRefs loopScope), scope)
  | .block pos stmts => do return (.block pos (scopeBlock (← analyzeStmts ([] :: scope) stmts)), scope)
  | .break_ pos => do
    require ((← get).loopDepth ≠ 0) "'break' outside of a loop" pos
    return (.break_ pos, scope)
  | .continue_ pos => do
    require ((← get).loopDepth ≠ 0) "'continue' outside of a loop" pos
    return (.continue_ pos, scope)
  | .vmAsm pos code => return (.vmAsm pos code scope.visible, scope)

def analyzeStmts (scope : Scope) : List Stmt → Sema (List TStmt × Scope)
  | [] => return ([], scope)
  | s :: ss => do
    let (t, scope) ← analyzeStmt scope s
    let (ts, scope) ← analyzeStmts scope ss
    return (t :: ts, scope)

def analyzeArms (scope : Scope) (info : EnumInfo) (seen : ArmsSeen) :
    List MatchArm → Sema (List TArm × ArmsSeen)
  | [] => return ([], seen)
  | .mk pos variant bindings body :: arms => do
    let what := match variant with
      | none => "'_'"
      | some name => "'" ++ name.spell ++ "'"
    require seen.catchAll.isNone s!"Arm {what} comes after '_', so it can never match" pos
    let v ← checkArm info seen.covered variant bindings pos
    let (syms, armScope) ← declareArm pos scope bindings v
    let (ts, inner) ← analyzeStmts armScope body
    let seen := match v with
      | some v => { seen with covered := seen.covered ++ [v.shortName] }
      | none => { seen with catchAll := some pos }
    let (as, seen) ← analyzeArms scope info seen arms
    return (.mk pos v syms (.mk ts (scopeRefs inner)) :: as, seen)
end

end Statements

section Functions

variable (fuel : ℕ)

def declareParams : Scope → List Param → List Ty → Sema Scope
  | scope, p :: ps, t :: ts => do
    let (_, scope) ← declare scope p.name t p.pos
    declareParams scope ps ts
  | scope, _, _ => return scope

/-- `_analyze_function`: the checked function, ready to be emitted under `name`. -/
def analyzeFunction (name : TypeName) (fn : Function) : Sema TFunction := do
  match (← get).function? name with
  | none => throw .keyError
  | some sig =>
    modify fun s => { s with
      frame := [], loopDepth := 0, currentFunction := name, currentFile := fn.sourceFile }
    let scope ← declareParams [[]] fn.params sig.params
    let (body, _) ← analyzeStmts fuel sig.ret scope fn.body
    require (sig.ret = .void ∨ anyReturns fn.body) s!"Function '{name}' missing return statement" fn.pos
    let s ← get
    set { s with frame := [] }
    return ⟨name, sig, fn.params.length, body, s.frame, fn.sourceFile, fn.pos⟩

/-- The parameters of a declared function: what a frame cannot be handed is refused. -/
def declaredParams (fn : Function) : List Param → Sema (List Ty)
  | [] => return []
  | p :: ps => do
    let t ← resolveType fuel p.typeName p.pos
    require (!t.isFrameArray)
      (s!"Array types are not supported for parameters (parameter '{p.name}'); "
        ++ "arrays are local to the function that declares them") p.pos
    require (!t.isFrameRelative)
      (s!"'ptr' is not a parameter type (parameter '{p.name}'): it "
        ++ "indexes the frame it was taken in, so it names a "
        ++ s!"different slot in '{fn.name}'") p.pos
    return t :: (← declaredParams fn ps)

/-- Register a function's signature, or a template to instantiate later. -/
def registerFunction (fn : Function) : Sema Unit := do
  let s ← get
  if fn.typeParams ≠ [] then
    require ((s.genericFunction? fn.name).isNone && (s.function? (.named fn.name)).isNone)
      s!"Redefinition of function '{fn.name}'" fn.pos
    set { s with genericFunctions := s.genericFunctions ++ [fn] }
  else
    require (s.genericFunction? fn.name).isNone s!"Redefinition of function '{fn.name}'" fn.pos
    let params ← declaredParams fuel fn fn.params
    let ret ← resolveReturn fuel fn
    require (!ret.isFrameArray) s!"Function '{fn.name}' cannot return an array type" fn.pos
    require (!ret.isFrameRelative) (s!"Function '{fn.name}' cannot return a 'ptr': the frame it "
      ++ "indexes is gone by the time the caller has it") fn.pos
    let s ← get
    require (s.function? (.named fn.name)).isNone s!"Redefinition of function '{fn.name}'" fn.pos
    set { s with functions := s.functions ++ [FunctionSig.mk (.named fn.name) params ret false] }

def checkEntryPoint (program : Program) : Sema Unit := do
  let s ← get
  match s.genericFunction? "main" with
  | some node =>
    reject ("Entry point 'main' must not be generic: nothing calls it, so "
      ++ "nothing could say what its type parameters are") node.pos
  | none =>
    match s.function? (.named "main") with
    | none => reject "Missing entry point 'main'" {}
    | some sig =>
      let pos := ((program.functions.find? fun f => f.name = "main").map Function.pos).getD {}
      require (sig.params = []) "Entry point 'main' must not take parameters" pos
      require (sig.ret = .int ∨ sig.ret = .void)
        s!"Entry point 'main' must return int or void, got {sig.ret}" pos

def emitFunction (name : TypeName) (fn : Function) : Sema Unit := do
  let t ← analyzeFunction fuel name fn
  modify fun s => { s with functionsToEmit := s.functionsToEmit ++ [t] }

/-- `_drain_instantiations`: an error without notes of its own gets the chain. -/
def drainInstantiations : ℕ → Sema Unit
  | 0 => do
    match (← get).pending with
    | [] => return ()
    | _ => throw .outOfFuel
  | rounds + 1 => do
    match (← get).pending with
    | [] => return ()
    | (name, clone, chain) :: rest =>
      let outer := (← get).chain
      modify fun s => { s with pending := rest, chain := chain }
      withNotes chain (emitFunction fuel name clone)
      modify fun s => { s with chain := outer }
      drainInstantiations rounds
where
  withNotes (chain : List String) (m : Sema Unit) : Sema Unit := fun s =>
    match m s with
    | .error (.error e) => .error (.error (if e.notes = [] then { e with notes := chain } else e))
    | r => r

def analyzeProgram (program : Program) : Sema Unit := do
  registerStructs fuel program.structs
  registerEnums fuel program.enums
  modify fun s => { s with functions := getBuiltins }
  program.functions.forM (registerFunction fuel)
  checkEntryPoint program
  (program.functions.filter fun f => f.typeParams = []).forM fun f => emitFunction fuel (.named f.name) f
  drainInstantiations fuel fuel

/-- `SemanticAnalyzer().analyze(program)`, with `fuel` for instantiations. -/
def analyze (program : Program) : Except SemaStop CheckedProgram :=
  match analyzeProgram fuel program {} with
  | .error e => .error e
  | .ok (_, s) => .ok ⟨s.types, s.functionsToEmit, s.warnings⟩

end Functions

end QuinLang
