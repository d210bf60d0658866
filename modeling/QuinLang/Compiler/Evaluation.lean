import QuinLang.Compiler.Placement
import QuinLang.Runtime.Interpreter
import QuinLang.Lib.Following

/-! What a checked program means where its values are words: ints, bools and functions, in
variables and in `int[N]` arrays. Arithmetic is that of 16-bit two's complement. Fuel bounds
the turns of each loop and the depth of calls; strings, floats, the heap and `vm_asm` are
outside. -/

namespace QuinLang

open Following

abbrev Word := BitVec 16

/-- The contents of the variables of a frame, each at its symbol's index, and the state of
the program's input and output. -/
structure Env (W : Type) where
  vars : ℕ → List Word
  io : W

abbrev Eval (W : Type) := StateT (Env W) (Except (Stop Fault))

/-- What a statement leads to. -/
inductive Completion
  | next
  | broke
  | continued
  | returned (value : Word)
  deriving DecidableEq

variable {W : Type}

def outside {α : Type} : Eval W α := throw .outside

def abort {α : Type} (message : String) : Eval W α := throw (.fault (.vmError message))

def boolWord (b : Bool) : Word := if b then 1 else 0

/-- A value of the type is a word the collector does not trace. -/
def Ty.isWord : Ty → Bool
  | .scalar .int | .scalar .bool | .func _ _ => true
  | _ => false

def readVar (sym : Symbol) (k : ℕ) : Eval W Word := do return ((← get).vars sym.index).getD k 0

def writeVar (sym : Symbol) (k : ℕ) (value : Word) : Eval W Unit :=
  modify fun e => { e with vars := Function.update e.vars sym.index ((e.vars sym.index).set k value) }

/-- The element an index denotes. -/
def element (sym : Symbol) (index : Word) : Eval W ℕ :=
  if index.toInt < 0 ∨ index.toInt ≥ sym.type.arrayLength then
    abort s!"Array index out of bounds: index={index.toInt}, length={sym.type.arrayLength}"
  else return index.toNat

def unaryWord : UnaryOp → Word → Word
  | .neg, a => -a
  | .not, a => boolWord (a == 0)
  | .bitnot, a => ~~~a

def binaryWord : BinaryOp → Word → Word → Eval W Word
  | .add, a, b => return a + b
  | .sub, a, b => return a - b
  | .mul, a, b => return a * b
  | .div, a, b => if b = 0 then abort "Division by zero" else return a.sdiv b
  | .mod, a, b => if b = 0 then abort "Modulo by zero" else return a.srem b
  | .xor, a, b => return a ^^^ b
  | .and, a, b => return a &&& b
  | .or, a, b => return a ||| b
  | .shl, a, b =>
    if b.toInt < 0 ∨ b.toInt > 15 then abort s!"Shift count out of range for SHL: {b.toInt}"
    else return a <<< b.toNat
  | .shr, a, b =>
    if b.toInt < 0 ∨ b.toInt > 15 then abort s!"Shift count out of range for SHR: {b.toInt}"
    else return a.sshiftRight b.toNat
  | .eq, a, b => return boolWord (a == b)
  | .ne, a, b => return boolWord (a != b)
  | .lt, a, b => return boolWord (a.slt b)
  | .le, a, b => return boolWord (a.sle b)
  | .gt, a, b => return boolWord (b.slt a)
  | .ge, a, b => return boolWord (b.sle a)
  | .land, _, _ | .lor, _, _ => outside

/-- How a function is called: the instruction's name, the function's index and the arguments. -/
abbrev Calls (W : Type) := String → ℕ → List Word → W → Except (Stop Fault) (Word × W)

def evalAll : List (Eval W Word) → Eval W (List Word)
  | [] => return []
  | m :: ms => do
    let v ← m
    let vs ← evalAll ms
    return v :: vs

section Expressions

variable (names : List TypeName) (call : Calls W)

def callWith (opName : String) (f : ℕ) (args : List Word) : Eval W Word := fun e =>
  (call opName f args e.io).map fun r => (r.1, { e with io := r.2 })

/-- A call, with what its arguments come to. -/
def evalCall (callee : String) (target : TypeName) (args : List TExpr) (values : List (Eval W Word)) : Eval W Word :=
  if callee ∈ loweredBuiltins then
    match callee, args, values with
    | "array_push", [.local _ sym, _, _], [_, length, value] => do
      let n ← length
      let v ← value
      writeVar sym (← element sym n) v
      return n + 1
    | "array_pop", [.local _ sym, _], [_, length] => do
      let n ← length
      readVar sym (← element sym (n - 1))
    | "ct_select", [_, _, _], [mask, x, y] => do
      let a ← x
      let b ← y
      let m ← mask
      let c ← y
      return c + (a - b) * m
    | _, _, _ => outside
  else if builtinOps callee args.length = some [.cmpEq] then do
    match ← evalAll values with
    | [a, b] => return boolWord (a == b)
    | _ => outside
  else if (builtinOps callee args.length).isSome then outside
  else
    match names.idxOf? target with
    | none => outside
    | some i => do
      let vs ← evalAll values
      callWith call "CALL" i vs

mutual
def evalExpr : TExpr → Eval W Word
  | .literal _ (.int v) => return BitVec.ofInt 16 v
  | .literal _ (.bool b) => return boolWord b
  | .funcRef _ name _ =>
    match names.idxOf? name with
    | none => outside
    | some i => return BitVec.ofNat 16 i
  | .local _ sym => if sym.type.isWord then readVar sym 0 else outside
  | .unary _ o right type => if type = .float then outside else do return unaryWord o (← evalExpr right)
  | .binary _ left .land right _ => do
    let a ← evalExpr left
    if a = 0 then return 0
    else do
      let b ← evalExpr right
      return boolWord (b != 0)
  | .binary _ left .lor right _ => do
    let a ← evalExpr left
    if a = 0 then do
      let b ← evalExpr right
      return boolWord (b != 0)
    else return 1
  | .binary _ left o right _ =>
    if left.type = .float ∨ left.type = .str then outside
    else do
      let a ← evalExpr left
      let b ← evalExpr right
      binaryWord o a b
  | .index _ (.local _ sym) index _ =>
    if sym.type.isFrameArray then do
      let i ← evalExpr index
      readVar sym (← element sym i)
    else outside
  | .callLocal _ sym args _ =>
    if sym.type.isWord then do
      let vs ← evalAll (evalEach args)
      let f ← readVar sym 0
      callWith call "CALL_INDIRECT" f.toNat vs
    else outside
  | .call _ callee target args _ => evalCall names call callee target args (evalEach args)
  | _ => outside

def evalEach : List TExpr → List (Eval W Word)
  | [] => []
  | e :: es => evalExpr e :: evalEach es
end

def execSimple : TSimple → Eval W Unit
  | .assignLocal _ sym value =>
    if value.type = .float then outside else do writeVar sym 0 (← evalExpr names call value)
  | .assignElem _ _ (.local _ sym) index value =>
    if sym.type.isFrameArray then do
      let v ← evalExpr names call value
      let i ← evalExpr names call index
      writeVar sym (← element sym i) v
    else outside
  | .expr _ e => do
    let _ ← evalExpr names call e
    return ()
  | _ => outside

variable (io : ProgramIO W)

def puts (text : String) : Eval W Unit := fun e =>
  match io.write text e.io with
  | .ok w => .ok ((), { e with io := w })
  | .error x => .error (.fault (.host x))

/-- Print an int, the only word that prints as one. -/
def printWord (value : TExpr) (ending : String) : Eval W Unit :=
  if value.type = .str ∨ value.type = .bool ∨ value.type = .float then outside
  else do
    let v ← evalExpr names call value
    puts io (toString v.toInt ++ ending)

/-- A variable as its declaration leaves it. -/
def execDecl (sym : Symbol) (init : Option TExpr) : Eval W Unit :=
  if 0 < sym.type.arrayLength then
    modify fun e => { e with vars := Function.update e.vars sym.index (List.replicate sym.type.arrayLength 0) }
  else if sym.type = .float then outside
  else
    match init with
    | some value => do writeVar sym 0 (← evalExpr names call value)
    | none => if sym.type = .str then outside else writeVar sym 0 0

/-- What the body of a loop leads to, `rest` being the next turn. -/
def Completion.again (step : Eval W Unit) (rest : Eval W Completion) : Completion → Eval W Completion
  | .returned v => return .returned v
  | .broke => return .next
  | .next | .continued => do
    step
    rest

/-- A turn of a loop. -/
def turn (test : Eval W Word) (body : Eval W Completion) (step : Eval W Unit) (rest : Eval W Completion) : Eval W Completion := do
  let t ← test
  if t = 0 then return .next
  else do
    let o ← body
    o.again step rest

/-- The turns of a loop, at most so many. -/
def iterate (test : Eval W Word) (body : Eval W Completion) (step : Eval W Unit) : ℕ → Eval W Completion
  | 0 => throw .timeout
  | n + 1 => turn test body step (iterate test body step n)

/-- What comes after a statement that came to its end. -/
def Completion.andThen (rest : Eval W Completion) : Completion → Eval W Completion
  | .next => rest
  | o => return o

def evalTest : Option TExpr → Eval W Word
  | none => return 1
  | some cond => evalExpr names call cond

def execStep : Option TSimple → Eval W Unit
  | none => return ()
  | some s => execSimple names call s

variable (turns : ℕ)

mutual
def execStmt : TStmt → Eval W Completion
  | .simple s => do
    execSimple names call s
    return .next
  | .varDecl _ sym init => do
    execDecl names call sym init
    return .next
  | .print _ value => do
    printWord names call io value ""
    return .next
  | .println _ value => do
    printWord names call io value "\n"
    return .next
  | .return_ _ none => return .returned 0
  | .return_ _ (some value) => do return .returned (← evalExpr names call value)
  | .if_ _ cond thenBlock elseBlock => do
    let t ← evalExpr names call cond
    if t = 0 then execBlock elseBlock else execBlock thenBlock
  | .while_ _ cond body => iterate (evalExpr names call cond) (execBlock body) (return ()) turns
  | .for_ _ none cond step body _ => iterate (evalTest names call cond) (execBlock body) (execStep names call step) turns
  | .for_ _ (some init) cond step body refs =>
    if refs = [] then do
      let o ← execStmt init
      o.andThen (iterate (evalTest names call cond) (execBlock body) (execStep names call step) turns)
    else outside
  | .break_ _ => return .broke
  | .continue_ _ => return .continued
  | .block _ body => execBlock body
  | .vmAsm _ _ _ | .match_ _ _ _ => outside

def execStmts : List TStmt → Eval W Completion
  | [] => return .next
  | s :: ss => do
    let o ← execStmt s
    o.andThen (execStmts ss)

/-- A scope that declares references releases them at its end. -/
def execBlock : TBlock → Eval W Completion
  | .mk stmts refs => if refs = [] then execStmts stmts else outside
end

end Expressions

/-- The variables of a frame as a call finds them: the parameters, then zeros. -/
def TFunction.entryVars (fn : TFunction) (args : List Word) (i : ℕ) : List Word :=
  match args[i]? with
  | some v => [v]
  | none => (fn.frame[i]?).elim [] fun sym => List.replicate sym.type.slotWidth 0

/-- The parameters are as many words as there are arguments. -/
def TFunction.takes (fn : TFunction) (args : List Word) : Bool :=
  args.length = fn.numParams && fn.numParams ≤ fn.frame.length &&
    (fn.frame.take fn.numParams).all fun sym => sym.type.slotWidth = 1 && sym.type.arrayLength = 0

/-- What the body of a function returns; falling off its end returns 0. -/
def Completion.value : Completion × Env W → Except (Stop Fault) (Word × W)
  | (.returned v, e) => .ok (v, e.io)
  | (.next, e) => .ok (0, e.io)
  | _ => .error .outside

section Programs

variable (fns : List TFunction) (io : ProgramIO W)

def runBody (call : Calls W) (turns : ℕ) (fn : TFunction) (args : List Word) (w : W) :
    Except (Stop Fault) (Word × W) :=
  execStmts (fns.map TFunction.name) call io turns fn.body ⟨fn.entryVars args, w⟩ >>= Completion.value

/-- Calls nested no deeper than the fuel. -/
def callFunction : ℕ → Calls W
  | 0, _, _, _, _ => .error .timeout
  | n + 1, opName, f, args, w =>
    match fns[f]? with
    | none => .error (.fault (.vmError s!"{opName} to invalid function index {f}"))
    | some fn => if fn.takes args then runBody fns io (callFunction n) n fn args w else .error .outside

/-- The exit code of a program whose `main` is the function of the index. -/
def evalMain (main n : ℕ) (w : W) : Except (Stop Fault) (ℤ × W) :=
  match fns[main]? with
  | none => .error .outside
  | some fn => (runBody fns io (callFunction fns io n) n fn [] w).map fun r => (r.1.toInt, r.2)

end Programs

end QuinLang
