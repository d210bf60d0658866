import QuinLang.Compiler.Asm
import QuinLang.Compiler.Sema

/-! Lowering the checked tree to bytecode. Code is emitted for the pc it will stand at,
so a forward jump is known as soon as the code it jumps over is; jumps out of a loop
body or a match arm are filled in when the loop or the match ends. -/

namespace QuinLang

def MAX_TYPE_ID : ℕ := 0xFFFF

structure GenState where
  /-- the interned literals, by id -/
  strings : List String := []
  /-- the calls of `mark`, in order -/
  marks : List (ℕ × Pos) := []

abbrev Gen := StateT GenState (Except String)

def genError {α : Type} (pos : Pos) (message : String) : Gen α := fun _ => codegenError pos message

/-- Intern a string literal, returning its id. -/
def addString (value : String) : Gen ℕ := fun s =>
  match s.strings.idxOf? value with
  | some sid => .ok (sid, s)
  | none => .ok (s.strings.length, { s with strings := s.strings ++ [value] })

def mark (pc : ℕ) (pos : Pos) : Gen Unit := modify fun s => { s with marks := s.marks ++ [(pc, pos)] }

/-- Emit for a node: its position is in force inside it, and the enclosing one again
after it. A synthesised node leaves the enclosing position in force. -/
def located (outer : Option Pos) (pos : Pos) (pc : ℕ) (body : Option Pos → Gen (List Site)) :
    Gen (List Site) := do
  let loc ← if pos.line ≠ 0 then do mark pc pos; pure (some pos) else pure outer
  let code ← body loc
  match outer with
  | some p => mark (pc + code.length) p
  | none => pure ()
  return code

/-- What emission reads: the types, the functions' indices and the frame. -/
structure GenContext where
  types : TypeTable
  functions : List TypeName
  layout : FunctionLayout
  ret : Ty

/-- The enclosing loop: the scopes opened inside it, innermost first, each with the
references it declares, and the variables declared around it. -/
structure LoopContext where
  scopes : List (List Symbol) := []
  live : List Symbol

def op (instr : Instruction) (σ : List Static) (live : List Symbol) : Site := ⟨.instr instr, σ, live, .plain⟩

/-- The instructions of a builtin whose arguments are emitted in order before them. -/
def builtinOps : String → ℕ → Option (List Instruction)
  | "array_len", 1 => some [.arrayLen]
  | "int_to_float", 1 => some [.fFromInt]
  | "float_to_int", 1 => some [.fToInt]
  | "float_to_str", 1 => some [.strFromFloat]
  | "load16", 1 => some [.loadIndirect]
  | "store16", 2 => some [.storeIndirect, .pushInt 0]
  | "memcpy", 3 => some [.memcpyLocals, .pushInt 0]
  | "memset", 3 => some [.memsetLocals, .pushInt 0]
  | "ct_eq", 2 => some [.cmpEq]
  | "alloc", 1 => some [.alloc]
  | "heap_load", 1 => some [.heapLoad]
  | "str_len", 1 => some [.strLen]
  | "str_char_at", 2 => some [.strCharAt]
  | "str_slice", 3 => some [.strSlice]
  | "int_to_str", 1 => some [.strFromInt]
  | "char_to_str", 1 => some [.strFromChar]
  | "panic", 1 => some [.panic, .pushInt 0]
  | "read_line", 0 => some [.readLine]
  | "argc", 0 => some [.argc]
  | "argv", 1 => some [.argv]
  | "file_read", 1 => some [.fileRead]
  | "file_write", 2 => some [.fileWrite]
  | "file_append", 2 => some [.fileAppend]
  | "file_exists", 1 => some [.fileExists]
  | "file_delete", 1 => some [.fileDelete]
  | "file_error", 0 => some [.fileError]
  | "file_read_bytes", 1 => some [.fileReadBytes]
  | "file_write_bytes", 2 => some [.fileWriteBytes]
  | "gc", 0 => some [.gc, .pushInt 0]
  | "heap_store", 2 => some [.heapStore, .pushInt 0]
  | _, _ => none

/-- The sites of a builtin's instructions: the arguments are on the stack before the
first, and a second one pushes the dummy result of a void builtin. -/
def builtinSites (args : List TExpr) (σ : List Static) (live : List Symbol) : List Instruction → List Site
  | [] => []
  | i :: rest => op i (pushTypes args σ) live :: rest.map fun j => op j σ live

def comparisonOp : BinaryOp → Option Instruction
  | .eq => some .cmpEq
  | .ne => some .cmpNe
  | .lt => some .cmpLt
  | .le => some .cmpLe
  | .gt => some .cmpGt
  | .ge => some .cmpGe
  | _ => none

def binaryOp : BinaryOp → Instruction
  | .add => .add
  | .sub => .sub
  | .mul => .mul
  | .div => .div
  | .mod => .mod
  | .xor => .xor
  | .and => .and
  | .or => .or
  | .shl => .shl
  | .shr => .shr
  | .eq => .cmpEq
  | .ne => .cmpNe
  | .lt => .cmpLt
  | .le => .cmpLe
  | .gt => .cmpGt
  | .ge => .cmpGe
  | .land | .lor => .pop

def floatOp : BinaryOp → Option Instruction
  | .add => some .fadd
  | .sub => some .fsub
  | .mul => some .fmul
  | .div => some .fdiv
  | _ => none

section Emit

variable (C : GenContext) (live : List Symbol)

/-- What a two-operand operation is lowered to once both operands are there. -/
def binarySites (o : BinaryOp) (l r : Ty) (σ : List Static) : List Site :=
  let both := Static.val r :: .val l :: σ
  if o = .add ∧ l = .str then [op .strConcat both live]
  else
    match floatOp o, comparisonOp o with
    | some f, _ => if l = .float then [op f both live] else [op (binaryOp o) both live]
    | none, some c =>
      if l = .float then
        [op .fcmp both live, op (.pushInt 0) (.val .int :: σ) live,
          op c (.val .int :: .val .int :: σ) live]
      else if l = .str then
        [op .strCmp both live, op (.pushInt 0) (.val .int :: σ) live,
          op c (.val .int :: .val .int :: σ) live]
      else [op c both live]
    | none, none => [op (binaryOp o) both live]

def slotOf (pos : Pos) (sym : Symbol) : Gen LocalSlot :=
  match C.layout.slot? sym with
  | some slot => return slot
  | none => genError pos s!"Symbol '{sym.name}' has no slot in function '{C.layout.name}'"

/-- `_array_slot`. -/
def arraySlot (array : TExpr) : Gen (Symbol × LocalSlot) :=
  match array with
  | .local pos sym => do
    let slot ← slotOf C pos sym
    if slot.isArray then return (sym, slot) else genError pos s!"'{sym.name}' is not an array"
  | e => genError e.pos "Only named local arrays can be indexed"

def funcIndex (name : TypeName) : Option ℕ := C.functions.idxOf? name

/-- `_field_of`. -/
def fieldOf (pos : Pos) (objType : Ty) (field : String) : Gen StructField :=
  match objType with
  | .struct n =>
    match C.types.struct? n with
    | none => genError pos s!"'{objType}' is not a struct type"
    | some info =>
      match info.fieldNamed field with
      | none => genError pos s!"Struct '{info.name}' has no field '{field}'"
      | some fld => return fld
  | t => genError pos s!"'{t}' is not a struct type"

def loadField (fld : StructField) : Instruction :=
  if fld.type = .float then .heapLoadFieldF fld.offset else .heapLoadField fld.offset

def storeField (fld : StructField) : Instruction :=
  if fld.type = .float then .heapStoreFieldF fld.offset else .heapStoreField fld.offset

def storeSlot (t : Ty) (slot : ℕ) : Instruction := if t = .float then .storeLocalF slot else .storeLocal slot

/-- Null into the slots of references that go out of scope, leaving `live` in scope. -/
def releaseScope (layout : FunctionLayout) : List Symbol → List Site
  | [] => []
  | sym :: syms =>
    match layout.slot? sym with
    | none => releaseScope layout syms
    | some slot =>
      op (.pushInt 0) [] live :: op (.storeLocal slot.index) [.val .null] live :: releaseScope layout syms

variable (loc : Option Pos)

mutual
/-- Lower an expression for `pc`, above the entries `σ`. -/
def emitExpr (loc : Option Pos) (pc : ℕ) (σ : List Static) : TExpr → Gen (List Site)
  | .literal pos value => located loc pos pc fun _ =>
    match value with
    | .null => return [op (.pushInt 0) σ live]
    | .bool b => return [op (.pushInt (if b then 1 else 0)) σ live]
    | .int v => return [op (.pushInt (v % 65536).toNat) σ live]
    | .float bits => return [op (.pushFloat bits) σ live]
    | .str text => do return [op (.loadStr (← addString text)) σ live]
  | .funcRef pos name _ => located loc pos pc fun _ =>
    match funcIndex C name with
    | some i => return [op (.pushInt i) σ live]
    | none => genError pos s!"No index for function '{name}'"
  | .variant pos info args => located loc pos pc fun loc =>
    if info.fields = [] then return [op (.loadVariant info.typeId) σ live]
    else do
      let rest ← emitPayload loc (pc + 1) σ info [] args info.fields
      return op (.allocTyped info.typeId) σ live :: rest
  | .local pos sym => located loc pos pc fun _ => do
    let slot ← slotOf C pos sym
    if slot.isArray then
      genError pos s!"Array '{sym.name}' has no value form; index it or take its address"
    else if sym.type = .float then return [op (.loadLocalF slot.index) σ live]
    else return [op (.loadLocal slot.index) σ live]
  | .addressOfVar pos sym => located loc pos pc fun _ => do
    let slot ← slotOf C pos sym
    return [⟨.instr (.pushInt slot.index), σ, live, .address⟩]
  | .addressOfElem pos array index => located loc pos pc fun loc => do
    let (sym, slot) ← arraySlot C array
    let i ← emitExpr loc pc σ index
    return i ++ [op (.boundsCheck slot.length) (.val .int :: σ) live,
      op (.pushInt slot.index) (.index slot.length :: σ) live,
      ⟨.instr .add, .base sym :: .index slot.length :: σ, live, .address⟩]
  | .unary pos o right type => located loc pos pc fun loc => do
    let r ← emitExpr loc pc σ right
    let instr := match o with
      | .neg => if type = .float then Instruction.fneg else .neg
      | .not => .not
      | .bitnot => .bitnot
    return r ++ [op instr (.val right.type :: σ) live]
  | .binary pos left .land right _ => located loc pos pc fun loc => do
    let l ← emitExpr loc pc σ left
    let rPc := pc + l.length + 1
    let r ← emitExpr loc rPc σ right
    let falsePc := rPc + r.length + 3
    return l ++ op (.jz falsePc) (.val .bool :: σ) live :: r
      ++ [op (.jz falsePc) (.val .bool :: σ) live, op (.pushInt 1) σ live,
        op (.jmp (falsePc + 1)) (.val .bool :: σ) live, op (.pushInt 0) σ live]
  | .binary pos left .lor right _ => located loc pos pc fun loc => do
    let l ← emitExpr loc pc σ left
    let rPc := pc + l.length + 1
    let r ← emitExpr loc rPc σ right
    let truePc := rPc + r.length + 3
    return l ++ op (.jnz truePc) (.val .bool :: σ) live :: r
      ++ [op (.jnz truePc) (.val .bool :: σ) live, op (.pushInt 0) σ live,
        op (.jmp (truePc + 1)) (.val .bool :: σ) live, op (.pushInt 1) σ live]
  | .binary pos left o right _ => located loc pos pc fun loc => do
    let l ← emitExpr loc pc σ left
    let r ← emitExpr loc (pc + l.length) (.val left.type :: σ) right
    return l ++ r ++ binarySites live o left.type right.type σ
  | .index pos array index _ => located loc pos pc fun loc =>
    match array.type with
    | .array _ => do
      let a ← emitExpr loc pc σ array
      let i ← emitExpr loc (pc + a.length) (.val array.type :: σ) index
      return a ++ i ++ [op .arrayGet (.val .int :: .val array.type :: σ) live]
    | _ => do
      let (_, slot) ← arraySlot C array
      let i ← emitExpr loc pc σ index
      return i ++ [op (.boundsCheck slot.length) (.val .int :: σ) live,
        op (.loadLocalIdx slot.index) (.index slot.length :: σ) live]
  | .field pos obj field _ => located loc pos pc fun loc => do
    let fld ← fieldOf C pos obj.type field
    let o ← emitExpr loc pc σ obj
    return o ++ [op (loadField fld) (.val obj.type :: σ) live]
  | .structLit pos name fields => located loc pos pc fun loc =>
    match C.types.struct? name with
    | none => genError pos s!"Unknown struct '{name}'"
    | some info => do
      let rest ← emitInits loc (pc + 1) σ info [] fields
      return op (.allocTyped info.typeId) σ live :: rest
  | .callField pos receiver args _ => located loc pos pc fun loc => do
    let as ← emitArgs loc pc σ args
    let r ← emitExpr loc (pc + as.length) (pushTypes args σ) receiver
    return as ++ r ++ [op .callIndirect (.val receiver.type :: pushTypes args σ) live]
  | .callLocal pos sym args _ => located loc pos pc fun loc => do
    let as ← emitArgs loc pc σ args
    let slot ← slotOf C pos sym
    return as ++ [op (.loadLocal slot.index) (pushTypes args σ) live,
      op .callIndirect (.val sym.type :: pushTypes args σ) live]
  | .call pos "array_push" _ [array, length, value] _ => located loc pos pc fun loc => do
    let (_, slot) ← arraySlot C array
    let l ← emitExpr loc pc σ length
    let v ← emitExpr loc (pc + l.length + 1) (.val .int :: .val .int :: σ) value
    return l ++ op .dup (.val .int :: σ) live :: v
      ++ [op .swap (.val .int :: .val .int :: .val .int :: σ) live,
        op (.boundsCheck slot.length) (.val .int :: .val .int :: .val .int :: σ) live,
        op (.storeLocalIdx slot.index) (.index slot.length :: .val .int :: .val .int :: σ) live,
        op (.pushInt 1) (.val .int :: σ) live,
        op .add (.val .int :: .val .int :: σ) live]
  | .call pos "array_pop" _ [array, length] _ => located loc pos pc fun loc => do
    let (_, slot) ← arraySlot C array
    let l ← emitExpr loc pc σ length
    return l ++ [op (.pushInt 1) (.val .int :: σ) live,
      op .sub (.val .int :: .val .int :: σ) live,
      op (.boundsCheck slot.length) (.val .int :: σ) live,
      op (.loadLocalIdx slot.index) (.index slot.length :: σ) live]
  | .call pos "array_new" _ [length] type => located loc pos pc fun loc => do
    let l ← emitExpr loc pc σ length
    let holdsRefs := match type with
      | .array element => element.isReference
      | _ => false
    return l ++ [op (.newArray holdsRefs) (.val .int :: σ) live]
  | .call pos "ct_select" _ [mask, x, y] _ => located loc pos pc fun loc => do
    -- y + mask * (x - y), with `y` evaluated twice
    let a ← emitExpr loc pc σ x
    let b ← emitExpr loc (pc + a.length) (.val .int :: σ) y
    let m ← emitExpr loc (pc + a.length + b.length + 1) (.val .int :: σ) mask
    let c ← emitExpr loc (pc + a.length + b.length + 1 + m.length + 1) (.val .int :: σ) y
    return a ++ b ++ op .sub (.val .int :: .val .int :: σ) live :: m
      ++ op .mul (.val .int :: .val .int :: σ) live :: c
      ++ [op .add (.val .int :: .val .int :: σ) live]
  | .call pos callee target args _ => located loc pos pc fun loc =>
    match builtinOps callee args.length with
    | some instrs => do
      let as ← emitArgs loc pc σ args
      return as ++ builtinSites args σ live instrs
    | none =>
      match funcIndex C target with
      | none => genError pos s!"Call to unknown function '{target}'"
      | some i => do
        let as ← emitArgs loc pc σ args
        return as ++ [op (.call i) (pushTypes args σ) live]

/-- The arguments of a call, left to right. -/
def emitArgs (loc : Option Pos) (pc : ℕ) (σ : List Static) : List TExpr → Gen (List Site)
  | [] => return []
  | a :: as => do
    let c ← emitExpr loc pc σ a
    let cs ← emitArgs loc (pc + c.length) (.val a.type :: σ) as
    return c ++ cs

/-- The stores of a variant's payload into the object on top, `stored` of it written. -/
def emitPayload (loc : Option Pos) (pc : ℕ) (σ : List Static) (info : VariantInfo) (stored : List ℕ) :
    List TExpr → List StructField → Gen (List Site)
  | arg :: args, fld :: flds => do
    let obj := constructed info.typeId info.fields (.enum info.enumName) stored
    let c ← emitExpr loc (pc + 1) (.copy :: obj :: σ) arg
    let cs ← emitPayload loc (pc + 1 + c.length + 1) σ info (fld.offset :: stored) args flds
    return op .dup (obj :: σ) live :: c
      ++ op (storeField fld) (.val arg.type :: .copy :: obj :: σ) live :: cs
  | _, _ => return []

/-- The stores of a literal's fields, in the order written. -/
def emitInits (loc : Option Pos) (pc : ℕ) (σ : List Static) (info : StructInfo) (stored : List ℕ) :
    List TInit → Gen (List Site)
  | [] => return []
  | .mk pos name value :: inits => do
    match info.fieldNamed name with
    | none => genError pos s!"Struct '{info.name}' has no field '{name}'"
    | some fld =>
      let obj := constructed info.typeId info.fields (.struct info.name) stored
      let c ← emitExpr loc (pc + 1) (.copy :: obj :: σ) value
      let cs ← emitInits loc (pc + 1 + c.length + 1) σ info (fld.offset :: stored) inits
      return op .dup (obj :: σ) live :: c
        ++ op (storeField fld) (.val value.type :: .copy :: obj :: σ) live :: cs
end

/-- Replace a 0/1 on top by the text of a bool. -/
def emitBoolToStr (pc : ℕ) : Gen (List Site) := do
  let trueId ← addString "true"
  let falseId ← addString "false"
  return [op (.jz (pc + 3)) [.val .bool] live, op (.loadStr trueId) [] live,
    op (.jmp (pc + 4)) [.val .str] live, op (.loadStr falseId) [] live]

def printOp (newline : Bool) (t : Ty) : Instruction :=
  if t = .str ∨ t = .bool then if newline then .printlnStr else .printStr
  else if t = .float then if newline then .printlnFloat else .printFloat
  else if newline then .printlnInt else .printInt

def emitPrint (newline : Bool) (pc : ℕ) (value : TExpr) : Gen (List Site) := do
  let v ← emitExpr C live loc pc [] value
  if value.type = .bool then
    let b ← emitBoolToStr live (pc + v.length)
    return v ++ b ++ [op (printOp newline value.type) [.val .str] live]
  else return v ++ [op (printOp newline value.type) [.val value.type] live]

def emitSimpleBody (pc : ℕ) : TSimple → Gen (List Site)
  | .assignLocal pos sym value => do
    let slot ← slotOf C pos sym
    if slot.isArray then genError pos s!"Cannot assign to array '{sym.name}' as a whole"
    else
      let v ← emitExpr C live loc pc [] value
      return v ++ [op (storeSlot value.type slot.index) [.val value.type] live]
  | .assignElem _ targetPos array index value =>
    match array.type with
    | .array _ => do
      let a ← emitExpr C live loc pc [] array
      let i ← located loc targetPos (pc + a.length) fun loc =>
        emitExpr C live loc (pc + a.length) [.val array.type] index
      let v ← emitExpr C live loc (pc + a.length + i.length) [.val .int, .val array.type] value
      return a ++ i ++ v ++ [op .arraySet [.val value.type, .val .int, .val array.type] live]
    | _ => do
      let (_, slot) ← arraySlot C array
      let v ← emitExpr C live loc pc [] value
      let i ← located loc targetPos (pc + v.length) fun loc => do
        let i ← emitExpr C live loc (pc + v.length) [.val .int] index
        return i ++ [op (.boundsCheck slot.length) [.val .int, .val .int] live,
          op (.storeLocalIdx slot.index) [.index slot.length, .val .int] live]
      return v ++ i
  | .assignField _ targetPos obj field value => do
    let fld ← fieldOf C targetPos obj.type field
    let o ← emitExpr C live loc pc [] obj
    let v ← emitExpr C live loc (pc + o.length) [.val obj.type] value
    return o ++ v ++ [op (storeField fld) [.val value.type, .val obj.type] live]
  | .expr _ e => do
    let c ← emitExpr C live loc pc [] e
    return c ++ [op .pop [.val e.type] live]

def TSimple.pos : TSimple → Pos
  | .assignLocal pos _ _ | .assignElem pos _ _ _ _ | .assignField pos _ _ _ _ | .expr pos _ => pos

def emitSimple (pc : ℕ) (s : TSimple) : Gen (List Site) :=
  located loc s.pos pc fun loc => emitSimpleBody C live loc pc s

/-- The instruction that gives an uninitialised variable its first value. -/
def emitDefault (t : Ty) : Gen Instruction :=
  if t = .str then do return .loadStr (← addString "")
  else if t = .float then return .pushFloat 0
  else return .pushInt 0

/-- Null or zero into each slot of an array. -/
def zeroSlots (slot : ℕ) : ℕ → List Site
  | 0 => []
  | n + 1 => op (.pushInt 0) [] live :: op (.storeLocal slot) [.val .int] live :: zeroSlots (slot + 1) n

def emitVarDecl (pc : ℕ) (pos : Pos) (sym : Symbol) (init : Option TExpr) : Gen (List Site) := do
  let slot ← slotOf C pos sym
  if slot.isArray then return zeroSlots live slot.index slot.length
  else
    match init with
    | some value =>
      let v ← emitExpr C live loc pc [] value
      return v ++ [op (storeSlot sym.type slot.index) [.val value.type] live]
    | none =>
      let instr ← emitDefault sym.type
      return [op instr [] live, op (storeSlot sym.type slot.index) [.val sym.type] live]

/-- Copy an arm's payload into the slots of its bindings; those bound are in scope. -/
def bindPayload (typeId : ℕ) (pos : Pos) : List Symbol → List Symbol → List StructField → Gen (List Site)
  | live, sym :: syms, fld :: flds => do
    match C.layout.slot? sym with
    | none => genError pos s!"No slot for binding '{sym.name}'"
    | some slot =>
      let rest ← bindPayload typeId pos (sym :: live) syms flds
      return op .dup [.variant typeId] live
        :: op (loadField fld) [.copy, .variant typeId] live
        :: op (storeSlot fld.type slot.index) [.val fld.type, .variant typeId] live :: rest
  | _, _, _ => return []

def LoopContext.enter (refs : List Symbol) (l : LoopContext) : LoopContext := { l with scopes := refs :: l.scopes }

/-- `_emit_loop_jump`: the scopes being left release their references first. -/
def emitLoopJump (kind : String) (jump : Emitted) (loop : Option LoopContext) (pos : Pos) :
    Gen (List Site) :=
  match loop with
  | none => genError pos s!"'{kind}' outside of a loop"
  | some l =>
    return releaseScope l.live C.layout l.scopes.flatten ++ [⟨jump, [], l.live, .plain⟩]

/-- The variables declared once a statement is done. -/
def liveAfter (live : List Symbol) : TStmt → List Symbol
  | .varDecl _ sym _ => sym :: live
  | _ => live

def liveAfterAll (live : List Symbol) : List TStmt → List Symbol
  | [] => live
  | s :: ss => liveAfterAll (liveAfter live s) ss

def TStmt.pos : TStmt → Pos
  | .simple s => s.pos
  | .varDecl pos _ _ | .print pos _ | .println pos _ | .return_ pos _ | .vmAsm pos _ _ | .if_ pos _ _ _
  | .while_ pos _ _ | .for_ pos _ _ _ _ _ | .match_ pos _ _ | .break_ pos | .continue_ pos
  | .block pos _ => pos

def emitStep (live : List Symbol) (loc : Option Pos) (pc : ℕ) : Option TSimple → Gen (List Site)
  | none => return []
  | some s => emitSimple C live loc pc s

/-- The part of a `for` that is repeated: condition, body and step. -/
def emitLoop (live : List Symbol) (loc : Option Pos) (pc : ℕ) (cond : Option TExpr)
    (step : Option TSimple) (emitBody : ℕ → Gen (List Site)) : Gen (List Site) := do
  match cond with
  | some cond =>
    let c ← emitExpr C live loc pc [] cond
    let bodyPc := pc + c.length + 1
    let b ← emitBody bodyPc
    let stepPc := bodyPc + b.length
    let st ← emitStep C live loc stepPc step
    let endPc := stepPc + st.length + 1
    return c ++ op (.jz endPc) [.val .bool] live :: b.map (Site.patchLoop endPc stepPc) ++ st
      ++ [op (.jmp pc) [] live]
  | none =>
    let b ← emitBody pc
    let stepPc := pc + b.length
    let st ← emitStep C live loc stepPc step
    return b.map (Site.patchLoop (stepPc + st.length + 1) stepPc) ++ st ++ [op (.jmp pc) [] live]

mutual
/-- Lower a statement for `pc`, recording where its instructions came from. -/
def emitStmt (loop : Option LoopContext) (live : List Symbol) (loc : Option Pos) (pc : ℕ) :
    TStmt → Gen (List Site)
  | .simple s => emitSimple C live loc pc s
  | .varDecl pos sym init => located loc pos pc fun loc => emitVarDecl C live loc pc pos sym init
  | .print pos value => located loc pos pc fun loc => emitPrint C live loc false pc value
  | .println pos value => located loc pos pc fun loc => emitPrint C live loc true pc value
  | .return_ pos none => located loc pos pc fun _ =>
    return [op (.pushInt 0) [] live, op .ret [.val .void] live]
  | .return_ pos (some value) => located loc pos pc fun loc => do
    let v ← emitExpr C live loc pc [] value
    return v ++ [op .ret [.val value.type] live]
  | .vmAsm pos code visible => located loc pos pc fun _ s =>
    match emitVmAsm C.layout pos visible live code with
    | .ok code => .ok (code, s)
    | .error e => .error e
  | .if_ pos cond thenBlock elseBlock => located loc pos pc fun loc => do
    let c ← emitExpr C live loc pc [] cond
    let thenPc := pc + c.length + 1
    let t ← emitBlock loop live loc thenPc thenBlock
    let elsePc := thenPc + t.length + 1
    let e ← emitBlock loop live loc elsePc elseBlock
    return c ++ op (.jz elsePc) [.val .bool] live :: t
      ++ op (.jmp (elsePc + e.length)) [] live :: e
  | .while_ pos cond body => located loc pos pc fun loc => do
    let c ← emitExpr C live loc pc [] cond
    let bodyPc := pc + c.length + 1
    let b ← emitBlock (some { live := live }) live loc bodyPc body
    let endPc := bodyPc + b.length + 1
    return c ++ op (.jz endPc) [.val .bool] live :: b.map (Site.patchLoop endPc pc)
      ++ [op (.jmp pc) [] live]
  | .for_ pos none cond step body _ => located loc pos pc fun loc =>
    emitLoop C live loc pc cond step fun pc => emitBlock (some { live := live }) live loc pc body
  | .for_ pos (some init) cond step body refs => located loc pos pc fun loc => do
    let i ← emitStmt (loop.map (LoopContext.enter refs)) live loc pc init
    let inner := liveAfter live init
    let l ← emitLoop C inner loc (pc + i.length) cond step fun pc =>
      emitBlock (some { live := inner }) inner loc pc body
    return i ++ l ++ releaseScope live C.layout refs
  | .match_ pos subject arms => located loc pos pc fun loc => do
    let s ← emitExpr C live loc pc [] subject
    let armsPc := pc + s.length + 2
    let as ← emitArms loop live loc subject.type armsPc arms
    let restPc := armsPc + as.length + 2
    let rest ← emitCatchAll loop live loc restPc arms
    return s ++ op .dup [.val subject.type] live :: op .tagOf [.copy, .val subject.type] live
      :: as.map (Site.patchEnd (restPc + rest.length))
      ++ op .pop [.tag, .val subject.type] live :: op .pop [.val subject.type] live :: rest
  | .break_ pos => located loc pos pc fun _ => emitLoopJump C "break" .breakJump loop pos
  | .continue_ pos => located loc pos pc fun _ => emitLoopJump C "continue" .continueJump loop pos
  | .block pos body => located loc pos pc fun loc => emitBlock loop live loc pc body

def emitStmts (loop : Option LoopContext) (live : List Symbol) (loc : Option Pos) (pc : ℕ) :
    List TStmt → Gen (List Site)
  | [] => return []
  | s :: ss => do
    let c ← emitStmt loop live loc pc s
    let cs ← emitStmts loop (liveAfter live s) loc (pc + c.length) ss
    return c ++ cs

/-- `_emit_scoped_block`: the statements, then the references they declared released. -/
def emitBlock (loop : Option LoopContext) (live : List Symbol) (loc : Option Pos) (pc : ℕ) :
    TBlock → Gen (List Site)
  | .mk stmts refs => do
    let c ← emitStmts (loop.map (LoopContext.enter refs)) live loc pc stmts
    return c ++ releaseScope live C.layout refs

/-- The arms that name a variant, as a chain of compares of the tag on top. -/
def emitArms (loop : Option LoopContext) (live : List Symbol) (loc : Option Pos) (subject : Ty) (pc : ℕ) :
    List TArm → Gen (List Site)
  | [] => return []
  | .mk _ none _ _ :: arms => emitArms loop live loc subject pc arms
  | .mk pos (some v) bindings (.mk stmts refs) :: arms => do
    let σ := [Static.tag, .val subject]
    let p ← bindPayload C v.typeId pos live bindings v.fields
    let bodyPc := pc + 5 + p.length + 1
    let b ← emitStmts (loop.map (LoopContext.enter refs)) (bindings.reverse ++ live) loc bodyPc stmts
    let release := releaseScope live C.layout refs
    let nextPc := bodyPc + b.length + release.length + 1
    let rest ← emitArms loop live loc subject nextPc arms
    return [op .dup σ live, op (.pushInt v.typeId) (.copy :: σ) live,
        op .cmpEq (.lit v.typeId :: .copy :: σ) live, op (.jz nextPc) (.test v.typeId :: σ) live,
        op .pop [.tag, .variant v.typeId] live]
      ++ p ++ op .pop [.variant v.typeId] (bindings.reverse ++ live) :: b ++ release
      ++ ⟨.endJump, [], live, .plain⟩ :: rest

/-- The body of the arm that names no variant. -/
def emitCatchAll (loop : Option LoopContext) (live : List Symbol) (loc : Option Pos) (pc : ℕ) :
    List TArm → Gen (List Site)
  | [] => return []
  | .mk _ none _ (.mk stmts refs) :: _ => do
    let c ← emitStmts (loop.map (LoopContext.enter refs)) live loc pc stmts
    return c ++ releaseScope live C.layout refs
  | .mk _ (some _) _ _ :: arms => emitCatchAll loop live loc pc arms
end

end Emit

/-- `_emit_function`: the body and the fall-through epilogue. -/
def emitFunctionCode (C : GenContext) (fn : TFunction) (pc : ℕ) : Gen (List Site) := do
  let params := (fn.frame.take fn.numParams).reverse
  let body ← emitStmts C none params none pc fn.body
  return body ++ [⟨.instr (.pushInt 0), [], [], .epilogue⟩, ⟨.instr .ret, [.val .void], [], .epilogue⟩]

/-- The code of the functions from `pc` on, each with its entry. -/
def emitFunctions (types : TypeTable) (names : List TypeName) (pc : ℕ) :
    List TFunction → Gen (List (FunctionLayout × ℕ × List Site))
  | [] => return []
  | fn :: fns => do
    let layout := buildLayout fn
    let code ← emitFunctionCode ⟨types, names, layout, fn.sig.ret⟩ fn pc
    return (layout, pc, code) :: (← emitFunctions types names (pc + code.length) fns)

def duplicateFunction : List TypeName → List TFunction → Option TFunction
  | _, [] => none
  | seen, fn :: fns => if fn.name ∈ seen then some fn else duplicateFunction (fn.name :: seen) fns

/-- What a type declares to the collector. -/
def describe (typeId : ℕ) (name : String) (fields : List StructField) (isVariant : Bool) :
    ℕ × StructLayout :=
  (typeId,
    { name := name
      wordSize := wordSize fields
      refOffsets := (fields.filter fun f => f.type.isReference).map StructField.offset
      fields := fields.map fun f => ⟨f.name, f.type.name.spell, f.offset⟩
      isVariant := isVariant })

def described (types : TypeTable) : List (ℕ × StructLayout) :=
  (types.structs.map fun i => describe i.typeId i.name.spell i.fields false)
    ++ types.variants.map fun v => describe v.typeId v.name v.fields true

/-- Every layout at its type id; of two with one id the later counts. -/
def structTable (ds : List (ℕ × StructLayout)) : List (Option StructLayout) :=
  let size := (ds.map fun d => d.1 + 1).foldl max 0
  ds.foldl (fun table d => table.set d.1 (some d.2)) (List.replicate size none)

/-- A compiled program together with what code generation knew about each instruction. -/
structure Generated where
  program : CompiledProgram
  sites : List Site
  functions : List TFunction
  types : TypeTable

/-- `CodeGenVM().generate(program, ctx)`. -/
def generate (checked : CheckedProgram) : Except String Generated :=
  match duplicateFunction [] checked.functions with
  | some fn => codegenError fn.pos s!"Duplicate function '{fn.name}'"
  | none =>
    match emitFunctions checked.types (checked.functions.map TFunction.name) 0 checked.functions {} with
    | .error e => .error e
    | .ok (emitted, s) =>
      let ds := described checked.types
      let count := (ds.map fun d => d.1 + 1).foldl max 0
      if count > MAX_TYPE_ID + 1 then
        .error (s!"{count} struct and variant types, but a heap header "
          ++ s!"carries a 16-bit type id, so only {MAX_TYPE_ID + 1} fit")
      else
        let sites := emitted.flatMap fun e => e.2.2
        .ok {
          program := {
            code := sites.map Site.instruction
            functions := emitted.map fun e => e.1.info e.2.1
            strings := s.strings.zipIdx.map fun p => (p.2, p.1)
            structs := structTable ds
            sourceMap := SourceMap.build s.marks }
          sites := sites
          functions := checked.functions
          types := checked.types }

/-- Why a program does not compile. -/
inductive CompileError
  | sema (e : SemaStop)
  | codegen (message : String)
  deriving DecidableEq, Repr

def compile (fuel : ℕ) (program : Program) : Except CompileError Generated :=
  match analyze fuel program with
  | .error e => .error (.sema e)
  | .ok checked =>
    match generate checked with
    | .error e => .error (.codegen e)
    | .ok g => .ok g

end QuinLang
