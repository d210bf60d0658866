import QuinLang.Compiler.Checked

/-! Frame layout, and what code generation knows about each instruction it emits:
the static types of the operand stack before it and the variables declared by then.
The interpreter sees the instruction alone. -/

namespace QuinLang

/-- What an operand-stack entry is known to hold. -/
inductive Static
  | val (type : Ty)
  /-- an object of static type `type`, the fields at `stored` written so far -/
  | building (typeId : ℕ) (type : Ty) (stored : List ℕ)
  /-- an int inside `0..length-1` -/
  | index (length : ℕ)
  /-- the first slot of an array -/
  | base (sym : Symbol)
  /-- the type id of the object right below -/
  | tag
  /-- the entry right below, again -/
  | copy
  /-- the int itself -/
  | lit (n : ℕ)
  /-- whether the tag right below is the type id -/
  | test (typeId : ℕ)
  /-- an object with the type id -/
  | variant (typeId : ℕ)
  /-- a word of a `vm_asm` block -/
  | raw
  deriving DecidableEq

/-- What an instruction is there for, where its operands do not say. -/
inductive Role
  | plain
  /-- leaves the address a `&` expression denotes -/
  | address
  /-- of a `vm_asm` block -/
  | asm
  /-- of the fall-through after a function's body -/
  | epilogue
  deriving DecidableEq

/-- An instruction, or a jump whose target is filled in when its loop or match ends. -/
inductive Emitted
  | instr (i : Instruction)
  | breakJump
  | continueJump
  | endJump
  deriving DecidableEq

structure Site where
  emitted : Emitted
  stack : List Static
  live : List Symbol
  role : Role := .plain
  deriving DecidableEq

namespace Site

/-- A jump nothing filled in keeps the operand it was emitted with. -/
def instruction (s : Site) : Instruction :=
  match s.emitted with
  | .instr i => i
  | _ => .jmp 0

/-- `_patch_loop`. -/
def patchLoop (breakPc continuePc : ℕ) (s : Site) : Site :=
  match s.emitted with
  | .breakJump => { s with emitted := .instr (.jmp breakPc) }
  | .continueJump => { s with emitted := .instr (.jmp continuePc) }
  | _ => s

/-- The end jumps of a match, filled in with where it ends. -/
def patchEnd (endPc : ℕ) (s : Site) : Site :=
  match s.emitted with
  | .endJump => { s with emitted := .instr (.jmp endPc) }
  | _ => s

end Site

/-- A location in a frame; an array occupies `length` slots from `index` on. -/
structure LocalSlot where
  index : ℕ
  length : ℕ := 0
  deriving DecidableEq, Repr

def LocalSlot.isArray (s : LocalSlot) : Bool := 0 < s.length

/-- Slots a variable of the type occupies. -/
def Ty.slotWidth (t : Ty) : ℕ := if t.arrayLength ≠ 0 then t.arrayLength else t.wordCount

/-- The slots of the symbols of a frame, from slot `next` on. -/
def assignSlots : ℕ → List Symbol → List LocalSlot
  | _, [] => []
  | next, sym :: syms => ⟨next, sym.type.arrayLength⟩ :: assignSlots (next + sym.type.slotWidth) syms

structure FunctionLayout where
  name : TypeName
  sourceFile : String
  frame : List Symbol
  slots : List LocalSlot
  numLocals : ℕ
  numParams : ℕ
  paramWords : List ℕ
  refSlots : List ℕ
  localNames : List LocalInfo

/-- `_build_layout`: every symbol of the frame gets its own slot. -/
def buildLayout (fn : TFunction) : FunctionLayout :=
  let slots := assignSlots 0 fn.frame
  { name := fn.name
    sourceFile := fn.sourceFile
    frame := fn.frame
    slots := slots
    numLocals := (fn.frame.map fun sym => sym.type.slotWidth).sum
    numParams := fn.numParams
    paramWords := (fn.frame.take fn.numParams).map fun sym => sym.type.wordCount
    refSlots := (fn.frame.zip slots).filterMap fun p => if p.1.type.isReference then some p.2.index else none
    localNames := (fn.frame.zip slots).zipIdx.map fun p =>
      ⟨p.1.1.name, p.1.2.index, p.1.1.type.name.spell, p.1.1.type.slotWidth, p.2 < fn.numParams⟩ }

/-- The slot of a symbol of this frame. -/
def FunctionLayout.slot? (layout : FunctionLayout) (sym : Symbol) : Option LocalSlot :=
  if layout.frame[sym.index]? = some sym then layout.slots[sym.index]? else none

def FunctionLayout.info (layout : FunctionLayout) (entryPc : ℕ) : FunctionInfo :=
  { name := layout.name.spell
    entryPc := entryPc
    numLocals := layout.numLocals
    numParams := layout.numParams
    refSlots := layout.refSlots
    paramWords := layout.paramWords
    locals := layout.localNames
    sourceFile := layout.sourceFile }

/-- An object all of whose fields are stored is a value of its type. -/
def constructed (typeId : ℕ) (fields : List StructField) (type : Ty) (stored : List ℕ) : Static :=
  if fields.all fun f => f.offset ∈ stored then .val type else .building typeId type stored

/-- The stack with the values of the arguments on it, the last on top. -/
def pushTypes (args : List TExpr) (σ : List Static) : List Static :=
  args.foldl (fun σ a => .val a.type :: σ) σ

end QuinLang
