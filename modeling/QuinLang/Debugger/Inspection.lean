import QuinLang.Runtime.Interpreter

/-! How the debugger reads a suspended program: its frames, its named slots and the
values in them. -/

namespace QuinLang

/-- `SourceMap.lookup`. -/
def SourceMap.lookup (map : SourceMap) (pc : ℤ) : Option Pos :=
  ((map.markers.filter fun m => (m.1 : ℤ) ≤ pc).getLast?).map Prod.snd

namespace Debugger

def MAX_STRUCT_DEPTH : ℕ := 3
def ARRAY_PREVIEW : ℕ := 32

/-- The host's bound on nested calls. -/
def RECURSION_LIMIT : ℕ := 1000

/-- What an inspection may use of them, the program's run, the front end and the calls that
nest no deeper having taken theirs. -/
def INSPECTION_FRAMES : ℕ := RECURSION_LIMIT - 100

/-- One activation, as the debugger reports it; the innermost has depth 0. -/
structure FrameView where
  depth : ℕ
  fnIndex : ℕ
  function : String
  file : String
  pc : ℤ
  line : Option ℕ
  col : Option ℕ
  locals : List ℕ

inductive ValueKind
  | scalar
  | struct
  | variant
  | array
  deriving DecidableEq

/-- One value, described rather than rendered. -/
inductive Value
  | mk (summary typeName : String) (kind : ValueKind) (address : ℕ) (objectName : String)
    (elements : List (String × Value))

def Value.summary : Value → String
  | mk summary _ _ _ _ _ => summary

def Value.kind : Value → ValueKind
  | mk _ _ kind _ _ _ => kind

def Value.address : Value → ℕ
  | mk _ _ _ address _ _ => address

def Value.objectName : Value → String
  | mk _ _ _ _ objectName _ => objectName

def Value.elements : Value → List (String × Value)
  | mk _ _ _ _ _ elements => elements

/-- A value with nothing inside. -/
def scalar (summary typeName : String) : Value := .mk summary typeName .scalar 0 "" []

section Frames

variable {W : Type} (P : CompiledProgram)

def frameView (fnIndex : ℕ) (pc : ℤ) (slots : List ℕ) (depth : ℕ) : FrameView :=
  let pos := P.sourceMap.lookup pc
  let fn := P.functions[fnIndex]?
  { depth := depth
    fnIndex := fnIndex
    function := (fn.map FunctionInfo.name).getD s!"<function {fnIndex}>"
    file := (fn.map FunctionInfo.sourceFile).getD ""
    pc := pc
    line := pos.map Pos.line
    col := pos.map Pos.col
    locals := slots }

/-- The call stack, innermost first: a suspended caller stands at its call, one before
the pc it returns to. -/
def framesOf (s : VM W) : List FrameView :=
  let entries : List (ℕ × ℤ × List ℕ) := (s.currentFn, (s.pc : ℤ), s.locals) ::
    s.callStack.map fun frame => (frame.fnIndex, (frame.returnPc : ℤ) - 1, frame.locals)
  entries.zipIdx.map fun e => frameView P e.1.1 e.1.2.1 e.1.2.2 e.2

def localsOf (frame : FrameView) : List LocalInfo :=
  ((P.functions[frame.fnIndex]?).map FunctionInfo.locals).getD []

/-- Every slot of the frame declared with the name. -/
def lookupName (frame : FrameView) (name : String) : List LocalInfo :=
  (localsOf P frame).filter fun info => info.name = name

end Frames

section Values

variable {W : Type}

/-- `try: x except ...: other`. -/
def recover {α : Type} (caught : Fault → Bool) (other : α) (x : Exec W α) : Exec W α := fun s =>
  match x s with
  | .ok r => .ok r
  | .error e => if caught e then .ok (other, s) else .error e

def isVmError : Fault → Bool
  | .vmError _ => true
  | .host _ => false

def isIndexError (e : Fault) : Bool := e = .host "IndexError"

def isUnreadable (e : Fault) : Bool := isIndexError e || isVmError e

def slotAt (slots : List ℕ) (index : ℕ) : ℕ := slots.getD index 0

/-- `s[: s.index("[")]`, for a type name that ends in a bracket. -/
def baseName (typeName : String) : Exec W String :=
  if typeName.toList.contains '[' then return String.ofList (typeName.toList.takeWhile (· ≠ '['))
  else raise "ValueError"

/-- `"[" + ", ".join(...) + "]"`. -/
def listed (opening closing : String) (parts : List String) : String := opening ++ ", ".intercalate parts ++ closing

variable (P : CompiledProgram) (F : FloatOps)

/-- The layout of the object at `ref`, which its header names. -/
def layoutAt (ref : ℕ) : Exec W (Option StructLayout) :=
  if ref < HEADER_BYTES then return none
  else
    recover isIndexError none do
      if (← readHeap (ref - HEADER_BYTES)) % MARK_BIT ≠ KIND_STRUCT then return none
      else return (P.structs[← readHeap (ref - HEADER_BYTES + 2)]?).join

def describeFloat (bits : ℕ) (typeName : String) : Exec W Value := do
  return scalar (← formatFloat F (bitsToFloat F bits)) typeName

/-- A heap reference, read through its own header. -/
def describeObject (ref : ℕ) (typeName : String) : Exec W Value :=
  if ref = 0 then return scalar "null" typeName
  else do
    match ← layoutAt P ref with
    | none => return scalar s!"<{typeName} at {ref}>" typeName
    | some layout =>
      if layout.fields = [] then
        if layout.isVariant then return .mk layout.name typeName .scalar 0 layout.name []
        else return scalar s!"<{typeName} at {ref}>" typeName
      else if layout.isVariant then return .mk (layout.name ++ "(…)") typeName .variant ref layout.name []
      else return .mk (layout.name ++ " \x7b…\x7d") typeName .struct ref layout.name []

/-- `Array<T>` without its brackets. -/
def elementType (typeName : String) : Option String :=
  if typeName.startsWith "Array<" ∧ typeName.endsWith ">" then
    some (String.ofList ((typeName.toList.drop 6).dropLast))
  else none

/-- The field or element at `addr`, given how a word of its type is described. -/
def fieldWith (describe : ℕ → String → Exec W Value) (addr : ℕ) (typeName : String) : Exec W Value :=
  recover isUnreadable (scalar "<unreadable>" typeName) (
    if typeName = "float" then do
      let low ← readHeap addr
      let high ← readHeap (addr + 2)
      describeFloat F (low ||| high <<< 16) typeName
    else do describe (← readHeap addr) typeName)

/-- A heap array, read through its own header. -/
def describeArray (describe : ℕ → String → Exec W Value) (ref : ℕ) (typeName element : String) : Exec W Value :=
  if ref = 0 then return scalar "null" typeName
  else do
    match ← recover isUnreadable none (some <$> arrayAt ref "print") with
    | none => return scalar s!"<{typeName} at {ref}>" typeName
    | some (count, _) =>
      let shown := min count ARRAY_PREVIEW
      let elements ← (List.range shown).mapM fun i => do
        return (s!"[{i}]", ← fieldWith F describe (ref + i * 2) element)
      let more := if shown < count then s!", … {count - shown} more" else ""
      return .mk (listed "[" (more ++ "]") (elements.map fun e => e.2.summary)) typeName .array ref "" elements

/-- `frames` are those left of the host's. An element of an array is four calls further
in: `_describe_word`, `_describe_array`, its generator and `_describe_field`. -/
def describeWord : ℕ → ℕ → String → Exec W Value
  | frames + 4, w, typeName =>
    if typeName = "bool" then return scalar (if w = 0 then "false" else "true") typeName
    else if typeName = "str" then
      if w = 0 then return scalar "null" typeName
      else
        recover isUnreadable (scalar s!"<unreadable str at {w}>" typeName) do
          return scalar ("\"" ++ (← stringText w) ++ "\"") typeName
    else if typeName ∈ ["int", "heapptr", "ptr"] then return scalar (toString (toSigned w)) typeName
    else if typeName.startsWith "fn(" then
      match P.functions[w]? with
      | some fn => return scalar fn.name typeName
      | none => return scalar s!"<function {toSigned w}>" typeName
    else
      match elementType typeName with
      | none => describeObject P w typeName
      | some element => describeArray F (describeWord frames) w typeName element
  | _, _, _ => raise "RecursionError"

def describeField (frames addr : ℕ) (typeName : String) : Exec W Value :=
  fieldWith F (describeWord P F frames) addr typeName

/-- The value of a type without brackets from a slot on. -/
def describeSlot (slots : List ℕ) (slot : ℕ) (typeName : String) : Exec W Value :=
  if typeName.endsWith "]" then raise "ValueError"
  else if typeName = "float" then describeFloat F (slotAt slots slot ||| slotAt slots (slot + 1) <<< 16) typeName
  else describeWord P F INSPECTION_FRAMES (slotAt slots slot) typeName

/-- The value occupying `words` slots. -/
def describeSlots (slots : List ℕ) (slot : ℕ) (typeName : String) (words : ℕ) : Exec W Value :=
  if typeName.endsWith "]" then do
    let base ← baseName typeName
    let elements ← (List.range words).mapM fun i => do
      return (s!"[{i}]", ← describeSlot P F slots (slot + i) base)
    return .mk (listed "[" "]" (elements.map fun e => e.2.summary)) typeName .array 0 "" elements
  else describeSlot P F slots slot typeName

def describeLocal (frame : FrameView) (info : LocalInfo) : Exec W Value :=
  describeSlots P F frame.locals info.slot info.typeName info.words

/-- One level of a value, with so many frames of the host's left. -/
def childrenWithin (frames : ℕ) (value : Value) : Exec W (List (String × Value)) :=
  if value.kind = .array then return value.elements
  else if value.address = 0 then return []
  else do
    match ← layoutAt P value.address with
    | none => return []
    | some layout =>
      layout.fields.zipIdx.mapM fun (field, index) => do
        let name := if value.kind = .variant then s!"[{index}]" else field.name
        return (name, ← describeField P F frames (value.address + field.offset * 2) field.typeName)

def childrenOf (value : Value) : Exec W (List (String × Value)) := childrenWithin P F INSPECTION_FRAMES value

/-- Everything on one line; an array is not a level of nesting. A child is two calls further
in, itself and the generator that asks for it. -/
def flatten : ℕ → Value → ℕ → Exec W String
  | frames + 2, value, depth =>
    match value.kind with
    | .scalar => return value.summary
    | .array => do
      let children ← childrenWithin P F frames value
      return listed "[" "]" (← children.mapM fun c => flatten frames c.2 depth)
    | .variant =>
      if depth ≥ MAX_STRUCT_DEPTH then return s!"<{value.objectName} at {value.address}>"
      else do
        let children ← childrenWithin P F frames value
        return listed (value.objectName ++ "(") ")" (← children.mapM fun c => flatten frames c.2 (depth + 1))
    | .struct =>
      if depth ≥ MAX_STRUCT_DEPTH then return s!"<{value.objectName} at {value.address}>"
      else do
        let children ← childrenWithin P F frames value
        let rendered ← children.mapM fun c => flatten frames c.2 (depth + 1)
        return listed (value.objectName ++ " \x7b ") " \x7d"
          (children.zipWith (fun c text => c.1 ++ ": " ++ text) rendered)
  | _, _, _ => raise "RecursionError"

def formatLocal (frame : FrameView) (info : LocalInfo) : Exec W String := do
  flatten P F INSPECTION_FRAMES (← describeLocal P F frame info) 0

end Values

end Debugger

end QuinLang
