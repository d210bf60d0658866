import QuinLang.Compiler.Builtins

/-! The analyser's state, and the declaration of types: templates are instantiated
under a mangled name the first time a spelling mentions them. -/

namespace QuinLang

def EXIT_CODE_MAX : ℤ := 255
def MAX_INSTANTIATION_DEPTH : ℕ := 32
def MAX_NAME_IN_MESSAGE : ℕ := 60

def abbreviate (name : String) : String :=
  if name.length ≤ MAX_NAME_IN_MESSAGE then name
  else String.ofList (name.toList.take MAX_NAME_IN_MESSAGE) ++ "..."

/-- A rejected program and, inside an instance, the chain of instantiations that
reached it. -/
structure SemanticError where
  message : String
  pos : Pos := {}
  notes : List String := []
  deriving DecidableEq, Repr

/-- How an analysis can fail to produce a checked program. Instantiation need not
terminate, so it runs on fuel. -/
inductive SemaStop
  | error (e : SemanticError)
  | keyError
  | outOfFuel
  deriving DecidableEq, Repr

/-- Scopes, innermost first; each maps the names it declares. -/
abbrev Scope := List (List (String × Symbol))

def Scope.resolve (scope : Scope) (name : String) : Option Symbol :=
  scope.findSome? fun vars => vars.lookup name

/-- Every name visible; a lookup finds the innermost binding. -/
def Scope.visible (scope : Scope) : List (String × Symbol) := scope.flatten

structure SemaState where
  types : TypeTable := {}
  functions : List FunctionSig := []
  genericFunctions : List Function := []
  genericStructs : List StructDef := []
  genericEnums : List EnumDef := []
  functionsToEmit : List TFunction := []
  warnings : List Diagnostic := []
  /-- symbols of the function being analyzed, in frame order -/
  frame : List Symbol := []
  loopDepth : ℕ := 0
  currentFunction : TypeName := .named ""
  currentFile : String := ""
  /-- instances and wrappers waiting to be analyzed, each with its name and the chain
  that reached it -/
  pending : List (TypeName × Function × List String) := []
  chain : List String := []
  wrapped : List String := []

namespace SemaState

def function? (s : SemaState) (name : TypeName) : Option FunctionSig :=
  s.functions.find? fun sig => sig.name = name

def genericFunction? (s : SemaState) (name : String) : Option Function :=
  s.genericFunctions.find? fun f => f.name = name

def genericStruct? (s : SemaState) (name : String) : Option StructDef :=
  s.genericStructs.find? fun d => d.name = name

def genericEnum? (s : SemaState) (name : String) : Option EnumDef :=
  s.genericEnums.find? fun d => d.name = name

def addStruct (s : SemaState) (info : StructInfo) : SemaState :=
  { s with types := { s.types with structs := s.types.structs ++ [info] } }

def setStructFields (s : SemaState) (name : TypeName) (fields : List StructField) : SemaState :=
  { s with types := { s.types with structs := s.types.structs.map fun i =>
      if i.name = name then { i with fields := fields } else i } }

def addEnum (s : SemaState) (name : TypeName) : SemaState :=
  { s with types := { s.types with enums := s.types.enums ++ [⟨name, []⟩] } }

def modifyEnum (s : SemaState) (name : TypeName) (f : List VariantInfo → List VariantInfo) : SemaState :=
  { s with types := { s.types with enums := s.types.enums.map fun i =>
      if i.name = name then { i with variants := f i.variants } else i } }

/-- Register the next variant of an enum under the next free type id. -/
def addVariant (s : SemaState) (enumName : TypeName) (shortName : String) (index : ℕ) : SemaState :=
  s.modifyEnum enumName fun vs => vs ++ [⟨enumName, shortName, s.types.nextTypeId, index, []⟩]

def setVariantFields (s : SemaState) (enumName : TypeName) (index : ℕ) (fields : List StructField) :
    SemaState :=
  s.modifyEnum enumName fun vs => vs.map fun v => if v.index = index then { v with fields := fields } else v

end SemaState

abbrev Sema := StateT SemaState (Except SemaStop)

/-- Reject the program, without the instantiation chain. -/
def reject {α : Type} (message : String) (pos : Pos) : Sema α := throw (.error ⟨message, pos, []⟩)

/-- Reject the program, with the chain in force. -/
def rejectNoted {α : Type} (message : String) (pos : Pos) : Sema α := do
  throw (.error ⟨message, pos, (← get).chain⟩)

/-- Reject the program unless `ok`. -/
def require (ok : Bool) (message : String) (pos : Pos) : Sema Unit :=
  if ok then return () else reject message pos

def requireNoted (ok : Bool) (message : String) (pos : Pos) : Sema Unit :=
  if ok then return () else rejectNoted message pos

/-- Declare a variable in the innermost scope and give it the next place in the frame. -/
def declare (scope : Scope) (name : String) (type : Ty) (pos : Pos) : Sema (Symbol × Scope) := do
  let vars := scope.headD []
  require (vars.lookup name).isNone s!"Redeclaration of variable '{name}'" pos
  let s ← get
  let sym : Symbol := ⟨name, type, s.frame.length⟩
  set { s with frame := s.frame ++ [sym] }
  return (sym, (vars ++ [(name, sym)]) :: scope.tail)

def templateArity (typeParams : List String) (base : String) (args : List TypeName) (pos : Pos) :
    Sema Unit :=
  requireNoted (args.length = typeParams.length)
    s!"'{base}' takes {typeParams.length} type argument(s), got {args.length}" pos

def checkDepth (mangled : TypeName) (pos : Pos) : Sema Unit := do
  requireNoted ((← get).chain.length / 2 < MAX_INSTANTIATION_DEPTH)
    (s!"Instantiation of '{abbreviate mangled.spell}' is more than "
      ++ s!"{MAX_INSTANTIATION_DEPTH} deep; a template that instantiates "
      ++ "itself at a larger type each time never finishes") pos

section Declaring

/-- How a type spelling is resolved: instantiate what it names, then read it. -/
def resolveTypeWith (ensure : TypeName → Pos → Sema Unit) (name : TypeName) (pos : Pos) : Sema Ty := do
  ensure name pos
  match typeFromName (← get).types name with
  | .ok t => return t
  | .error message => rejectNoted message pos

variable (resolve : TypeName → Pos → Sema Ty)

/-- The declared fields of a struct, from word `offset` on. -/
def structFields (owner : TypeName) : List String → ℕ → List FieldDef → Sema (List StructField)
  | _, _, [] => return []
  | seen, offset, f :: fs => do
    requireNoted (f.name ∉ seen) s!"Duplicate field '{f.name}' in struct '{owner}'" f.pos
    let t ← resolve f.typeName f.pos
    requireNoted (!t.isFrameArray) (s!"Field '{f.name}' cannot be an array; arrays live in a frame, "
      ++ "not in a heap object") f.pos
    requireNoted (t ≠ .void) s!"Field '{f.name}' cannot have type void" f.pos
    let rest ← structFields owner (f.name :: seen) (offset + t.wordCount) fs
    return ⟨f.name, t, offset⟩ :: rest

/-- One variant's payload from `position` on; a field is named by its position. -/
def variantFields (vd : VariantDef) : ℕ → ℕ → List TypeName → Sema (List StructField)
  | _, _, [] => return []
  | position, offset, n :: ns => do
    let t ← resolve n vd.pos
    requireNoted (!t.isFrameArray) (s!"Variant '{vd.name}' cannot carry an array; arrays live "
      ++ "in a frame, not in a heap object") vd.pos
    requireNoted (t ≠ .void) s!"Variant '{vd.name}' cannot carry a void value" vd.pos
    let rest ← variantFields vd (position + 1) (offset + t.wordCount) ns
    return ⟨s!"_{position}", t, offset⟩ :: rest

/-- Resolve the payloads of an enum's variants, in order. -/
def resolvePayloads (enumName : TypeName) : ℕ → List VariantDef → Sema Unit
  | _, [] => return ()
  | index, vd :: vds => do
    let fields ← variantFields resolve vd 0 0 vd.payload
    modify fun s => s.setVariantFields enumName index fields
    resolvePayloads enumName (index + 1) vds

end Declaring

/-- Register the variants of an enum, in order. -/
def addVariants (enumName : TypeName) : ℕ → List VariantDef → Sema Unit
  | _, [] => return ()
  | index, vd :: vds => do
    modify fun s => s.addVariant enumName vd.name index
    addVariants enumName (index + 1) vds

/-- `_instantiate_type`: the template `base` at `args`, unless it exists already. -/
def instantiateTypeWith (resolve : TypeName → Pos → Sema Ty) (base : String) (args : List TypeName)
    (pos : Pos) : Sema Unit := do
  let mangled := TypeName.app base args
  let s ← get
  if (s.types.struct? mangled).isSome ∨ (s.types.enum? mangled).isSome then return ()
  else
  checkDepth mangled pos
  match s.genericStruct? base with
  | some sd =>
    templateArity sd.typeParams base args pos
    let subs := sd.typeParams.zip args
    modify fun s => s.addStruct ⟨mangled, s.types.nextTypeId, []⟩
    let fields ← structFields resolve mangled [] 0
      (sd.fields.map fun f => { f with typeName := substituteTypeName subs f.typeName })
    modify fun s => s.setStructFields mangled fields
  | none =>
    match s.genericEnum? base with
    | none => throw .keyError
    | some ed =>
      templateArity ed.typeParams base args pos
      let subs := ed.typeParams.zip args
      let variants := ed.variants.map fun v => { v with payload := substituteTypeNames subs v.payload }
      modify fun s => s.addEnum mangled
      addVariants mangled 0 variants
      resolvePayloads resolve mangled 0 variants

/-- Instantiate every template a spelling names, innermost first. -/
def ensureInstantiated : ℕ → TypeName → Pos → Sema Unit
  | fuel + 1, .app base args, pos => do
    args.forM fun a => ensureInstantiated fuel a pos
    let s ← get
    if (s.genericStruct? base).isSome ∨ (s.genericEnum? base).isSome then
      instantiateTypeWith (resolveTypeWith (ensureInstantiated fuel)) base args pos
  | fuel + 1, .fn params ret, pos => do
    params.forM fun p => ensureInstantiated fuel p pos
    ensureInstantiated fuel ret pos
  | 0, .app _ _, _ | 0, .fn _ _, _ => throw .outOfFuel
  | _, .named _, _ | _, .frameArray _, _ => return ()

def resolveType (fuel : ℕ) : TypeName → Pos → Sema Ty := resolveTypeWith (ensureInstantiated fuel)

/-- Every struct name is registered before any field is resolved. -/
def registerStruct (sd : StructDef) : Sema Unit := do
  let s ← get
  if sd.typeParams ≠ [] then
    require (s.genericStruct? sd.name).isNone s!"Redefinition of struct '{sd.name}'" sd.pos
    set { s with genericStructs := s.genericStructs ++ [sd] }
  else
    require (s.types.struct? (.named sd.name)).isNone s!"Redefinition of struct '{sd.name}'" sd.pos
    require (builtinType sd.name).isNone
      s!"Struct '{sd.name}' shadows the built-in type '{sd.name}'" sd.pos
    require (!sd.fields.isEmpty) s!"Struct '{sd.name}' must declare at least one field" sd.pos
    set (s.addStruct ⟨.named sd.name, s.types.structs.length, []⟩)

def resolveStruct (fuel : ℕ) (sd : StructDef) : Sema Unit := do
  if sd.typeParams = [] then
    let fields ← structFields (resolveType fuel) (.named sd.name) [] 0 sd.fields
    modify fun s => s.setStructFields (.named sd.name) fields

def registerStructs (fuel : ℕ) (structs : List StructDef) : Sema Unit := do
  structs.forM registerStruct
  structs.forM (resolveStruct fuel)

/-- Register a plain enum's variants, none of them twice. -/
def registerVariants (ed : EnumDef) : ℕ → List VariantDef → Sema Unit
  | _, [] => return ()
  | index, vd :: vds => do
    let s ← get
    require (s.types.variant? (.named ed.name) vd.name).isNone
      s!"Enum '{ed.name}' declares '{vd.name}' twice" vd.pos
    set (s.addVariant (.named ed.name) vd.name index)
    registerVariants ed (index + 1) vds

def registerEnum (ed : EnumDef) : Sema Unit := do
  let s ← get
  if ed.typeParams ≠ [] then
    require (s.genericEnum? ed.name).isNone s!"Redefinition of enum '{ed.name}'" ed.pos
    set { s with genericEnums := s.genericEnums ++ [ed] }
  else
    require (s.types.enum? (.named ed.name)).isNone s!"Redefinition of enum '{ed.name}'" ed.pos
    require (s.types.struct? (.named ed.name)).isNone
      s!"Enum '{ed.name}' clashes with the struct of the same name" ed.pos
    require (builtinType ed.name).isNone
      s!"Enum '{ed.name}' shadows the built-in type '{ed.name}'" ed.pos
    require (!ed.variants.isEmpty) s!"Enum '{ed.name}' must declare at least one variant" ed.pos
    set (s.addEnum (.named ed.name))
    registerVariants ed 0 ed.variants

def resolveEnum (fuel : ℕ) (ed : EnumDef) : Sema Unit := do
  if ed.typeParams = [] then resolvePayloads (resolveType fuel) (.named ed.name) 0 ed.variants

def registerEnums (fuel : ℕ) (enums : List EnumDef) : Sema Unit := do
  enums.forM registerEnum
  enums.forM (resolveEnum fuel)

end QuinLang
