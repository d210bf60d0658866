import QuinLang.Compiler.Instantiate

/-! Typing expressions. An expression comes back as the checked tree it stands for;
what a table of the analyser would record about a node is in the tree. -/

namespace QuinLang

/-- The type of an arithmetic operation, or why it has none. -/
def arithmeticType (op : BinaryOp) (lt rt : Ty) : Except String Ty :=
  if op = .add ∧ lt = .str ∧ rt = .str then .ok .str
  else if op = .add ∧ (lt = .heapptr ∧ rt = .int ∨ lt = .int ∧ rt = .heapptr) then .ok .heapptr
  else if op = .sub ∧ lt = .heapptr ∧ rt = .int then .ok .heapptr
  else if op = .sub ∧ lt = .heapptr ∧ rt = .heapptr then
    .error "Cannot subtract two heapptr values; a reference cannot be converted to an int"
  else if lt = .int ∧ rt = .int then .ok .int
  else if lt = .float ∧ rt = .float then .ok .float
  else if lt = .int ∧ rt = .float ∨ lt = .float ∧ rt = .int then
    .error "Cannot mix int and float; convert explicitly with int_to_float or float_to_int"
  else .error "Arithmetic operators require int or float operands"

/-- The operators that take two ints and nothing else. -/
def intOnlyType (symbol phrase : String) (lt rt : Ty) : Except String Ty :=
  if lt = .int ∧ rt = .int then .ok .int
  else if lt = .float ∨ rt = .float then
    .error s!"'{symbol}' does not apply to float; convert with float_to_int first"
  else .error s!"{phrase} operator requires int operands"

def binaryType (op : BinaryOp) (lt rt : Ty) : Except String Ty :=
  match op with
  | .add | .sub | .mul | .div => arithmeticType op lt rt
  | .mod => intOnlyType "%" "Modulo" lt rt
  | .xor => intOnlyType "^" "Bitwise XOR" lt rt
  | .and => intOnlyType "&" "Bitwise AND" lt rt
  | .or => intOnlyType "|" "Bitwise OR" lt rt
  | .shl => intOnlyType "<<" "Left shift" lt rt
  | .shr => intOnlyType ">>" "Right shift" lt rt
  | .eq | .ne =>
    if lt.comparable rt then .ok .bool else .error "Comparison requires operands of same type"
  | .lt | .le | .gt | .ge =>
    if lt.isStruct ∨ rt.isStruct ∨ lt = .null ∨ rt = .null then
      .error "Relational operators do not apply to struct references or null"
    else if lt = rt then .ok .bool
    else .error "Comparison requires operands of same type"
  | .land | .lor =>
    if lt = .bool ∧ rt = .bool then .ok .bool else .error "Logical && and || require bool operands"

def unaryType (op : UnaryOp) (t : Ty) : Except String Ty :=
  if op = .neg ∧ t = .int then .ok .int
  else if op = .neg ∧ t = .float then .ok .float
  else if op = .not ∧ t = .bool then .ok .bool
  else if op = .bitnot ∧ t = .int then .ok .int
  else .error s!"Invalid unary op {op.spell} for type {t}"

def liftType {α : Type} (r : Except String α) (pos : Pos) : Sema α :=
  match r with
  | .ok a => return a
  | .error message => reject message pos

/-- What the elements of an `Array<T>` are. -/
def Ty.element? : Ty → Option Ty
  | array element => some element
  | _ => none

def Ty.structName? : Ty → Option TypeName
  | struct name => some name
  | _ => none

def Ty.enumName? : Ty → Option TypeName
  | enum name => some name
  | _ => none

/-- The length of an `int[N]`. -/
def frameLength (t : Ty) (message : String) (pos : Pos) : Sema ℕ := do
  require t.isFrameArray message pos
  return t.arrayLength

/-- What `_validate_index` asks of the array: an `Array<T>` has no frame address. -/
def indexable (t : Ty) (message : String) (pos : Pos) : Sema ℕ := do
  require t.element?.isNone (s!"{t} is a heap object, not a frame array: its elements "
    ++ "have no frame address to take") pos
  frameLength t message pos

/-- What `_validate_index` asks of the index. -/
def checkIndex (length : ℕ) (written : Expr) (index : TExpr) (pos : Pos) : Sema Unit := do
  require (index.type = .int) "Array index must be int" pos
  match literalInt written with
  | some i => require (0 ≤ i ∧ i < length) s!"Array index {i} out of bounds for length {length}" pos
  | none => return ()

/-- Reject a push or pop whose length is a literal that puts the access, `offset`
from it, outside the array. -/
def checkConstLength (length : ℕ) (written : Expr) (what : String) (offset : ℤ) (pos : Pos) :
    Sema Unit :=
  match literalInt written with
  | some n =>
    let idx := n + offset
    require (0 ≤ idx ∧ idx < length)
      s!"{what} at length {n} accesses index {idx}, out of bounds for length {length}" pos
  | none => return ()

def resolveName (scope : Scope) : Name → Option Symbol
  | .plain name => scope.resolve name
  | .path _ _ => none

/-- Explain a name that looks like it was meant to be a variant. -/
def rejectVariantName (name : Name) (pos : Pos) : Sema Unit := do
  let s ← get
  match name with
  | .path enumName variant =>
    if (s.types.enum? (.named enumName)).isNone ∧ (s.genericEnum? enumName).isNone then
      reject s!"No enum named '{enumName}'" pos
    else reject s!"Enum '{enumName}' has no variant '{variant}'" pos
  | .plain name =>
    let owners := s.types.variants.filter fun v => v.shortName = name
    let spelled := " or ".intercalate (owners.map fun o => "'" ++ o.name ++ "'")
    if owners ≠ [] then reject s!"'{name}' is a variant name; write {spelled}" pos

/-- The plain variant a name spells. -/
def namedVariant (t : TypeTable) : Name → Option VariantInfo
  | .path enumName variant => t.variant? (.named enumName) variant
  | .plain _ => none

/-- The template and its variant a name like `Option::Some` spells. -/
def variantTemplate (s : SemaState) : Name → Option (EnumDef × VariantDef)
  | .path base short =>
    match s.genericEnum? base with
    | none => none
    | some ed => (ed.variants.find? fun v => v.name = short).map fun vd => (ed, vd)
  | .plain _ => none

def VariantInfo.carries (info : VariantInfo) : String :=
  if info.fields = [] then "no payload" else s!"{info.fields.length} value(s)"

def variantArity (isCall : Bool) (info : VariantInfo) (given : ℕ) (pos : Pos) : Sema Unit := do
  require (!(isCall ∧ info.fields = []))
    s!"Variant '{info.name}' carries no payload; write '{info.name}' without parentheses" pos
  require (given = info.fields.length) s!"Variant '{info.name}' carries {info.carries}, got {given}" pos

/-- The payload of a variant construction against the fields, from `position` on. -/
def checkPayload (info : VariantInfo) : ℕ → List TExpr → List StructField → Sema Unit
  | position, arg :: args, fld :: flds => do
    require (fld.type.assignable arg.type)
      s!"Variant '{info.name}' expects {fld.type} at position {position}, got {arg.type}" arg.pos
    checkPayload info (position + 1) args flds
  | _, _, _ => return ()

def joinNames (missing : List String) : String :=
  "'" ++ "', '".intercalate missing ++ if missing.length = 1 then "' is" else "' are"

/-- Bind parameters by matching spellings against types pairwise; one that does not
match is left to the check of its argument. -/
def unifyAll (binders : List String) : List TypeName → List Ty → Subst → Subst
  | n :: ns, t :: ts, subs => unifyAll binders ns ts (unifyTypeName binders n t.name subs).2
  | _, _, subs => subs

def unbound (params : List String) (subs : Subst) : List String :=
  params.filter fun p => (subs.lookup p).isNone

def bound (params : List String) (subs : Subst) : List TypeName :=
  params.map fun p => (subs.lookup p).getD (.named p)

/-- What the payload and then the expected type say the type parameters are. -/
def genericVariantSubst (ed : EnumDef) (vd : VariantDef) (argTypes : List Ty)
    (expected : Option Ty) : Subst :=
  let subs := if argTypes.length = vd.payload.length then
      unifyAll ed.typeParams vd.payload argTypes [] else []
  match expected.map Ty.name with
  | some (.app base args) =>
    if base = ed.name ∧ args.length = ed.typeParams.length then subs ++ ed.typeParams.zip args else subs
  | _ => subs

/-- `chain` for what an instantiation at `pos` leads to. -/
def chainAt (s : SemaState) (mangled : TypeName) (pos : Pos) : List String :=
  let file := if s.currentFile = "" then "<input>" else s.currentFile
  s!"  in {abbreviate mangled.spell}"
    :: s!"  instantiated at {file}:{pos.line}:{pos.col}" :: s.chain

section Instances

variable (fuel : ℕ)

def resolveParams : List Param → Sema (List Ty)
  | [] => return []
  | p :: ps => do
    let t ← resolveType fuel p.typeName p.pos
    return t :: (← resolveParams ps)

def resolveReturn (f : Function) : Sema Ty :=
  match f.returnType with
  | some n => resolveType fuel n f.pos
  | none => return .void

/-- The signature of an instance, registered and queued unless it exists already. -/
def instantiateFunction (template : Function) (subs : Subst) (mangled : TypeName) (pos : Pos) :
    Sema FunctionSig := do
  match (← get).function? mangled with
  | some sig => return sig
  | none =>
    checkDepth mangled pos
    let clone := template.instantiate subs
    let outer := (← get).chain
    let chain := chainAt (← get) mangled pos
    modify fun s => { s with chain := chain }
    let params ← resolveParams fuel clone.params
    let ret ← resolveReturn fuel clone
    let sig : FunctionSig := ⟨mangled, params, ret, false⟩
    modify fun s => { s with
      chain := outer
      functions := s.functions ++ [sig]
      pending := s.pending ++ [(mangled, clone, chain)] }
    return sig

/-- The type arguments written out, resolved so that one type has one spelling. -/
def writtenSubst : List String → List TypeName → Pos → Sema Subst
  | p :: ps, n :: ns, pos => do
    let t ← resolveType fuel n pos
    return (p, t.name) :: (← writtenSubst ps ns pos)
  | _, _, _ => return []

def checkInstanceArgs (mangled : TypeName) : List TExpr → List Ty → Sema Unit
  | arg :: args, t :: ts => do
    requireNoted (t.assignable arg.type)
      s!"Argument type mismatch in '{mangled}': expected {t}, got {arg.type}" arg.pos
    checkInstanceArgs mangled args ts
  | _, _ => return ()

/-- What the arguments and then the expected type say the type parameters are. -/
def inferredSubst (template : Function) (argTypes : List Ty) (expected : Option Ty) : Subst :=
  let subs := unifyAll template.typeParams (template.params.map Param.typeName) argTypes []
  match expected with
  | some t =>
    if unbound template.typeParams subs ≠ [] then
      (unifyTypeName template.typeParams (template.returnType.getD (.named "void")) t.name subs).2
    else subs
  | none => subs

/-- The type arguments of a call, written out or inferred. -/
def callSubst (template : Function) (callee : String) (argTypes : List Ty) (typeArgs : List TypeName)
    (expected : Option Ty) (pos : Pos) : Sema Subst :=
  if typeArgs = [] then return inferredSubst template argTypes expected
  else do
    templateArity template.typeParams callee typeArgs pos
    writtenSubst fuel template.typeParams typeArgs pos

/-- A call to a generic function whose arguments are typed. -/
def analyzeGenericCall (template : Function) (callee : String) (args : List TExpr)
    (typeArgs : List TypeName) (expected : Option Ty) (pos : Pos) : Sema TExpr := do
  let params := template.typeParams
  let subs ← callSubst fuel template callee (args.map TExpr.type) typeArgs expected pos
  let missing := unbound params subs
  let spelled := ", ".intercalate params
  requireNoted (missing = []) (s!"Cannot tell what {joinNames missing} in this call to "
    ++ s!"'{callee}'; write the type arguments out, as in '{callee}::<{spelled}>(...)'") pos
  let mangled := TypeName.app callee (bound params subs)
  let sig ← instantiateFunction fuel template subs mangled pos
  checkInstanceArgs mangled args sig.params
  return .call pos callee mangled args sig.ret

/-- `Option::Some(5)` or a bare `Option::None`, the arguments typed. -/
def analyzeGenericVariant (ed : EnumDef) (vd : VariantDef) (isCall : Bool) (args : List TExpr)
    (expected : Option Ty) (pos : Pos) : Sema TExpr := do
  let subs := genericVariantSubst ed vd (args.map TExpr.type) expected
  let missing := unbound ed.typeParams subs
  let spelled := ", ".intercalate ed.typeParams
  requireNoted (missing = []) (s!"Cannot tell what {joinNames missing} in '{ed.name}::{vd.name}'; "
    ++ s!"annotate what it initialises, as in 'let x: {ed.name}<{spelled}> = ...'") pos
  let mangled := TypeName.app ed.name (bound ed.typeParams subs)
  ensureInstantiated fuel mangled pos
  match (← get).types.variant? mangled vd.name with
  | none => throw .keyError
  | some info =>
    variantArity isCall info args.length pos
    checkPayload info 0 args info.fields
    return .variant pos info args

/-- `fn name(a0, ...) { return name(a0, ...); }`. -/
def builtinWrapper (name : String) (sig : FunctionSig) (file : String) (pos : Pos) : Function :=
  let names := (List.range sig.params.length).map fun i => s!"a{i}"
  let call := Expr.call pos (.plain name) (names.map fun n => .identifier pos (.plain n)) []
  { name := name
    params := (names.zip sig.params).map fun p => ⟨p.1, p.2.name, pos⟩
    returnType := if sig.ret = .void then none else some sig.ret.name
    body := [if sig.ret = .void then .simple (.expr pos call) else .return_ pos (some call)]
    sourceFile := file
    pos := pos }

/-- A builtin named in a value position, which takes a wrapper, queued once. -/
def builtinValue (name : String) (sig : FunctionSig) (pos : Pos) : Sema TExpr := do
  requireNoted (!(sig.params.any Ty.isFrameRelative || sig.ret.isFrameRelative))
    (s!"'{name}' cannot be used as a function value: its signature "
      ++ "mentions 'ptr', which indexes the frame it was taken in and "
      ++ "names a different slot in any other") pos
  requireNoted (name ∈ valueBuiltins)
    (s!"'{name}' cannot be used as a function value: its argument "
      ++ "shapes are settled at each call site rather than by a fixed "
      ++ "signature, so there is no one function to refer to") pos
  modify fun s => if name ∈ s.wrapped then s else { s with
    wrapped := s.wrapped ++ [name]
    pending := s.pending ++ [(.named name, builtinWrapper name sig s.currentFile pos, s.chain)] }
  return .funcRef pos (.named name) (.func sig.params sig.ret)

/-- A name in a value position that is not a variable. -/
def analyzeGlobal (name : Name) (expected : Option Ty) (pos : Pos) : Sema TExpr := do
  let s ← get
  match namedVariant s.types name with
  | some info =>
    require (info.fields = []) s!"Variant '{name}' carries a payload; write '{name}(...)'" pos
    return .variant pos info []
  | none =>
  match variantTemplate s name with
  | some (ed, vd) =>
    requireNoted (vd.payload = []) s!"Variant '{name}' carries a payload; write '{name}(...)'" pos
    analyzeGenericVariant fuel ed vd false [] expected pos
  | none =>
  match name with
  | .path _ _ => do
    rejectVariantName name pos
    reject s!"Undeclared variable '{name}'" pos
  | .plain n =>
    match s.function? (.named n) with
    | some sig =>
      if sig.isBuiltin then builtinValue n sig pos
      else return .funcRef pos (.named n) (.func sig.params sig.ret)
    | none => do
      rejectVariantName name pos
      reject s!"Undeclared variable '{name}'" pos

/-- Which struct a literal builds: a bare template takes its arguments from the type
the literal has to have. -/
def structLitName (written : TypeName) (expected : Option Ty) (pos : Pos) : Sema TypeName := do
  match written with
  | .named n =>
    match (← get).genericStruct? n with
    | none => return written
    | some sd =>
      match expected.map Ty.name with
      | some (.app base args) => if base = n then return .app base args else giveUp n sd.typeParams
      | _ => giveUp n sd.typeParams
  | _ => return written
where
  giveUp (n : String) (params : List String) : Sema TypeName :=
    let spelled := ", ".intercalate params
    rejectNoted (s!"Cannot tell what {joinNames params} in this '{n}' literal; write them out, as in "
      ++ s!"'{n}::<{spelled}> \x7b ... \x7d'") pos

end Instances

def addressOfLocal (scope : Scope) (pos : Pos) (name : Name) (targetPos : Pos) : Sema TExpr :=
  match resolveName scope name with
  | none => reject s!"Undeclared variable '{name}'" targetPos
  | some sym => do
    require (!sym.type.isReference)
      (s!"Cannot take the address of '{name}': it holds a {sym.type} reference, "
        ++ "and a reference cannot be converted to an int") targetPos
    require (sym.type ≠ .float) (s!"Cannot take the address of '{name}': a float is "
      ++ "two slots wide and a ptr addresses one") targetPos
    return .addressOfVar pos sym

/-- The type of a field access. -/
def fieldType (t : Ty) (field : String) (pos : Pos) : Sema Ty := do
  let s ← get
  match t.structName? with
  | none => reject s!"Field access requires a struct value, got {t}" pos
  | some n =>
    match s.types.struct? n with
    | none => throw .keyError
    | some info =>
      match info.fieldNamed field with
      | none => reject s!"Struct '{info.name}' has no field '{field}'" pos
      | some fld => return fld.type

/-- What a call through a function value needs of its type. -/
def calleeType (t : Ty) (described : String) (given : ℕ) (pos : Pos) : Sema (List Ty × Ty) :=
  match t with
  | .func params ret =>
    if params.length = given then return (params, ret)
    else rejectNoted s!"{described} expects {params.length} args, got {given}" pos
  | _ => rejectNoted s!"{described} has type {t}, not a function" pos

section Expressions

variable (fuel : ℕ) (scope : Scope)

mutual
/-- Type one expression; `expected` is the type the surrounding context requires, where
there is one. -/
def analyzeExpr (expected : Option Ty) : Expr → Sema TExpr
  | .literal pos value => return .literal pos value
  | .identifier pos name =>
    match resolveName scope name with
    | some sym => return .local pos sym
    | none => analyzeGlobal fuel name expected pos
  | .unary pos op right => do
    let r ← analyzeExpr none right
    let t ← liftType (unaryType op r.type) pos
    return .unary pos op r t
  | .binary pos left op right => do
    let l ← analyzeExpr none left
    let r ← analyzeExpr none right
    let t ← liftType (binaryType op l.type r.type) pos
    return .binary pos l op r t
  | .index pos array index => do
    let a ← analyzeExpr none array
    match a.type.element? with
    | some element =>
      let i ← analyzeExpr none index
      require (i.type = .int) "Array index must be int" pos
      return .index pos a i element
    | none =>
      let length ← indexable a.type "Indexing requires int[N] array" pos
      let i ← analyzeExpr none index
      checkIndex length index i pos
      return .index pos a i .int
  | .addressOf pos (.identifier targetPos name) => addressOfLocal scope pos name targetPos
  | .addressOf pos (.index targetPos array index) => do
    let a ← analyzeExpr none array
    let length ← indexable a.type "Can only take address of int[N] array elements" targetPos
    let i ← analyzeExpr none index
    checkIndex length index i targetPos
    return .addressOfElem pos a i
  | .addressOf pos _ => reject "Can only take address of variables or array elements" pos
  | .fieldAccess pos obj field => do
    let o ← analyzeExpr none obj
    let t ← fieldType o.type field pos
    return .field pos o field t
  | .structLit pos written fields => do
    let name ← structLitName written expected pos
    ensureInstantiated fuel name pos
    match (← get).types.struct? name with
    | none => rejectNoted s!"Unknown struct '{name}'" pos
    | some info =>
      let inits ← analyzeInits info [] fields
      let given := inits.map TInit.name
      let missing := (info.fields.map StructField.name).filter fun n => n ∉ given
      let spelled := ", ".intercalate missing
      require (missing = []) s!"Struct literal for '{info.name}' is missing field(s): {spelled}" pos
      return .structLit pos name inits
  | .receiverCall pos callee receiver args => do
    let r ← analyzeExpr none receiver
    let (params, ret) ← calleeType r.type s!"Field '{callee}'" args.length pos
    let as ← checkArgs true pos args params
    return .callField pos r as ret
  | .call pos callee args typeArgs => do
    if callee = .plain "array_push" then
      require (args.length = 3) "array_push expects 3 arguments" pos
      let a ← analyzeArg 0 args
      let n ← frameLength a.type "array_push first argument must be int[N] array" pos
      let l ← analyzeArg 1 args
      require (l.type = .int) "array_push length must be int" pos
      let v ← analyzeArg 2 args
      require (v.type = .int) "array_push value must be int" pos
      checkConstLength n (args.getD 1 default) "array_push" 0 pos
      return .call pos "array_push" (.named "array_push") [a, l, v] .int
    else if callee = .plain "array_new" then
      require (args.length = 1) "array_new expects 1 argument" pos
      let l ← analyzeArg 0 args
      require (l.type = .int) "array_new length must be int" pos
      match expected.bind Ty.element? with
      | some element => return .call pos "array_new" (.named "array_new") [l] (.array element)
      | none => reject ("Cannot tell what array_new builds here: nothing says "
          ++ "what its elements are. Annotate what it initialises, "
          ++ "as in 'let a: Array<str> = array_new(8);'") pos
    else if callee = .plain "array_len" then
      require (args.length = 1) "array_len expects 1 argument" pos
      let a ← analyzeArg 0 args
      require a.type.element?.isSome s!"array_len expects an Array<T>, got {a.type}" pos
      return .call pos "array_len" (.named "array_len") [a] .int
    else if callee = .plain "array_pop" then
      require (args.length = 2) "array_pop expects 2 arguments" pos
      let a ← analyzeArg 0 args
      let n ← frameLength a.type "array_pop first argument must be int[N] array" pos
      let l ← analyzeArg 1 args
      require (l.type = .int) "array_pop length must be int" pos
      checkConstLength n (args.getD 1 default) "array_pop" (-1) pos
      return .call pos "array_pop" (.named "array_pop") [a, l] .int
    else
      match resolveName scope callee with
      | some sym =>
        let (params, ret) ← calleeType sym.type s!"'{callee}'" args.length pos
        let as ← checkArgs true pos args params
        return .callLocal pos sym as ret
      | none =>
        let s ← get
        match s.genericFunction? callee.spell with
        | some template =>
          requireNoted (args.length = template.params.length)
            s!"Function '{callee}' expects {template.params.length} args, got {args.length}" pos
          let as ← analyzeArgs args
          analyzeGenericCall fuel template callee.spell as typeArgs expected pos
        | none =>
        match variantTemplate s callee with
        | some (ed, vd) =>
          let as ← analyzeArgs args
          analyzeGenericVariant fuel ed vd true as expected pos
        | none =>
        requireNoted (typeArgs = []) s!"'{callee}' takes no type arguments" pos
        match namedVariant s.types callee with
        | some info =>
          variantArity true info args.length pos
          let as ← analyzeArgs args
          checkPayload info 0 as info.fields
          return .variant pos info as
        | none =>
        match s.function? (.named callee.spell) with
        | none =>
          rejectVariantName callee pos
          reject s!"Call to undeclared function '{callee}'" pos
        | some sig =>
          require (args.length = sig.params.length)
            s!"Function '{callee}' expects {sig.params.length} args, got {args.length}" pos
          let as ← checkArgs false pos args sig.params
          return .call pos callee.spell (.named callee.spell) as sig.ret

/-- Type the argument at position `i`. -/
def analyzeArg : ℕ → List Expr → Sema TExpr
  | _, [] => throw .keyError
  | 0, e :: _ => analyzeExpr none e
  | i + 1, _ :: es => analyzeArg i es

def analyzeArgs : List Expr → Sema (List TExpr)
  | [] => return []
  | e :: es => do
    let t ← analyzeExpr none e
    return t :: (← analyzeArgs es)

/-- Type each argument and check it before the next. -/
def checkArgs (noted : Bool) (pos : Pos) : List Expr → List Ty → Sema (List TExpr)
  | e :: es, t :: ts => do
    let a ← analyzeExpr none e
    (if noted then requireNoted else require) (t.assignable a.type)
      s!"Argument type mismatch: expected {t}, got {a.type}" pos
    return a :: (← checkArgs noted pos es ts)
  | _, _ => return []

def analyzeInits (info : StructInfo) : List String → List FieldInit → Sema (List TInit)
  | _, [] => return []
  | seen, .mk pos name value :: rest => do
    require (name ∉ seen) s!"Field '{name}' given twice in literal for '{info.name}'" pos
    match info.fieldNamed name with
    | none => reject s!"Struct '{info.name}' has no field '{name}'" pos
    | some fld =>
      let v ← analyzeExpr (some fld.type) value
      require (fld.type.assignable v.type) s!"Field '{name}' expects {fld.type}, got {v.type}" pos
      return .mk pos name v :: (← analyzeInits info (name :: seen) rest)
end

end Expressions

end QuinLang
