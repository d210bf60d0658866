import Mathlib

/-! Types and their spellings. A spelling is kept as the structure it parses to;
`spell` writes it out the one way the parser does, and that text is what messages
and mangled names are made of. -/

namespace QuinLang

/-- A type as source writes it, and the name of a declaration or of one of its
instances: `Vec<int>` names an instance of `Vec<T>`. -/
inductive TypeName
  | named (name : String)
  | frameArray (length : ℕ)
  | app (base : String) (args : List TypeName)
  | fn (params : List TypeName) (ret : TypeName)
  deriving Repr, Inhabited

namespace TypeName

mutual
def beq : TypeName → TypeName → Bool
  | named a, named b => a == b
  | frameArray m, frameArray n => m == n
  | app a as, app b bs => a == b && beqList as bs
  | fn ps r, fn qs s => beqList ps qs && beq r s
  | _, _ => false

def beqList : List TypeName → List TypeName → Bool
  | [], [] => true
  | a :: as, b :: bs => beq a b && beqList as bs
  | _, _ => false
end

mutual
theorem beq_iff : ∀ a b : TypeName, beq a b = true ↔ a = b
  | named _, b => by cases b <;> simp [beq]
  | frameArray _, b => by cases b <;> simp [beq]
  | app _ as, b => by cases b <;> simp [beq, beqList_iff as]
  | fn ps r, b => by cases b <;> simp [beq, beqList_iff ps, beq_iff r]

theorem beqList_iff : ∀ as bs : List TypeName, beqList as bs = true ↔ as = bs
  | [], bs => by cases bs <;> simp [beqList]
  | a :: as, bs => by cases bs <;> simp [beqList, beq_iff a, beqList_iff as]
end

instance : DecidableEq TypeName := fun a b => decidable_of_iff _ (beq_iff a b)

mutual
def spell : TypeName → String
  | named name => name
  | frameArray length => s!"int[{length}]"
  | app base args => base ++ "<" ++ spellList args ++ ">"
  | fn params ret => "fn(" ++ spellList params ++ "):" ++ spell ret

def spellList : List TypeName → String
  | [] => ""
  | [a] => spell a
  | a :: b :: rest => spell a ++ "," ++ spellList (b :: rest)
end

instance : ToString TypeName := ⟨spell⟩

end TypeName

/-- The types that are not built from others. `null` is the type of the literal and
cannot be written. -/
inductive Scalar
  | int | str | void | bool | float | ptr | heapptr | null
  deriving DecidableEq, Repr, Inhabited

def Scalar.spell : Scalar → String
  | int => "int"
  | str => "str"
  | void => "void"
  | bool => "bool"
  | float => "float"
  | ptr => "ptr"
  | heapptr => "heapptr"
  | null => "null"

/-- `BUILTIN_TYPES`. -/
def builtinType : String → Option Scalar
  | "int" => some .int
  | "str" => some .str
  | "void" => some .void
  | "bool" => some .bool
  | "float" => some .float
  | "ptr" => some .ptr
  | "heapptr" => some .heapptr
  | _ => none

/-- Struct and enum types are compared by name; a function type by its signature. -/
inductive Ty
  | scalar (s : Scalar)
  | frameArray (length : ℕ)
  | struct (name : TypeName)
  | enum (name : TypeName)
  | func (params : List Ty) (ret : Ty)
  | array (element : Ty)
  deriving Repr, Inhabited

namespace Ty

@[match_pattern] abbrev int : Ty := scalar .int
@[match_pattern] abbrev str : Ty := scalar .str
@[match_pattern] abbrev void : Ty := scalar .void
@[match_pattern] abbrev bool : Ty := scalar .bool
@[match_pattern] abbrev float : Ty := scalar .float
@[match_pattern] abbrev ptr : Ty := scalar .ptr
@[match_pattern] abbrev heapptr : Ty := scalar .heapptr
@[match_pattern] abbrev null : Ty := scalar .null

mutual
def beq : Ty → Ty → Bool
  | scalar a, scalar b => a == b
  | frameArray m, frameArray n => m == n
  | struct a, struct b => a == b
  | enum a, enum b => a == b
  | func ps r, func qs s => beqList ps qs && beq r s
  | array a, array b => beq a b
  | _, _ => false

def beqList : List Ty → List Ty → Bool
  | [], [] => true
  | a :: as, b :: bs => beq a b && beqList as bs
  | _, _ => false
end

mutual
theorem beq_iff : ∀ a b : Ty, beq a b = true ↔ a = b
  | scalar _, b => by cases b <;> simp [beq]
  | frameArray _, b => by cases b <;> simp [beq]
  | struct _, b => by cases b <;> simp [beq]
  | enum _, b => by cases b <;> simp [beq]
  | func ps r, b => by cases b <;> simp [beq, beqList_iff ps, beq_iff r]
  | array a, b => by cases b <;> simp [beq, beq_iff a]

theorem beqList_iff : ∀ as bs : List Ty, beqList as bs = true ↔ as = bs
  | [], bs => by cases bs <;> simp [beqList]
  | a :: as, bs => by cases bs <;> simp [beqList, beq_iff a, beqList_iff as]
end

instance : DecidableEq Ty := fun a b => decidable_of_iff _ (beq_iff a b)

mutual
/-- The canonical spelling of a type. -/
def name : Ty → TypeName
  | scalar s => .named s.spell
  | frameArray length => .frameArray length
  | struct n => n
  | enum n => n
  | func params ret => .fn (names params) (name ret)
  | array element => .app "Array" [name element]

def names : List Ty → List TypeName
  | [] => []
  | t :: ts => name t :: names ts
end

instance : ToString Ty := ⟨fun t => t.name.spell⟩

/-- Slots a value of the type occupies. -/
def wordCount (t : Ty) : ℕ := if t = float then 2 else 1

def isFrameRelative (t : Ty) : Bool := t = ptr

def isStruct : Ty → Bool
  | struct _ => true
  | _ => false

def isFrameArray : Ty → Bool
  | frameArray _ => true
  | _ => false

/-- Elements of an `int[N]`, 0 for anything else. -/
def arrayLength : Ty → ℕ
  | frameArray length => length
  | _ => 0

/-- Whether values of the type are heap addresses the collector must trace. -/
def isReference : Ty → Bool
  | struct _ | enum _ | array _ | heapptr | str => true
  | _ => false

/-- Whether null may stand in for a value of the type: every reference but a string. -/
def isNullable : Ty → Bool
  | struct _ | enum _ | array _ | heapptr => true
  | _ => false

def assignable (target value : Ty) : Bool :=
  target == value || (value == null && target.isNullable)

def comparable (left right : Ty) : Bool :=
  left == right || (left == null && right.isNullable) || (right == null && left.isNullable)

end Ty

structure StructField where
  name : String
  type : Ty
  /-- in words from the object's base address -/
  offset : ℕ
  deriving DecidableEq, Repr

def wordSize (fields : List StructField) : ℕ := (fields.map fun f => f.type.wordCount).sum

/-- A struct's declared layout and the id its heap header carries. -/
structure StructInfo where
  name : TypeName
  typeId : ℕ
  fields : List StructField := []
  deriving DecidableEq, Repr

def StructInfo.fieldNamed (info : StructInfo) (name : String) : Option StructField :=
  info.fields.find? fun f => f.name == name

/-- One variant: a struct at run time, with the enum it belongs to. -/
structure VariantInfo where
  enumName : TypeName
  shortName : String
  typeId : ℕ
  index : ℕ
  fields : List StructField := []
  deriving DecidableEq, Repr

/-- The qualified spelling. -/
def VariantInfo.name (v : VariantInfo) : String := s!"{v.enumName}::{v.shortName}"

structure EnumInfo where
  name : TypeName
  variants : List VariantInfo := []
  deriving DecidableEq, Repr

/-- The types declared so far, in declaration order. -/
structure TypeTable where
  structs : List StructInfo := []
  enums : List EnumInfo := []
  deriving DecidableEq, Repr

namespace TypeTable

def struct? (t : TypeTable) (name : TypeName) : Option StructInfo :=
  t.structs.find? fun i => i.name = name

def enum? (t : TypeTable) (name : TypeName) : Option EnumInfo :=
  t.enums.find? fun i => i.name = name

/-- `variants[qualified] = v`: a name already there keeps its place and loses its value. -/
def insertVariant (table : List VariantInfo) (v : VariantInfo) : List VariantInfo :=
  if table.any fun w => w.enumName = v.enumName ∧ w.shortName = v.shortName then
    table.map fun w => if w.enumName = v.enumName ∧ w.shortName = v.shortName then v else w
  else table ++ [v]

/-- The flat variant table: every variant of every enum under its qualified name. -/
def variants (t : TypeTable) : List VariantInfo :=
  (t.enums.flatMap (·.variants)).foldl insertVariant []

def variant? (t : TypeTable) (enumName : TypeName) (shortName : String) : Option VariantInfo :=
  t.variants.find? fun v => v.enumName = enumName ∧ v.shortName = shortName

/-- Structs and variants draw their ids from one space. -/
def nextTypeId (t : TypeTable) : ℕ := t.structs.length + t.variants.length

end TypeTable

mutual
/-- `type_from_name`: the type a spelling means, or why it means none. -/
def typeFromName (t : TypeTable) : TypeName → Except String Ty
  | .frameArray length =>
    if length = 0 then
      .error s!"Array length must be positive, got {length} in type '{TypeName.frameArray length}'"
    else .ok (.frameArray length)
  | .fn params ret =>
    match paramsFromNames t (.fn params ret) params with
    | .error e => .error e
    | .ok ps =>
      match typeFromName t ret with
      | .error e => .error e
      | .ok r =>
        if r.isFrameArray then
          .error s!"An array is not a return type in '{TypeName.fn params ret}'"
        else if r.isFrameRelative then
          .error (s!"'ptr' is not a return type in '{TypeName.fn params ret}': the frame it indexes "
            ++ "is gone by the time the caller has it")
        else .ok (.func ps r)
  | .app base args =>
    if base = "Array" then
      match args with
      | [element] =>
        match typeFromName t element with
        | .error e => .error e
        | .ok el =>
          if el = .void then .error s!"'void' is not an element type in '{TypeName.app base args}'"
          else if el = .float then
            .error (s!"'float' is two words wide and an array counts elements, "
              ++ s!"so '{TypeName.app base args}' is not a type")
          else if el.isFrameArray then
            .error (s!"An int[N] lives in a frame, not on the heap, so '{TypeName.app base args}' "
              ++ "is not a type; use Array<Array<...>> instead")
          else .ok (.array el)
      | _ => .error s!"'Array' takes one element type, got {args.length} in '{TypeName.app base args}'"
    else if (t.struct? (.app base args)).isSome then .ok (.struct (.app base args))
    else if (t.enum? (.app base args)).isSome then .ok (.enum (.app base args))
    else .error s!"Unknown type '{TypeName.app base args}'"
  | .named n =>
    match builtinType n with
    | some s => .ok (.scalar s)
    | none =>
      if (t.struct? (.named n)).isSome then .ok (.struct (.named n))
      else if (t.enum? (.named n)).isSome then .ok (.enum (.named n))
      else .error s!"Unknown type '{n}'"

/-- The parameters of a function type, under the rules a declared parameter obeys. -/
def paramsFromNames (t : TypeTable) (whole : TypeName) : List TypeName → Except String (List Ty)
  | [] => .ok []
  | p :: ps =>
    match typeFromName t p with
    | .error e => .error e
    | .ok ty =>
      if ty = .void then .error s!"'void' is not a parameter type in '{whole}'"
      else if ty.isFrameArray then .error s!"An array is not a parameter type in '{whole}'"
      else if ty.isFrameRelative then
        .error (s!"'ptr' is not a parameter type in '{whole}': it indexes the "
          ++ "frame it was taken in, so it names a different slot in the one it is passed to")
      else
        match paramsFromNames t whole ps with
        | .error e => .error e
        | .ok tys => .ok (ty :: tys)
end

/-- What type parameters are bound to. -/
abbrev Subst := List (String × TypeName)

mutual
/-- Replace the type parameters a spelling mentions. -/
def substituteTypeName (subs : Subst) : TypeName → TypeName
  | .named n => (subs.lookup n).getD (.named n)
  | .frameArray length => .frameArray length
  | .app base args => .app base (substituteTypeNames subs args)
  | .fn params ret => .fn (substituteTypeNames subs params) (substituteTypeName subs ret)

def substituteTypeNames (subs : Subst) : List TypeName → List TypeName
  | [] => []
  | n :: ns => substituteTypeName subs n :: substituteTypeNames subs ns
end

mutual
/-- Match a declared spelling against a concrete one, binding parameters; none where
they do not match, with what had been bound by then. -/
def unifyTypeName (binders : List String) : TypeName → TypeName → Subst → Bool × Subst
  | .named n, actual, subs =>
    if n ∈ binders then
      match subs.lookup n with
      | none => (true, subs ++ [(n, actual)])
      | some bound => (bound == actual, subs)
    else (TypeName.named n == actual, subs)
  | .frameArray length, actual, subs => (TypeName.frameArray length == actual, subs)
  | .app base args, .app base' args', subs =>
    if base ≠ base' ∨ args.length ≠ args'.length then (false, subs)
    else unifyTypeNames binders args args' subs
  | .fn params ret, .fn params' ret', subs =>
    if params.length ≠ params'.length then (false, subs)
    else
      match unifyTypeNames binders params params' subs with
      | (false, subs) => (false, subs)
      | (true, subs) => unifyTypeName binders ret ret' subs
  | _, _, subs => (false, subs)

def unifyTypeNames (binders : List String) :
    List TypeName → List TypeName → Subst → Bool × Subst
  | n :: ns, m :: ms, subs =>
    match unifyTypeName binders n m subs with
    | (false, subs) => (false, subs)
    | (true, subs) => unifyTypeNames binders ns ms subs
  | _, _, subs => (true, subs)
end

end QuinLang
