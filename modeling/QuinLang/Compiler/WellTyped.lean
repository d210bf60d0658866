import QuinLang.Compiler.Sema
import QuinLang.Compiler.Codegen
import QuinLang.Compiler.Declared

/-! When a checked tree is well typed, against the final type and function tables and
the variables declared at each point. -/

namespace QuinLang

/-- What a checked tree is read against. -/
structure Globals where
  types : TypeTable
  sig? : TypeName → Option FunctionSig
  /-- the builtins that have a function of their own -/
  wrapped : List String

def SemaState.globals (s : SemaState) : Globals := ⟨s.types, s.function?, s.wrapped⟩

/-- Arguments that may be passed for parameters of the types. -/
def Fit (args : List TExpr) (params : List Ty) : Prop :=
  List.Forall₂ (fun (a : TExpr) p => p.assignable a.type = true) args params

/-- The builtins the analyser types call by call. -/
def arrayBuiltins : List String := ["array_push", "array_pop", "array_new", "array_len"]

/-- A call by name, its arguments apart. -/
inductive CallOk (G : Globals) : String → TypeName → List TExpr → Ty → Prop
  | push {target : TypeName} {a l v : TExpr} (ha : a.type.isFrameArray = true) (hl : l.type = .int)
      (hv : v.type = .int) : CallOk G "array_push" target [a, l, v] .int
  | pop {target : TypeName} {a l : TExpr} (ha : a.type.isFrameArray = true) (hl : l.type = .int) :
      CallOk G "array_pop" target [a, l] .int
  | new {target : TypeName} {l : TExpr} {element : Ty} (hl : l.type = .int) :
      CallOk G "array_new" target [l] (.array element)
  | len {target : TypeName} {a : TExpr} {element : Ty} (ha : a.type = .array element) :
      CallOk G "array_len" target [a] .int
  | builtin {callee : String} {args : List TExpr} {sig : FunctionSig} (hc : callee ∉ arrayBuiltins)
      (hs : sig ∈ getBuiltins) (hn : sig.name = .named callee) (hf : Fit args sig.params) :
      CallOk G callee (.named callee) args sig.ret
  | function {callee : String} {target : TypeName} {args : List TExpr} {sig : FunctionSig}
      (hc : callee ∉ arrayBuiltins) (hb : ∀ b ∈ getBuiltins, b.name ≠ .named callee)
      (ht : ∀ b ∈ getBuiltins, b.name ≠ target) (hs : G.sig? target = some sig) (hf : Fit args sig.params) :
      CallOk G callee target args sig.ret

/-- What an access to an element asks of the array and the index. -/
def ElementOk (array index : TExpr) (element : Ty) : Prop :=
  index.type = .int ∧ (array.type = .array element ∨ array.type.isFrameArray = true ∧ element = .int)

/-- The field an access reads or writes. -/
def FieldOk (G : Globals) (obj : Ty) (field : String) (t : Ty) : Prop :=
  ∃ n info fld, obj = .struct n ∧ G.types.struct? n = some info ∧ info.fieldNamed field = some fld ∧
    t = fld.type

section Expressions

variable (G : Globals) (live : List Symbol)

mutual
def ExprOk : TExpr → Prop
  | .literal _ _ => True
  | .funcRef _ name type => (∃ sig, G.sig? name = some sig ∧ type = .func sig.params sig.ret) ∧
      ∀ b ∈ getBuiltins, b.name = name → ∃ n ∈ G.wrapped, name = .named n
  | .variant _ info args => G.types.HasVariant info.enumName info ∧
      Fit args (info.fields.map StructField.type) ∧ ExprsOk args
  | .local _ sym => sym ∈ live
  | .addressOfVar _ sym => sym ∈ live ∧ sym.type.isReference = false ∧ sym.type ≠ .float
  | .addressOfElem _ array index =>
    array.type.isFrameArray = true ∧ index.type = .int ∧ ExprOk array ∧ ExprOk index
  | .unary _ op right type => unaryType op right.type = .ok type ∧ ExprOk right
  | .binary _ left op right type => binaryType op left.type right.type = .ok type ∧
      ExprOk left ∧ ExprOk right
  | .index _ array index type => ElementOk array index type ∧ ExprOk array ∧ ExprOk index
  | .field _ obj field type => FieldOk G obj.type field type ∧ ExprOk obj
  | .structLit _ name inits => ∃ info, G.types.struct? name = some info ∧ InitsOk info inits ∧
      ∀ f ∈ info.fields, f.name ∈ inits.map TInit.name
  | .callField _ receiver args type => ∃ params, receiver.type = .func params type ∧ Fit args params ∧
      ExprOk receiver ∧ ExprsOk args
  | .callLocal _ sym args type => ∃ params, sym.type = .func params type ∧ sym ∈ live ∧
      Fit args params ∧ ExprsOk args
  | .call _ callee target args type => CallOk G callee target args type ∧ ExprsOk args

def ExprsOk : List TExpr → Prop
  | [] => True
  | e :: es => ExprOk e ∧ ExprsOk es

def InitsOk (info : StructInfo) : List TInit → Prop
  | [] => True
  | .mk _ name value :: rest =>
    (∃ fld, info.fieldNamed name = some fld ∧ fld.type.assignable value.type = true) ∧
      ExprOk value ∧ InitsOk info rest
end

end Expressions

section Statements

variable (G : Globals)

def SimpleOk (live : List Symbol) : TSimple → Prop
  | .assignLocal _ sym value => sym ∈ live ∧ sym.type.isFrameArray = false ∧
      sym.type.assignable value.type = true ∧ ExprOk G live value
  | .assignElem _ _ array index value => (∃ element, ElementOk array index element ∧
      element.assignable value.type = true) ∧ ExprOk G live array ∧ ExprOk G live index ∧ ExprOk G live value
  | .assignField _ _ obj field value => (∃ t, FieldOk G obj.type field t ∧
      t.assignable value.type = true) ∧ ExprOk G live obj ∧ ExprOk G live value
  | .expr _ e => ExprOk G live e

def ConditionOk (live : List Symbol) (c : TExpr) : Prop := c.type = .bool ∧ ExprOk G live c

/-- The references a scope releases: none of them is a variable of an outer scope. -/
def RefsOk (live refs : List Symbol) : Prop :=
  ∀ r ∈ refs, r ∉ live ∧ r.type.isReference = true

variable (ret : Ty)

mutual
def StmtOk (live : List Symbol) : TStmt → Prop
  | .simple s => SimpleOk G live s
  | .varDecl _ sym init => ∀ v, init = some v →
      sym.type.assignable v.type = true ∧ sym.type.isFrameArray = false ∧ ExprOk G live v
  | .print _ value | .println _ value =>
    (value.type = .int ∨ value.type = .str ∨ value.type = .bool ∨ value.type = .float) ∧ ExprOk G live value
  | .return_ _ none => ret = .void
  | .return_ _ (some value) => ret.assignable value.type = true ∧ ExprOk G live value
  | .vmAsm _ _ _ | .break_ _ | .continue_ _ => True
  | .if_ _ cond thenBlock elseBlock =>
    ConditionOk G live cond ∧ BlockOk live thenBlock ∧ BlockOk live elseBlock
  | .while_ _ cond body => ConditionOk G live cond ∧ BlockOk live body
  | .for_ _ none cond step body refs => (∀ c ∈ cond, ConditionOk G live c) ∧ (∀ s ∈ step, SimpleOk G live s) ∧
      BlockOk live body ∧ refs = []
  | .for_ _ (some init) cond step body refs =>
    let inner := liveAfter live init
    StmtOk live init ∧ (∀ c ∈ cond, ConditionOk G inner c) ∧ (∀ s ∈ step, SimpleOk G inner s) ∧
      BlockOk inner body ∧ RefsOk live refs
  | .match_ _ subject arms => ∃ name, subject.type = .enum name ∧ ExprOk G live subject ∧
      ArmsOk name live arms
  | .block _ body => BlockOk live body

def StmtsOk (live : List Symbol) : List TStmt → Prop
  | [] => True
  | s :: ss => StmtOk live s ∧ StmtsOk (liveAfter live s) ss

def BlockOk (live : List Symbol) : TBlock → Prop
  | .mk stmts refs => StmtsOk live stmts ∧ RefsOk live refs

def ArmsOk (name : TypeName) (live : List Symbol) : List TArm → Prop
  | [] => True
  | .mk _ none _ (.mk stmts refs) :: arms => StmtsOk live stmts ∧ RefsOk live refs ∧ ArmsOk name live arms
  | .mk _ (some v) bindings (.mk stmts refs) :: arms =>
    (G.types.HasVariant name v ∧ bindings.map Symbol.type = v.fields.map StructField.type) ∧
      StmtsOk (bindings.reverse ++ live) stmts ∧ RefsOk live refs ∧ ArmsOk name live arms
end

/-- A function whose parameters lead its frame. -/
structure FunctionOk (fn : TFunction) : Prop where
  sig : G.sig? fn.name = some fn.sig
  arity : fn.numParams = fn.sig.params.length
  params : (fn.frame.take fn.numParams).map Symbol.type = fn.sig.params
  body : StmtsOk G fn.sig.ret (fn.frame.take fn.numParams).reverse fn.body

end Statements

end QuinLang
