import QuinLang.Compiler.Ast

/-! The tree semantic analysis hands to code generation. The tables the analyser
keys by node identity (the type of an expression, the symbol a name refers to,
the variant an expression constructs, the instance a call resolves to, the
references a scope declares) are fields of the nodes here. -/

namespace QuinLang

/-- A variable. `index` is its place among the symbols of its function's frame, which
is what tells two variables of one name apart. -/
structure Symbol where
  name : String
  type : Ty
  index : ℕ
  deriving DecidableEq, Repr, Inhabited

structure FunctionSig where
  name : TypeName
  params : List Ty
  ret : Ty
  isBuiltin : Bool := false
  deriving DecidableEq, Repr

mutual
inductive TExpr
  | literal (pos : Pos) (value : Literal)
  | funcRef (pos : Pos) (name : TypeName) (type : Ty)
  | variant (pos : Pos) (info : VariantInfo) (args : List TExpr)
  | local (pos : Pos) (sym : Symbol)
  | addressOfVar (pos : Pos) (sym : Symbol)
  | addressOfElem (pos : Pos) (array index : TExpr)
  | unary (pos : Pos) (op : UnaryOp) (right : TExpr) (type : Ty)
  | binary (pos : Pos) (left : TExpr) (op : BinaryOp) (right : TExpr) (type : Ty)
  | index (pos : Pos) (array index : TExpr) (type : Ty)
  | field (pos : Pos) (obj : TExpr) (field : String) (type : Ty)
  | structLit (pos : Pos) (name : TypeName) (fields : List TInit)
  /-- through a function held in a field -/
  | callField (pos : Pos) (receiver : TExpr) (args : List TExpr) (type : Ty)
  /-- through a function-typed variable -/
  | callLocal (pos : Pos) (sym : Symbol) (args : List TExpr) (type : Ty)
  /-- of a builtin, a function, or the instance `target` of a generic one -/
  | call (pos : Pos) (callee : String) (target : TypeName) (args : List TExpr) (type : Ty)

inductive TInit
  | mk (pos : Pos) (name : String) (value : TExpr)
end

instance : Inhabited TExpr := ⟨.literal {} .null⟩

def TInit.name : TInit → String
  | mk _ name _ => name

def Literal.type : Literal → Ty
  | null => .null
  | bool _ => .bool
  | int _ => .int
  | float _ => .float
  | str _ => .str

namespace TExpr

def pos : TExpr → Pos
  | literal pos _ | funcRef pos _ _ | variant pos _ _ | «local» pos _ | addressOfVar pos _
  | addressOfElem pos _ _ | unary pos _ _ _ | binary pos _ _ _ _ | index pos _ _ _ | field pos _ _ _
  | structLit pos _ _ | callField pos _ _ _ | callLocal pos _ _ _ | call pos _ _ _ _ => pos

/-- The type the analyser gave the expression. -/
def type : TExpr → Ty
  | literal _ v => v.type
  | variant _ info _ => .enum info.enumName
  | «local» _ sym => sym.type
  | addressOfVar _ _ | addressOfElem _ _ _ => .ptr
  | structLit _ name _ => .struct name
  | funcRef _ _ t | unary _ _ _ t | binary _ _ _ _ t | index _ _ _ t | field _ _ _ t
  | callField _ _ _ t | callLocal _ _ _ t | call _ _ _ _ t => t

end TExpr

inductive TSimple
  | assignLocal (pos : Pos) (sym : Symbol) (value : TExpr)
  | assignElem (pos targetPos : Pos) (array index value : TExpr)
  | assignField (pos targetPos : Pos) (obj : TExpr) (field : String) (value : TExpr)
  | expr (pos : Pos) (expr : TExpr)

mutual
inductive TStmt
  | simple (s : TSimple)
  | varDecl (pos : Pos) (sym : Symbol) (init : Option TExpr)
  | print (pos : Pos) (value : TExpr)
  | println (pos : Pos) (value : TExpr)
  | return_ (pos : Pos) (value : Option TExpr)
  | vmAsm (pos : Pos) (code : String) (visible : List (String × Symbol))
  | if_ (pos : Pos) (cond : TExpr) (thenBlock elseBlock : TBlock)
  | while_ (pos : Pos) (cond : TExpr) (body : TBlock)
  /-- `refs` are the references the init clause declares -/
  | for_ (pos : Pos) (init : Option TStmt) (cond : Option TExpr) (step : Option TSimple)
      (body : TBlock) (refs : List Symbol)
  | match_ (pos : Pos) (subject : TExpr) (arms : List TArm)
  | break_ (pos : Pos)
  | continue_ (pos : Pos)
  | block (pos : Pos) (body : TBlock)

/-- The statements of a scope and the references it declares directly. -/
inductive TBlock
  | mk (stmts : List TStmt) (refs : List Symbol)

inductive TArm
  | mk (pos : Pos) (variant : Option VariantInfo) (bindings : List Symbol) (body : TBlock)
end

instance : Inhabited TStmt := ⟨.break_ {}⟩

/-- A function ready for code generation, with every symbol of its frame: parameters
first, then declarations in source order. -/
structure TFunction where
  name : TypeName
  sig : FunctionSig
  numParams : ℕ
  body : List TStmt
  frame : List Symbol
  sourceFile : String
  pos : Pos

structure Diagnostic where
  message : String
  pos : Pos := {}
  deriving DecidableEq, Repr

/-- What the analyser leaves for code generation: the types, and the functions to
emit in order, instances included and templates not. -/
structure CheckedProgram where
  types : TypeTable
  functions : List TFunction
  warnings : List Diagnostic

end QuinLang
