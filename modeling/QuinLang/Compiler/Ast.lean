import QuinLang.Bytecode
import QuinLang.Compiler.Types

/-! The tree the parser builds. A call through a field is a node of its own, and
the step of a `for` is one of the two statements the parser accepts there. -/

namespace QuinLang

/-- A name in an expression or a pattern: plain, or `Enum::Variant`. -/
inductive Name
  | plain (name : String)
  | path (enumName variant : String)
  deriving DecidableEq, Repr, Inhabited

def Name.spell : Name → String
  | plain name => name
  | path enumName variant => s!"{enumName}::{variant}"

instance : ToString Name := ⟨Name.spell⟩

/-- A float literal is the 32-bit pattern of the single-precision value the lexer
accepted. -/
inductive Literal
  | null
  | bool (value : Bool)
  | int (value : ℤ)
  | float (bits : ℕ)
  | str (value : String)
  deriving DecidableEq, Repr, Inhabited

inductive UnaryOp
  | neg | not | bitnot
  deriving DecidableEq, Repr

def UnaryOp.spell : UnaryOp → String
  | neg => "-"
  | not => "!"
  | bitnot => "~"

inductive BinaryOp
  | add | sub | mul | div | mod | xor | and | or | shl | shr
  | eq | ne | lt | le | gt | ge | land | lor
  deriving DecidableEq, Repr

mutual
inductive Expr
  | literal (pos : Pos) (value : Literal)
  | identifier (pos : Pos) (name : Name)
  | unary (pos : Pos) (op : UnaryOp) (right : Expr)
  | binary (pos : Pos) (left : Expr) (op : BinaryOp) (right : Expr)
  | call (pos : Pos) (callee : Name) (args : List Expr) (typeArgs : List TypeName)
  | receiverCall (pos : Pos) (callee : String) (receiver : Expr) (args : List Expr)
  | index (pos : Pos) (array index : Expr)
  | addressOf (pos : Pos) (target : Expr)
  | fieldAccess (pos : Pos) (obj : Expr) (field : String)
  | structLit (pos : Pos) (structName : TypeName) (fields : List FieldInit)

inductive FieldInit
  | mk (pos : Pos) (name : String) (value : Expr)
end

instance : Inhabited Expr := ⟨.literal {} .null⟩

def Expr.pos : Expr → Pos
  | literal pos _ | identifier pos _ | unary pos _ _ | binary pos _ _ _ | call pos _ _ _
  | receiverCall pos _ _ _ | index pos _ _ | addressOf pos _ | fieldAccess pos _ _
  | structLit pos _ _ => pos

/-- An assignment or an expression evaluated for its effect. -/
inductive Simple
  | assign (pos : Pos) (target value : Expr)
  | expr (pos : Pos) (expr : Expr)

mutual
inductive Stmt
  | simple (s : Simple)
  | varDecl (pos : Pos) (name : String) (typeName : Option TypeName) (init : Option Expr)
  | print (pos : Pos) (value : Expr)
  | println (pos : Pos) (value : Expr)
  | return_ (pos : Pos) (value : Option Expr)
  | vmAsm (pos : Pos) (code : String)
  | if_ (pos : Pos) (cond : Expr) (thenBlock elseBlock : List Stmt)
  | while_ (pos : Pos) (cond : Expr) (body : List Stmt)
  | for_ (pos : Pos) (init : Option Stmt) (cond : Option Expr) (step : Option Simple)
      (body : List Stmt)
  | match_ (pos : Pos) (subject : Expr) (arms : List MatchArm)
  | break_ (pos : Pos)
  | continue_ (pos : Pos)
  | block (pos : Pos) (stmts : List Stmt)

/-- The catch-all arm names no variant. -/
inductive MatchArm
  | mk (pos : Pos) (variant : Option Name) (bindings : List String) (body : List Stmt)
end

instance : Inhabited Stmt := ⟨.break_ {}⟩

structure Param where
  name : String
  typeName : TypeName
  pos : Pos := {}

/-- A declaration with type parameters is a template. -/
structure Function where
  name : String
  params : List Param
  returnType : Option TypeName
  body : List Stmt
  typeParams : List String := []
  sourceFile : String := ""
  pos : Pos := {}

structure FieldDef where
  name : String
  typeName : TypeName
  pos : Pos := {}

structure StructDef where
  name : String
  fields : List FieldDef
  typeParams : List String := []
  pos : Pos := {}

structure VariantDef where
  name : String
  payload : List TypeName := []
  pos : Pos := {}

structure EnumDef where
  name : String
  variants : List VariantDef
  typeParams : List String := []
  pos : Pos := {}

structure Program where
  functions : List Function
  structs : List StructDef := []
  enums : List EnumDef := []

/-! Rewriting every type name of a tree, which is all that instantiating a
declaration does to it. -/

section SubstituteTypes

variable (subs : Subst)

mutual
def Expr.substitute : Expr → Expr
  | .literal pos v => .literal pos v
  | .identifier pos n => .identifier pos n
  | .unary pos op r => .unary pos op r.substitute
  | .binary pos l op r => .binary pos l.substitute op r.substitute
  | .call pos callee args typeArgs =>
    .call pos callee (substituteExprs args) (substituteTypeNames subs typeArgs)
  | .receiverCall pos callee receiver args =>
    .receiverCall pos callee receiver.substitute (substituteExprs args)
  | .index pos a i => .index pos a.substitute i.substitute
  | .addressOf pos t => .addressOf pos t.substitute
  | .fieldAccess pos o f => .fieldAccess pos o.substitute f
  | .structLit pos n fields =>
    .structLit pos (substituteTypeName subs n) (substituteInits fields)

def substituteExprs : List Expr → List Expr
  | [] => []
  | e :: es => e.substitute :: substituteExprs es

def FieldInit.substitute : FieldInit → FieldInit
  | .mk pos n v => .mk pos n v.substitute

def substituteInits : List FieldInit → List FieldInit
  | [] => []
  | f :: fs => f.substitute :: substituteInits fs
end

def Simple.substitute : Simple → Simple
  | .assign pos t v => .assign pos (t.substitute subs) (v.substitute subs)
  | .expr pos e => .expr pos (e.substitute subs)

mutual
def Stmt.substitute : Stmt → Stmt
  | .simple s => .simple (s.substitute subs)
  | .varDecl pos n t init =>
    .varDecl pos n (t.map (substituteTypeName subs)) (init.map (Expr.substitute subs))
  | .print pos v => .print pos (v.substitute subs)
  | .println pos v => .println pos (v.substitute subs)
  | .return_ pos v => .return_ pos (v.map (Expr.substitute subs))
  | .vmAsm pos code => .vmAsm pos code
  | .if_ pos c t e => .if_ pos (c.substitute subs) (substituteStmts t) (substituteStmts e)
  | .while_ pos c b => .while_ pos (c.substitute subs) (substituteStmts b)
  | .for_ pos none c s b =>
    .for_ pos none (c.map (Expr.substitute subs)) (s.map (Simple.substitute subs)) (substituteStmts b)
  | .for_ pos (some i) c s b =>
    .for_ pos (some i.substitute) (c.map (Expr.substitute subs)) (s.map (Simple.substitute subs))
      (substituteStmts b)
  | .match_ pos s arms => .match_ pos (s.substitute subs) (substituteArms arms)
  | .break_ pos => .break_ pos
  | .continue_ pos => .continue_ pos
  | .block pos b => .block pos (substituteStmts b)

def substituteStmts : List Stmt → List Stmt
  | [] => []
  | s :: ss => s.substitute :: substituteStmts ss

def MatchArm.substitute : MatchArm → MatchArm
  | .mk pos v bindings body => .mk pos v bindings (substituteStmts body)

def substituteArms : List MatchArm → List MatchArm
  | [] => []
  | a :: as => a.substitute :: substituteArms as
end

/-- The copy of a template an instance is made of; the name of the instance goes with it. -/
def Function.instantiate (f : Function) : Function :=
  { f with
    typeParams := []
    params := f.params.map fun p => { p with typeName := substituteTypeName subs p.typeName }
    returnType := f.returnType.map (substituteTypeName subs)
    body := substituteStmts subs f.body }

end SubstituteTypes

end QuinLang
