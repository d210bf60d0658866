import QuinLang.Compiler.Lexer

/-! The tree as the parser makes it: names, operators and types are the texts of their
tokens, and a literal is the token's own. -/

namespace QuinLang

namespace Parser

/-- Where a node is. -/
structure At where
  line : ℕ
  col : ℤ
  deriving DecidableEq, Repr

/-- The value of a literal; that of a number or a string is its token's. -/
inductive Value
  | bool (value : Bool)
  | null
  | token (literal : Option LexLiteral)
  deriving DecidableEq, Repr

mutual
inductive Expr
  | literal (pos : At) (value : Value)
  | identifier (pos : At) (name : List Char)
  | unary (pos : At) (op : List Char) (right : Expr)
  | binary (pos : At) (left : Expr) (op : List Char) (right : Expr)
  | call (pos : At) (callee : List Char) (args : List Expr) (receiver : Option Expr) (typeArgs : List (List Char))
  | index (pos : At) (array index : Expr)
  | addressOf (pos : At) (target : Expr)
  | fieldAccess (pos : At) (obj : Expr) (field : List Char)
  | structLit (pos : At) (structName : List Char) (fields : List FieldInit)

inductive FieldInit
  | mk (pos : At) (name : List Char) (value : Expr)
end

def Expr.pos : Expr → At
  | literal pos _ | identifier pos _ | unary pos _ _ | binary pos _ _ _ | call pos _ _ _ _ | index pos _ _
  | addressOf pos _ | fieldAccess pos _ _ | structLit pos _ _ => pos

mutual
inductive Stmt
  | expr (pos : At) (expr : Expr)
  | varDecl (pos : At) (name : List Char) (typeName : Option (List Char)) (init : Option Expr)
  | assign (pos : At) (target value : Expr)
  | print (pos : At) (value : Expr)
  | println (pos : At) (value : Expr)
  | return_ (pos : At) (value : Option Expr)
  | vmAsm (pos : At) (code : List Char)
  | if_ (pos : At) (cond : Expr) (thenBlock : List Stmt) (elseBlock : Option (List Stmt))
  | while_ (pos : At) (cond : Expr) (body : List Stmt)
  | for_ (pos : At) (init : Option Stmt) (cond : Option Expr) (step : Option Stmt) (body : List Stmt)
  | match_ (pos : At) (subject : Expr) (arms : List MatchArm)
  | break_ (pos : At)
  | continue_ (pos : At)
  | block (pos : At) (stmts : List Stmt)

/-- The catch-all arm names no variant. -/
inductive MatchArm
  | mk (pos : At) (variant : Option (List Char)) (bindings : List (List Char)) (body : List Stmt)
end

structure Param where
  pos : At
  name : List Char
  typeName : List Char

structure Function where
  pos : At
  name : List Char
  params : List Param
  returnType : Option (List Char)
  body : List Stmt
  typeParams : List (List Char)

structure FieldDef where
  pos : At
  name : List Char
  typeName : List Char

structure StructDef where
  pos : At
  name : List Char
  fields : List FieldDef
  typeParams : List (List Char)

structure VariantDef where
  pos : At
  name : List Char
  payload : List (List Char)

structure EnumDef where
  pos : At
  name : List Char
  variants : List VariantDef
  typeParams : List (List Char)

structure Include where
  pos : At
  path : Option LexLiteral

structure Program where
  includes : List Include := []
  functions : List Function := []
  structs : List StructDef := []
  enums : List EnumDef := []

end Parser

end QuinLang
