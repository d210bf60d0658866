import QuinLang.Compiler.Parser

/-! The parser's statements, declarations and program. -/

namespace QuinLang

namespace Parser

open Consuming (loop)

section VmAsm

/-- `str.isspace()` of a character. -/
def isspace (c : Char) : Bool :=
  let n := c.toNat
  (9 ≤ n && n ≤ 13) || (28 ≤ n && n ≤ 32) || n == 0x85 || n == 0xA0 || n == 0x1680 || (0x2000 ≤ n && n ≤ 0x200A) ||
    n == 0x2028 || n == 0x2029 || n == 0x202F || n == 0x205F || n == 0x3000

/-- `" ".join(parts).strip()`. -/
def asmLine (parts : List (List Char)) : List Char :=
  let line := [' '].intercalate parts
  ((line.dropWhile isspace).reverse.dropWhile isspace).reverse

/-- The lines of an asm block so far, and the parts of the one begun. -/
structure AsmText where
  lines : List (List Char) := []
  parts : List (List Char) := []

def AsmText.add (s : AsmText) (tok : Token) : AsmText :=
  if tok.type = .SEMICOLON then
    let line := asmLine (s.parts ++ [tok.lexeme])
    ⟨if line = [] then s.lines else s.lines ++ [line], []⟩
  else ⟨s.lines, s.parts ++ [tok.lexeme]⟩

/-- A turn of the loop of `_vm_asm_block`: it takes any token but the closing brace and the
end of the file. -/
def vmAsmTurn (s : AsmText) : Parse (AsmText ⊕ AsmText) := do
  if ← checkToken .RIGHT_BRACE then return .inr s
  else if let some tok ← advance then return .inl (s.add tok)
  else return .inr s

/-- `_vm_asm_block`. -/
def vmAsmBlock (fuel : ℕ) (kw : Token) : Parse Stmt := do
  let _ ← consume .LEFT_BRACE "Expected '\x7b' after 'vm_asm'"
  let s ← loop .outOfFuel vmAsmTurn fuel {}
  if s.parts ≠ [] then refuse s!"Expected ';' after vm_asm instruction '{ofChars (asmLine s.parts)}'" kw
  else
    let _ ← consume .RIGHT_BRACE "Expected '\x7d' after vm_asm block"
    return .vmAsm (posOf kw) (['\n'].intercalate s.lines)

end VmAsm

section Statements

variable (fuel : ℕ)

/-- What may be left out before a token of this type. -/
def exprUnless (type : TokenType) : Parse (Option Expr) := do
  if ← checkToken type then return none
  else
    let value ← expression fuel
    return some value

/-- An expression in parentheses. -/
def inParens (opening closing : String) : Parse Expr := do
  let _ ← consume .LEFT_PAREN opening
  let expr ← expression fuel
  let _ ← consume .RIGHT_PAREN closing
  return expr

/-- What `print` and `println` are followed by. -/
def printed (keyword : String) : Parse Expr := do
  let expr ← inParens fuel s!"Expected '(' after '{keyword}'" s!"Expected ')' after {keyword} expression"
  let _ ← consume .SEMICOLON s!"Expected ';' after {keyword} statement"
  return expr

def optionalType : Parse (Option (List Char)) := do
  if ← matchToken .COLON then
    let type ← parseTypeName fuel
    return some type
  else return none

def initializer : Parse (Option Expr) := do
  if ← matchToken .EQUAL then
    let init ← expression fuel
    return some init
  else return none

/-- `_var_decl`. -/
def varDecl : Parse Stmt := do
  let name ← consume .IDENTIFIER "Expected variable name"
  let type ← optionalType fuel
  let init ← initializer fuel
  let _ ← consume .SEMICOLON "Expected ';' after variable declaration"
  return .varDecl (posOf name) name.lexeme type init

/-- `_assign_or_expr`. -/
def assignOrExpr : Parse Stmt := do
  let expr ← expression fuel
  if let some eq ← matchAny [.EQUAL] then
    let value ← expression fuel
    return .assign (posOf eq) expr value
  else return .expr expr.pos expr

/-- `_for_init`. -/
def forInit : Parse (Option Stmt) := do
  if ← matchToken .SEMICOLON then return none
  else if ← matchToken .LET then
    let decl ← varDecl fuel
    return some decl
  else
    let stmt ← assignOrExpr fuel
    let _ ← consume .SEMICOLON "Expected ';' after for-loop initializer"
    return some stmt

/-- `_for_step`. -/
def forStep : Parse (Option Stmt) := do
  if ← checkToken .RIGHT_PAREN then return none
  else
    let step ← assignOrExpr fuel
    return some step

/-- An expression or an assignment, as a statement. -/
def exprStmt : Parse Stmt := do
  let expr ← expression fuel
  if let some eq ← matchAny [.EQUAL] then
    let value ← expression fuel
    let _ ← consume .SEMICOLON "Expected ';' after assignment"
    return .assign (posOf eq) expr value
  else
    let _ ← consume .SEMICOLON "Expected ';' after expression"
    return .expr expr.pos expr

variable (block : Parse (List Stmt))

/-- The variant of an arm; the catch-all is the identifier `_`. -/
def armVariant (tok : Token) : Parse (Option (List Char)) := do
  if tok.lexeme = ['_'] then return none
  else
    let variant ← qualified tok
    return some variant

def bindingName : Parse (List Char) := do
  let b ← consume .IDENTIFIER "Expected a name to bind"
  return b.lexeme

def armBindings (tok : Token) (variant : Option (List Char)) : Parse (List (List Char)) := do
  if ← matchToken .LEFT_PAREN then
    if variant = none then refuse "'_' cannot bind a payload" tok
    else
      let bindings ← commaList fuel bindingName
      let _ ← consume .RIGHT_PAREN "Expected ')' after arm bindings"
      return bindings
  else return []

/-- `_match_arm`. -/
def matchArm : Parse MatchArm := do
  let tok ← consume .IDENTIFIER "Expected a variant name or '_'"
  let variant ← armVariant tok
  let bindings ← armBindings fuel tok variant
  let _ ← consume .FAT_ARROW "Expected '=>' after the arm pattern"
  let body ← block
  return .mk (posOf tok) variant bindings body

/-- `_match_stmt`. -/
def matchStmt (kw : Token) : Parse Stmt := do
  let subject ← inParens fuel "Expected '(' after 'match'" "Expected ')' after match subject"
  let _ ← consume .LEFT_BRACE "Expected '\x7b' before match arms"
  let arms ← items fuel (matchArm fuel block)
  let _ ← consume .RIGHT_BRACE "Expected '\x7d' after match arms"
  if arms.isEmpty then refuse "A match needs at least one arm" kw else return .match_ (posOf kw) subject arms

def elseBlock : Parse (Option (List Stmt)) := do
  if ← matchToken .ELSE then
    let stmts ← block
    return some stmts
  else return none

def ifStmt (tok : Token) : Parse Stmt := do
  let cond ← inParens fuel "Expected '(' after 'if'" "Expected ')' after condition"
  let thenBlock ← block
  let otherwise ← elseBlock block
  return .if_ (posOf tok) cond thenBlock otherwise

def whileStmt (tok : Token) : Parse Stmt := do
  let cond ← inParens fuel "Expected '(' after 'while'" "Expected ')' after condition"
  let body ← block
  return .while_ (posOf tok) cond body

def forStmt (tok : Token) : Parse Stmt := do
  let _ ← consume .LEFT_PAREN "Expected '(' after 'for'"
  let init ← forInit fuel
  let cond ← exprUnless fuel .SEMICOLON
  let _ ← consume .SEMICOLON "Expected ';' after for-loop condition"
  let step ← forStep fuel
  let _ ← consume .RIGHT_PAREN "Expected ')' after for-loop clauses"
  let body ← block
  return .for_ (posOf tok) init cond step body

def returnStmt (tok : Token) : Parse Stmt := do
  let value ← exprUnless fuel .SEMICOLON
  let _ ← consume .SEMICOLON "Expected ';' after return value"
  return .return_ (posOf tok) value

/-- `_statement`. -/
def statement : Parse Stmt := do
  if let some tok ← matchAny [.PRINT] then
    let expr ← printed fuel "print"
    return .print (posOf tok) expr
  else if let some tok ← matchAny [.PRINTLN] then
    let expr ← printed fuel "println"
    return .println (posOf tok) expr
  else if let some kw ← matchAny [.VM_ASM] then vmAsmBlock fuel kw
  else if let some tok ← matchAny [.RETURN] then returnStmt fuel tok
  else if let some kw ← matchAny [.MATCH] then matchStmt fuel block kw
  else if let some tok ← matchAny [.IF] then ifStmt fuel block tok
  else if let some tok ← matchAny [.WHILE] then whileStmt fuel block tok
  else if let some tok ← matchAny [.FOR] then forStmt fuel block tok
  else if let some tok ← matchAny [.BREAK] then
    let _ ← consume .SEMICOLON "Expected ';' after 'break'"
    return .break_ (posOf tok)
  else if let some tok ← matchAny [.CONTINUE] then
    let _ ← consume .SEMICOLON "Expected ';' after 'continue'"
    return .continue_ (posOf tok)
  else if ← checkToken .LEFT_BRACE then
    let tok ← peekToken
    let stmts ← block
    return .block (posOf tok) stmts
  else exprStmt fuel

/-- `_declaration`. -/
def declaration : Parse Stmt := do
  if ← matchToken .LET then varDecl fuel else statement fuel block

end Statements

/-- `_block`; the first argument is how deep blocks may be nested. -/
def block (fuel : ℕ) : ℕ → Parse (List Stmt)
  | 0 => throw .outOfFuel
  | depth + 1 => do
    let _ ← consume .LEFT_BRACE "Expected '\x7b' to start block"
    let stmts ← items fuel (declaration fuel (block fuel depth))
    let _ ← consume .RIGHT_BRACE "Expected '\x7d' after block"
    return stmts

section Declarations

variable (fuel : ℕ)

/-- A turn of the loop of `_type_parameters`. -/
def typeParameterTurn (names : List (List Char)) : Parse (List (List Char) ⊕ List (List Char)) := do
  let tok ← consume .IDENTIFIER "Expected a type parameter name"
  if names.contains tok.lexeme then refuse s!"Duplicate type parameter '{ofChars tok.lexeme}'" tok
  else if ← matchToken .COMMA then return .inl (names ++ [tok.lexeme])
  else return .inr (names ++ [tok.lexeme])

/-- `_type_parameters`. -/
def typeParameters : Parse (List (List Char)) := do
  if ← matchToken .LESS then
    let names ← loop .outOfFuel typeParameterTurn fuel []
    closeTypeArguments
    return names
  else return []

def fieldDef : Parse FieldDef := do
  let f ← consume .IDENTIFIER "Expected field name"
  let _ ← consume .COLON "Expected ':' after field name"
  let type ← parseTypeName fuel
  return ⟨posOf f, f.lexeme, type⟩

/-- `_struct_def`. -/
def structDef : Parse StructDef := do
  let _ ← consume .STRUCT "Expected 'struct'"
  let name ← consume .IDENTIFIER "Expected struct name"
  let typeParams ← typeParameters fuel
  let _ ← consume .LEFT_BRACE "Expected '\x7b' after struct name"
  let fields ← bracedList fuel (fieldDef fuel)
  let _ ← consume .RIGHT_BRACE "Expected '\x7d' after struct fields"
  return ⟨posOf name, name.lexeme, fields, typeParams⟩

def payload (variant : Token) : Parse (List (List Char)) := do
  if ← matchToken .LEFT_PAREN then
    if ← checkToken .RIGHT_PAREN then
      let tok ← peekToken
      refuse (s!"Variant '{ofChars variant.lexeme}' has an empty payload list; " ++
        s!"write '{ofChars variant.lexeme}' without parentheses") tok
    else
      let types ← commaList fuel (parseTypeName fuel)
      let _ ← consume .RIGHT_PAREN "Expected ')' after variant payload"
      return types
  else return []

def variantDef : Parse VariantDef := do
  let v ← consume .IDENTIFIER "Expected variant name"
  let types ← payload fuel v
  return ⟨posOf v, v.lexeme, types⟩

/-- `_enum_def`. -/
def enumDef : Parse EnumDef := do
  let _ ← consume .ENUM "Expected 'enum'"
  let name ← consume .IDENTIFIER "Expected enum name"
  let typeParams ← typeParameters fuel
  let _ ← consume .LEFT_BRACE "Expected '\x7b' after enum name"
  let variants ← bracedList fuel (variantDef fuel)
  let _ ← consume .RIGHT_BRACE "Expected '\x7d' after enum variants"
  return ⟨posOf name, name.lexeme, variants, typeParams⟩

/-- `_include`, the keyword taken. -/
def include_ : Parse Include := do
  let path ← consume .STRING "Expected path string after 'include'"
  let _ ← consume .SEMICOLON "Expected ';' after include path"
  return ⟨posOf path, path.literal⟩

def param : Parse Param := do
  let p ← consume .IDENTIFIER "Expected parameter name"
  let _ ← consume .COLON "Expected ':' after parameter name"
  let type ← parseTypeName fuel
  return ⟨posOf p, p.lexeme, type⟩

def params : Parse (List Param) := do
  if ← checkToken .RIGHT_PAREN then return [] else commaList fuel (param fuel)

/-- `_function`. -/
def function : Parse Function := do
  let _ ← consume .FN "Expected 'fn' at function start"
  let name ← consume .IDENTIFIER "Expected function name"
  let typeParams ← typeParameters fuel
  let _ ← consume .LEFT_PAREN "Expected '(' after function name"
  let ps ← params fuel
  let _ ← consume .RIGHT_PAREN "Expected ')' after parameters"
  let ret ← optionalType fuel
  let body ← block fuel fuel
  return ⟨posOf name, name.lexeme, ps, ret, body, typeParams⟩

/-- A turn of the loop over the includes. -/
def includeTurn (includes : List Include) : Parse (List Include ⊕ List Include) := do
  if ← matchToken .INCLUDE then
    let i ← include_
    return .inl (includes ++ [i])
  else return .inr includes

/-- A turn of the loop over the other declarations. -/
def declarationTurn (p : Program) : Parse (Program ⊕ Program) := do
  if ← isAtEnd then return .inr p
  else if ← checkToken .STRUCT then
    let s ← structDef fuel
    return .inl { p with structs := p.structs ++ [s] }
  else if ← checkToken .ENUM then
    let e ← enumDef fuel
    return .inl { p with enums := p.enums ++ [e] }
  else
    let f ← function fuel
    return .inl { p with functions := p.functions ++ [f] }

def program : Parse Program := do
  let includes ← loop .outOfFuel includeTurn fuel []
  loop .outOfFuel (declarationTurn fuel) fuel { includes := includes }

end Declarations

/-- `Parser(tokens).parse()`, and the tokens from the cursor on. -/
def parse (tokens : List Token) : Except ParseStop (Program × List Token) := program tokens.length tokens

end Parser

end QuinLang
