import QuinLang.Lib.Consuming
import QuinLang.Compiler.ParseTree
import QuinLang.Compiler.TypeParser

/-! The parser, procedure by procedure. Each loop has a turn of its own; the fuel of a
loop or of a recursion is the number of tokens. -/

namespace QuinLang

namespace Parser

open Consuming (loop)

section Cursor

/-- `_match`, and the token it takes (`_previous`). -/
def matchAny (types : List TokenType) : Parse (Option Token) := fun tokens =>
  match tokens with
  | [] => .error .indexError
  | tok :: rest => if tok.type ≠ .EOF ∧ tok.type ∈ types then .ok (some tok, rest) else .ok (none, tok :: rest)

/-- `_check_next`. -/
def checkNext (type : TokenType) : Parse Bool := fun tokens =>
  match tokens with
  | _ :: next :: _ => .ok (decide (next.type = type), tokens)
  | _ => .ok (false, tokens)

/-- `_is_at_end`. -/
def isAtEnd : Parse Bool := fun tokens =>
  match tokens with
  | [] => .error .indexError
  | tok :: rest => .ok (decide (tok.type = .EOF), tok :: rest)

/-- `_advance`, unless the parser is at its end. -/
def advance : Parse (Option Token) := fun tokens =>
  match tokens with
  | [] => .error .indexError
  | tok :: rest => if tok.type = .EOF then .ok (none, tok :: rest) else .ok (some tok, rest)

def posOf (tok : Token) : At := ⟨tok.line, tok.col⟩

def refuse {α : Type} (message : String) (tok : Token) : Parse α := throw (.parseError message tok.line tok.col)

end Cursor

section Lists

variable {α : Type}

/-- A turn of `while not check('}'): items.append(item())`. -/
def itemTurn (item : Parse α) (items : List α) : Parse (List α ⊕ List α) := do
  if ← checkToken .RIGHT_BRACE then return .inr items
  else
    let i ← item
    return .inl (items ++ [i])

/-- A turn of a list that goes on after a comma. -/
def commaTurn (item : Parse α) (items : List α) : Parse (List α ⊕ List α) := do
  let i ← item
  if ← matchToken .COMMA then return .inl (items ++ [i]) else return .inr (items ++ [i])

/-- The same between braces, where a comma may be the last. -/
def bracedTurn (item : Parse α) (items : List α) : Parse (List α ⊕ List α) := do
  if ← checkToken .RIGHT_BRACE then return .inr items else commaTurn item items

variable (fuel : ℕ)

def items (item : Parse α) : Parse (List α) := loop .outOfFuel (itemTurn item) fuel []

def commaList (item : Parse α) : Parse (List α) := loop .outOfFuel (commaTurn item) fuel []

def bracedList (item : Parse α) : Parse (List α) := loop .outOfFuel (bracedTurn item) fuel []

/-- `_qualified`. -/
def qualified (first : Token) : Parse (List Char) := do
  let _ ← consume .COLON_COLON "Expected '::'"
  let second ← consume .IDENTIFIER "Expected a variant name after '::'"
  if ← checkToken .COLON_COLON then
    let tok ← peekToken
    refuse (s!"'{ofChars first.lexeme}::{ofChars second.lexeme}::' is not a path; a variant is " ++
      "named by its enum and nothing further") tok
  else return first.lexeme ++ [':', ':'] ++ second.lexeme

end Lists

section Expressions

variable (fuel : ℕ) (expression : Parse Expr)

def arguments : Parse (List Expr) := do
  if ← checkToken .RIGHT_PAREN then return [] else commaList fuel expression

/-- `_call_arguments`. -/
def callArguments : Parse (List Expr) := do
  let args ← arguments fuel expression
  let _ ← consume .RIGHT_PAREN "Expected ')' after arguments"
  return args

def fieldInit : Parse FieldInit := do
  let f ← consume .IDENTIFIER "Expected field name in struct literal"
  let _ ← consume .COLON "Expected ':' after field name"
  let value ← expression
  return .mk (posOf f) f.lexeme value

/-- `_struct_literal`. -/
def structLiteral (name : List Char) (pos : At) : Parse Expr := do
  let _ ← consume .LEFT_BRACE "Expected '\x7b' to start struct literal"
  let inits ← bracedList fuel (fieldInit expression)
  let _ ← consume .RIGHT_BRACE "Expected '\x7d' after struct literal fields"
  return .structLit pos name inits

/-- What an identifier starts: a qualified name, unless the `::` is followed by type
arguments, a struct literal, or nothing. -/
def primaryName (tok : Token) : Parse Expr := do
  if (← checkToken .COLON_COLON) && !(← checkNext .LESS) then
    let name ← qualified tok
    return .identifier (posOf tok) name
  else if ← checkToken .LEFT_BRACE then structLiteral fuel expression tok.lexeme (posOf tok)
  else return .identifier (posOf tok) tok.lexeme

/-- `_primary`. -/
def primary : Parse Expr := do
  if let some tok ← matchAny [.FALSE] then return .literal (posOf tok) (.bool false)
  else if let some tok ← matchAny [.TRUE] then return .literal (posOf tok) (.bool true)
  else if let some tok ← matchAny [.NULL] then return .literal (posOf tok) .null
  else if let some tok ← matchAny [.NUMBER] then return .literal (posOf tok) (.token tok.literal)
  else if let some tok ← matchAny [.FLOAT_NUMBER] then return .literal (posOf tok) (.token tok.literal)
  else if let some tok ← matchAny [.STRING] then return .literal (posOf tok) (.token tok.literal)
  else if let some tok ← matchAny [.IDENTIFIER] then primaryName fuel expression tok
  else if ← matchToken .LEFT_PAREN then
    let expr ← expression
    let _ ← consume .RIGHT_PAREN "Expected ')' after expression"
    return expr
  else
    let tok ← peekToken
    refuse "Expected expression" tok

/-- Type arguments written out, the `::` taken: of a call or of a struct literal. -/
def turbofish (pos : At) (name : List Char) : Parse Expr := do
  let _ ← consume .LESS "Expected '<' after '::'"
  let type ← parseTypeName fuel
  let types ← typeList (parseTypeName fuel) fuel [type]
  closeTypeArguments
  if ← checkToken .LEFT_BRACE then structLiteral fuel expression (name ++ '<' :: (join types ++ ['>'])) pos
  else
    let paren ← consume .LEFT_PAREN "Expected '(' or '\x7b' after type arguments"
    let args ← callArguments fuel expression
    return .call (posOf paren) name args none types

/-- What any expression may be followed by. -/
def suffix (expr : Expr) : Parse (Expr ⊕ Expr) := do
  if let some bracket ← matchAny [.LEFT_BRACKET] then
    let index ← expression
    let _ ← consume .RIGHT_BRACKET "Expected ']' after index expression"
    return .inl (.index (posOf bracket) expr index)
  else if ← matchToken .DOT then
    let field ← consume .IDENTIFIER "Expected field name after '.'"
    return .inl (.fieldAccess (posOf field) expr field.lexeme)
  else return .inr expr

/-- A call through a name or a field, whose name is the callee. -/
def callSuffix (expr : Expr) (callee : List Char) (receiver : Option Expr) : Parse (Expr ⊕ Expr) := do
  if let some paren ← matchAny [.LEFT_PAREN] then
    let args ← callArguments fuel expression
    return .inl (.call (posOf paren) callee args receiver [])
  else suffix expression expr

/-- A turn of the loop of `_call`. -/
def callTurn (expr : Expr) : Parse (Expr ⊕ Expr) :=
  match expr with
  | .identifier pos name => do
    if ← matchToken .COLON_COLON then
      let call ← turbofish fuel expression pos name
      return .inl call
    else callSuffix fuel expression expr name none
  | .fieldAccess _ _ field => callSuffix fuel expression expr field (some expr)
  | _ => suffix expression expr

/-- `_call`. -/
def call : Parse Expr := do
  let expr ← primary fuel expression
  loop .outOfFuel (callTurn fuel expression) fuel expr

/-- `_unary`. -/
def unary : ℕ → Parse Expr
  | 0 => throw .outOfFuel
  | depth + 1 => do
    if let some tok ← matchAny [.AT] then
      let target ← unary depth
      return .addressOf (posOf tok) target
    else if let some tok ← matchAny [.BANG, .MINUS, .TILDE] then
      let right ← unary depth
      return .unary (posOf tok) tok.lexeme right
    else call fuel expression

/-- A turn of one of the loops over binary operators. -/
def binaryTurn (types : List TokenType) (operand : Parse Expr) (left : Expr) : Parse (Expr ⊕ Expr) := do
  if let some op ← matchAny types then
    let right ← operand
    return .inl (.binary (posOf op) left op.lexeme right)
  else return .inr left

/-- The operators of one level, from left to right. -/
def binaryLevel (types : List TokenType) (operand : Parse Expr) : Parse Expr := do
  let expr ← operand
  loop .outOfFuel (binaryTurn types operand) fuel expr

/-- `_factor`. -/
def factor : Parse Expr := binaryLevel fuel [.STAR, .SLASH, .PERCENT] (unary fuel expression fuel)

/-- `_term`. -/
def term : Parse Expr := binaryLevel fuel [.PLUS, .MINUS] (factor fuel expression)

/-- `_shift`. -/
def shift : Parse Expr := binaryLevel fuel [.SHL, .SHR] (term fuel expression)

/-- `_comparison`. -/
def comparison : Parse Expr := binaryLevel fuel [.GREATER, .GREATER_EQUAL, .LESS, .LESS_EQUAL] (shift fuel expression)

/-- `_equality`. -/
def equality : Parse Expr := binaryLevel fuel [.EQUAL_EQUAL, .BANG_EQUAL] (comparison fuel expression)

/-- `_bitand`. -/
def bitand : Parse Expr := binaryLevel fuel [.AMP] (equality fuel expression)

/-- `_bitxor`. -/
def bitxor : Parse Expr := binaryLevel fuel [.CARET] (bitand fuel expression)

/-- `_bitor`. -/
def bitor : Parse Expr := binaryLevel fuel [.PIPE] (bitxor fuel expression)

/-- `_and`. -/
def and_ : Parse Expr := binaryLevel fuel [.AND_AND] (bitor fuel expression)

/-- `_or`. -/
def or_ : Parse Expr := binaryLevel fuel [.OR_OR] (and_ fuel expression)

end Expressions

/-- `_expression`. -/
def expression : ℕ → Parse Expr
  | 0 => throw .outOfFuel
  | fuel + 1 => or_ (fuel + 1) (expression fuel)

end Parser

end QuinLang
