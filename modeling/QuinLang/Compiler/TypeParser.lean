import QuinLang.Compiler.Lexer
import QuinLang.Compiler.Spelling
import QuinLang.Lib.StateExcept

/-! The parser's reading of a type, whose closing brackets the lexer may have taken for the
start of an operator. Its state is the tokens that are left. -/

namespace QuinLang

section Cursor

inductive ParseStop
  | parseError (message : String) (line : ℕ) (col : ℤ)
  | indexError
  /-- a conversion of a token that has no value -/
  | typeError
  | outOfFuel
  deriving DecidableEq, Repr

abbrev Parse := StateT (List Token) (Except ParseStop)

/-- `_peek`. -/
def peekToken : Parse Token := fun tokens =>
  match tokens with
  | [] => .error .indexError
  | tok :: rest => .ok (tok, tok :: rest)

/-- `_check`. -/
def checkToken (type : TokenType) : Parse Bool := fun tokens =>
  match tokens with
  | [] => .error .indexError
  | tok :: rest => .ok (decide (tok.type ≠ .EOF ∧ tok.type = type), tok :: rest)

/-- `_match` of one type. -/
def matchToken (type : TokenType) : Parse Bool := fun tokens =>
  match tokens with
  | [] => .error .indexError
  | tok :: rest => if tok.type ≠ .EOF ∧ tok.type = type then .ok (true, rest) else .ok (false, tok :: rest)

/-- `_consume`. -/
def consume (type : TokenType) (msg : String) : Parse Token := fun tokens =>
  match tokens with
  | [] => .error .indexError
  | tok :: rest =>
    if tok.type ≠ .EOF ∧ tok.type = type then .ok (tok, rest)
    else .error (.parseError s!"{msg} (found '{ofChars tok.lexeme}')" tok.line tok.col)

end Cursor

section Types

/-- `_SPLIT_ON_CLOSE`: what is left of an operator that starts with a closing bracket. -/
def SPLIT_ON_CLOSE (type : TokenType) : Option (TokenType × List Char) :=
  match type with
  | .SHR => some (.GREATER, ['>'])
  | .GREATER_EQUAL => some (.EQUAL, ['='])
  | _ => none

/-- `_close_type_arguments`. -/
def closeTypeArguments : Parse Unit := fun tokens =>
  match tokens with
  | [] => .error .indexError
  | tok :: rest =>
    match SPLIT_ON_CLOSE tok.type with
    | some (kind, lexeme) => .ok ((), ⟨kind, lexeme, tok.line, tok.col + 1, none⟩ :: rest)
    | none => (do let _ ← consume .GREATER "Expected '>' after type arguments") (tok :: rest)

variable (typeName : Parse (List Char))

/-- The types after a first one, each after a comma. -/
def typeList : ℕ → List (List Char) → Parse (List (List Char))
  | 0, _ => throw .outOfFuel
  | fuel + 1, types => do
    if ← matchToken .COMMA then
      let type ← typeName
      typeList fuel (types ++ [type])
    else return types

/-- The parameter types, if the next token does not close them. -/
def paramTypes (fuel : ℕ) : Parse (List (List Char)) := do
  if ← checkToken .RIGHT_PAREN then return []
  else
    let type ← typeName
    typeList typeName fuel [type]

/-- The return type; one that is omitted is `void`. -/
def returnType : Parse (List Char) := do
  if ← matchToken .COLON then typeName else return ['v', 'o', 'i', 'd']

/-- `_function_type_name`. -/
def functionTypeName (fuel : ℕ) : Parse (List Char) := do
  let _ ← consume .LEFT_PAREN "Expected '(' after 'fn' in a type"
  let params ← paramTypes typeName fuel
  let _ ← consume .RIGHT_PAREN "Expected ')' after function type parameters"
  let ret ← returnType typeName
  return FUNC_PREFIX ++ (join params ++ ')' :: ':' :: ret)

/-- `_type_arguments`. -/
def typeArguments (fuel : ℕ) (base : List Char) : Parse (List Char) := do
  let type ← typeName
  let args ← typeList typeName fuel [type]
  closeTypeArguments
  return base ++ '<' :: (join args ++ ['>'])

/-- The types that are keywords. -/
def KEYWORD_TYPES : List (TokenType × List Char) :=
  [ (.INT, ['i', 'n', 't']), (.STR, ['s', 't', 'r']), (.FLOAT, ['f', 'l', 'o', 'a', 't']), (.VOID, ['v', 'o', 'i', 'd'])
  , (.PTR, ['p', 't', 'r']), (.HEAPPTR, ['h', 'e', 'a', 'p', 'p', 't', 'r']) ]

/-- The first of them that matches. -/
def keywordType : List (TokenType × List Char) → Parse (Option (List Char))
  | [] => return none
  | (type, name) :: types => do
    if ← matchToken type then return some name else keywordType types

/-- Whether a length follows, as it may after `int` only. -/
def matchLength (base : List Char) : Parse Bool :=
  if base = ['i', 'n', 't'] then matchToken .LEFT_BRACKET else pure false

/-- What may follow the name of a type: a length after `int`, and no other bracket. -/
def arraySuffix (base : List Char) : Parse (List Char) := do
  if ← matchLength base then
    let num ← consume .NUMBER "Expected array size after '['"
    let _ ← consume .RIGHT_BRACKET "Expected ']' after array size"
    match num.literal with
    | some (.int n) => return ['i', 'n', 't', '['] ++ (Nat.toDigits 10 n ++ [']'])
    | _ => throw .typeError
  else
    if ← checkToken .LEFT_BRACKET then
      let tok ← peekToken
      throw (.parseError s!"Only int arrays exist; '{ofChars base}[N]' is not a type" tok.line tok.col)
    else return base

/-- `_type_name`. -/
def parseTypeName : ℕ → Parse (List Char)
  | 0 => throw .outOfFuel
  | fuel + 1 => do
    if ← matchToken .FN then functionTypeName (parseTypeName fuel) fuel
    else
      match ← keywordType KEYWORD_TYPES with
      | some base => arraySuffix base
      | none => do
        let tok ← consume .IDENTIFIER "Expected type name"
        if ← matchToken .LESS then typeArguments (parseTypeName fuel) fuel tok.lexeme
        else arraySuffix tok.lexeme

end Types

end QuinLang
