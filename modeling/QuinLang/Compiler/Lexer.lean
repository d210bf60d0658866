import QuinLang.Bytecode

/-! From source text to tokens. What Python knows of characters, and of numerals too
long or too large for it, is the host's. -/

namespace QuinLang

inductive TokenType
  | LEFT_PAREN | RIGHT_PAREN | LEFT_BRACE | RIGHT_BRACE | LEFT_BRACKET | RIGHT_BRACKET | COMMA | DOT | MINUS | PLUS
  | SEMICOLON | SLASH | STAR | COLON | EQUAL | AMP | AT
  | BANG | TILDE | BANG_EQUAL | EQUAL_EQUAL | GREATER | GREATER_EQUAL | LESS | LESS_EQUAL | AND_AND | OR_OR | PERCENT
  | CARET | PIPE | SHL | SHR | FAT_ARROW | COLON_COLON
  | IDENTIFIER | STRING | NUMBER | FLOAT_NUMBER
  | FN | LET | RETURN | IF | ELSE | WHILE | FOR | BREAK | CONTINUE | TRUE | FALSE | NULL | INT | STR | FLOAT | VOID | PTR
  | HEAPPTR | PRINT | PRINTLN | VM_ASM | INCLUDE | STRUCT | ENUM | MATCH
  | EOF
  deriving DecidableEq, Repr

def KEYWORDS : List (String × TokenType) :=
  [ ("fn", .FN), ("let", .LET), ("return", .RETURN), ("if", .IF), ("else", .ELSE), ("while", .WHILE), ("for", .FOR)
  , ("break", .BREAK), ("continue", .CONTINUE), ("true", .TRUE), ("false", .FALSE), ("null", .NULL), ("int", .INT)
  , ("str", .STR), ("float", .FLOAT), ("void", .VOID), ("print", .PRINT), ("println", .PRINTLN), ("ptr", .PTR)
  , ("heapptr", .HEAPPTR), ("vm_asm", .VM_ASM), ("include", .INCLUDE), ("struct", .STRUCT), ("enum", .ENUM)
  , ("match", .MATCH) ]

/-- What follows a backslash in a string, and what it stands for. -/
def ESCAPES : List (Char × Char) :=
  [('n', '\n'), ('t', '\t'), ('r', '\r'), ('0', '\x00'), ('\\', '\\'), ('"', '"')]

/-- Each operator character, the second characters it takes, and its token alone. A second
slash starts a comment. -/
def OPERATORS : List (Char × List (Char × TokenType) × TokenType) :=
  [ ('(', [], .LEFT_PAREN), (')', [], .RIGHT_PAREN), ('{', [], .LEFT_BRACE), ('}', [], .RIGHT_BRACE)
  , ('[', [], .LEFT_BRACKET), (']', [], .RIGHT_BRACKET), (',', [], .COMMA), ('.', [], .DOT), ('-', [], .MINUS)
  , ('+', [], .PLUS), (';', [], .SEMICOLON), ('*', [], .STAR), ('%', [], .PERCENT), ('^', [], .CARET), ('~', [], .TILDE)
  , ('@', [], .AT), ('|', [('|', .OR_OR)], .PIPE), (':', [(':', .COLON_COLON)], .COLON), ('&', [('&', .AND_AND)], .AMP)
  , ('/', [], .SLASH), ('!', [('=', .BANG_EQUAL)], .BANG), ('=', [('=', .EQUAL_EQUAL), ('>', .FAT_ARROW)], .EQUAL)
  , ('<', [('<', .SHL), ('=', .LESS_EQUAL)], .LESS), ('>', [('>', .SHR), ('=', .GREATER_EQUAL)], .GREATER) ]

inductive LexLiteral
  | int (value : ℕ)
  /-- the text `float()` was given -/
  | float (text : List Char)
  | str (value : List Char)
  deriving DecidableEq, Repr

structure Token where
  type : TokenType
  lexeme : List Char
  line : ℕ
  col : ℤ
  literal : Option LexLiteral := none
  deriving DecidableEq, Repr

/-- A `LexError`, or the `ValueError` of a conversion. -/
inductive LexStop
  | lexError (message : String) (line : ℕ) (col : ℤ)
  | valueError
  | outOfFuel
  deriving DecidableEq, Repr

/-- Python's predicates on characters, the digits its number parsers take, and their
limits. On ASCII all is as expected. -/
structure Host where
  isdigit : Char → Bool
  isalpha : Char → Bool
  isalnum : Char → Bool
  /-- the value of a decimal digit; of the digits, only these are converted -/
  decimal : Char → Option ℕ
  /-- how many digits `int()` takes in base ten -/
  maxStrDigits : ℕ
  /-- `float(text)` is not finite or above `FLOAT32_MAX` -/
  floatTooLarge : List Char → Bool
  ascii_digit : ∀ c, c.toNat < 128 → isdigit c = c.isDigit
  ascii_alpha : ∀ c, c.toNat < 128 → isalpha c = c.isAlpha
  ascii_alnum : ∀ c, c.toNat < 128 → isalnum c = c.isAlphanum
  ascii_decimal : ∀ c, c.toNat < 128 → decimal c = if c.isDigit then some (c.toNat - 48) else none
  digit_alnum : ∀ c, isdigit c = true → isalnum c = true
  alpha_alnum : ∀ c, isalpha c = true → isalnum c = true
  decimal_digit : ∀ c, (decimal c).isSome = true → isdigit c = true

/-- The source from `current` on, and the position there. -/
structure Lexer where
  rest : List Char
  line : ℕ
  col : ℤ
  deriving DecidableEq, Repr

abbrev Scan := Except LexStop (Option Token × Lexer)

section Scanning

variable (H : Host)

def lexError {α : Type} (message : String) (line : ℕ) (col : ℤ) : Except LexStop α := .error (.lexError message line col)

def ofChars (cs : List Char) : String := String.ofList cs

/-- Of an identifier or of a keyword. -/
def Host.isWord (c : Char) : Bool := H.isalnum c || c == '_'

/-- Where `'a' <= ch.lower() <= 'f'`. -/
def isHexLetter (c : Char) : Bool := ('a' ≤ c && c ≤ 'f') || ('A' ≤ c && c ≤ 'F')

def Host.isHexDigit (c : Char) : Bool := H.isdigit c || isHexLetter c

def Host.hexValue (c : Char) : Option ℕ :=
  if 'a' ≤ c ∧ c ≤ 'f' then some (c.toNat - 'a'.toNat + 10)
  else if 'A' ≤ c ∧ c ≤ 'F' then some (c.toNat - 'A'.toNat + 10)
  else H.decimal c

/-- The value of the digits, if all of them have one. -/
def convert (digit : Char → Option ℕ) (base : ℕ) (cs : List Char) : Option ℕ :=
  (cs.mapM digit).map (List.foldl (fun acc d => acc * base + d) 0)

/-- `int(text)`. -/
def Host.int (cs : List Char) : Option ℕ := if cs.length ≤ H.maxStrDigits then convert H.decimal 10 cs else none

/-- `_add_token`: the position is reckoned back from the end of the lexeme. -/
def addToken (type : TokenType) (lexeme : List Char) (s : Lexer) (literal : Option LexLiteral) : Scan :=
  .ok (some ⟨type, lexeme, s.line, s.col - lexeme.length, literal⟩, s)

/-- `_string`, from the character after the quote. -/
def stringLoop (openLine : ℕ) (openCol : ℤ) : List Char → ℕ → ℤ → List Char → Except LexStop (List Char × Lexer)
  | [], _, _, _ => lexError "Unterminated string literal" openLine openCol
  | ch :: cs, line, col, value =>
    if ch = '"' then .ok (value, ⟨cs, line, col + 1⟩)
    else if ch = '\\' then
      match cs with
      | [] => lexError "Unterminated string literal" openLine openCol
      | esc :: cs =>
        let line' := if esc = '\n' then line + 1 else line
        let col' := if esc = '\n' then 1 else col + 2
        match ESCAPES.lookup esc with
        | none => lexError s!"Unknown escape sequence '\\{esc}' in string literal" line' (col' - 2)
        | some v => stringLoop openLine openCol cs line' col' (value ++ [v])
    else
      let line' := if ch = '\n' then line + 1 else line
      let col' := if ch = '\n' then 1 else col + 1
      if ch.toNat > 0xFF then
        lexError (s!"Character U+{hex ch.toNat} does not fit in a byte; " ++ "a str holds one byte per character")
          line' (col' - 1)
      else stringLoop openLine openCol cs line' col' (value ++ [ch])
where
  hex (n : ℕ) : String :=
    let digits := (Nat.toDigits 16 n).map Char.toUpper
    String.ofList (List.replicate (4 - digits.length) '0' ++ digits)

/-- `_check_trailing`. -/
def checkTrailing (lexeme : List Char) (s : Lexer) : Except LexStop Unit :=
  match s.rest with
  | [] => .ok ()
  | c :: _ =>
    if H.isWord c then
      lexError s!"Unexpected character '{c}' after numeric literal '{ofChars lexeme}'" s.line s.col
    else .ok ()

/-- `_check_range`. -/
def checkRange (value : ℕ) (lexeme : List Char) (s : Lexer) : Except LexStop Unit :=
  if value > 0xFFFF then
    lexError s!"Integer literal '{ofChars lexeme}' does not fit in 16 bits (max 65535 / 0xFFFF)" s.line (s.col - lexeme.length)
  else .ok ()

/-- The end of an int literal: what follows it, its value and the range. -/
def finishInt (value : Option ℕ) (lexeme : List Char) (s : Lexer) : Scan := do
  checkTrailing H lexeme s
  match value with
  | none => .error .valueError
  | some v =>
    checkRange v lexeme s
    addToken .NUMBER lexeme s (some (.int v))

def hexNumber (x : Char) (cs : List Char) (line : ℕ) (col : ℤ) : Scan :=
  let digits := cs.takeWhile H.isHexDigit
  let s : Lexer := ⟨cs.dropWhile H.isHexDigit, line, col + 2 + digits.length⟩
  let lexeme := '0' :: x :: digits
  if digits = [] then lexError "Hex literal has no digits after '0x'" s.line (s.col - lexeme.length)
  else finishInt H (convert H.hexValue 16 digits) lexeme s

/-- The part of a float literal from its dot on, the dot being followed by `cs`. -/
def floatNumber (whole cs : List Char) (line : ℕ) (col : ℤ) : Scan :=
  let digits := cs.takeWhile H.isdigit
  if digits = [] then lexError "Float literal needs at least one digit after '.'" line (col + whole.length)
  else do
    let lexeme := whole ++ '.' :: digits
    let s : Lexer := ⟨cs.dropWhile H.isdigit, line, col + lexeme.length⟩
    checkTrailing H lexeme s
    if (whole ++ digits).all fun c => (H.decimal c).isSome then
      if H.floatTooLarge lexeme then
        lexError (s!"Float literal '{ofChars lexeme}' does not fit in a 32-bit float " ++ "(max 3.40282e+38)")
          s.line (s.col - lexeme.length)
      else addToken .FLOAT_NUMBER lexeme s (some (.float lexeme))
    else .error .valueError

def decimalNumber (whole rest : List Char) (line : ℕ) (col : ℤ) : Scan :=
  match rest with
  | '.' :: cs => floatNumber H whole cs line col
  | _ => finishInt H (H.int whole) whole ⟨rest, line, col + whole.length⟩

/-- `_number`, at its first character. -/
def number (c : Char) (cs : List Char) (line : ℕ) (col : ℤ) : Scan :=
  match cs with
  | x :: cs' =>
    if c = '0' ∧ (x = 'x' ∨ x = 'X') then hexNumber H x cs' line col
    else decimalNumber H (c :: cs.takeWhile H.isdigit) (cs.dropWhile H.isdigit) line col
  | [] => decimalNumber H [c] [] line col

/-- `_identifier`. -/
def identifier (c : Char) (cs : List Char) (line : ℕ) (col : ℤ) : Scan :=
  let lexeme := c :: cs.takeWhile H.isWord
  addToken ((KEYWORDS.lookup (ofChars lexeme)).getD .IDENTIFIER) lexeme
    ⟨cs.dropWhile H.isWord, line, col + lexeme.length⟩ none

/-- One of the operators, with its second character if it takes the one that follows. -/
def operator (c : Char) (twos : List (Char × TokenType)) (one : TokenType) (cs : List Char) (line : ℕ) (col : ℤ) : Scan :=
  match cs with
  | d :: cs' =>
    match twos.lookup d with
    | some two => addToken two [c, d] ⟨cs', line, col + 2⟩ none
    | none => addToken one [c] ⟨cs, line, col + 1⟩ none
  | [] => addToken one [c] ⟨[], line, col + 1⟩ none

/-- `_scan_token`, at a character; what is skipped gives no token. -/
def scanToken (c : Char) (cs : List Char) (line : ℕ) (col : ℤ) : Scan :=
  if c = ' ' ∨ c = '\r' ∨ c = '\t' then .ok (none, ⟨cs, line, col + 1⟩)
  else if c = '\n' then .ok (none, ⟨cs, line + 1, 1⟩)
  else if c = '/' ∧ cs.head? = some '/' then
    let comment := c :: cs.takeWhile (· ≠ '\n')
    .ok (none, ⟨cs.dropWhile (· ≠ '\n'), line, col + comment.length⟩)
  else
    match OPERATORS.lookup c with
    | some (twos, one) => operator c twos one cs line col
    | none =>
      if c = '"' then do
        let (value, s) ← stringLoop line col cs line (col + 1) []
        addToken .STRING ((c :: cs).take ((c :: cs).length - s.rest.length)) s (some (.str value))
      else if H.isdigit c then number H c cs line col
      else if H.isalpha c ∨ c = '_' then identifier H c cs line col
      else lexError s!"Unexpected character '{c}'" line col

/-- The loop of `tokenize`. -/
def scanTokens : ℕ → Lexer → Except LexStop (List Token)
  | 0, _ => .error .outOfFuel
  | fuel + 1, s =>
    match s.rest with
    | [] => .ok [⟨.EOF, [], s.line, s.col, none⟩]
    | c :: cs => do
      let (token, s) ← scanToken H c cs s.line s.col
      return token.toList ++ (← scanTokens fuel s)

/-- `Lexer(source).tokenize()`, with a turn for each character and one for the end. -/
def tokenize (source : List Char) : Except LexStop (List Token) := scanTokens H (source.length + 1) ⟨source, 1, 1⟩

end Scanning

end QuinLang
