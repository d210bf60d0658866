import QuinLang.Compiler.Layout

/-! The text of a `vm_asm` block: straight-line, one instruction a line, its effect on
the operand stack checked as it is read. -/

namespace QuinLang

/-- `str.isspace`. -/
def isSpace (c : Char) : Bool :=
  let n := c.toNat
  (9 ≤ n && n ≤ 13) || (28 ≤ n && n ≤ 32) || n == 0x85 || n == 0xA0 || n == 0x1680
    || (0x2000 ≤ n && n ≤ 0x200A) || n == 0x2028 || n == 0x2029 || n == 0x202F || n == 0x205F || n == 0x3000

/-- A boundary of `str.splitlines`. -/
def isLineBreak (c : Char) : Bool :=
  let n := c.toNat
  (10 ≤ n && n ≤ 13) || (28 ≤ n && n ≤ 30) || n == 0x85 || n == 0x2028 || n == 0x2029

/-- The maximal runs of characters that `sep` does not hold of. -/
def splitRuns (sep : Char → Bool) : List Char → List (List Char)
  | [] => []
  | c :: cs =>
    if sep c then splitRuns sep cs
    else
      match cs, splitRuns sep cs with
      | [], _ => [[c]]
      | d :: _, runs =>
        if sep d then [c] :: runs
        else
          match runs with
          | [] => [[c]]
          | run :: runs => (c :: run) :: runs

def stripSpace (cs : List Char) : List Char :=
  ((cs.dropWhile isSpace).reverse.dropWhile isSpace).reverse

/-- A line without surrounding space, and without one trailing semicolon. -/
def asmLine (raw : List Char) : List Char :=
  let line := stripSpace raw
  if line.getLast? = some ';' then stripSpace line.dropLast else line

def digitValue (c : Char) : ℕ :=
  if '0' ≤ c ∧ c ≤ '9' then c.toNat - '0'.toNat
  else if 'a' ≤ c ∧ c ≤ 'f' then c.toNat - 'a'.toNat + 10
  else if 'A' ≤ c ∧ c ≤ 'F' then c.toNat - 'A'.toNat + 10
  else 16

/-- Digits with single underscores between them; `due` says that one must follow. -/
def parseDigits (base : ℕ) : Bool → ℕ → List Char → Option ℕ
  | due, acc, [] => if due then none else some acc
  | due, acc, c :: cs =>
    if c = '_' then if due then none else parseDigits base true acc cs
    else if digitValue c < base then parseDigits base false (acc * base + digitValue c) cs
    else none

def parsePrefixed (base : ℕ) (cs : List Char) : Option ℕ :=
  match cs with
  | '_' :: rest => parseDigits base true 0 rest
  | _ => parseDigits base true 0 cs

/-- A decimal of no more digits than the host reads. -/
def parseDecimal (cs : List Char) : Option ℕ :=
  if 4300 < cs.countP (· != '_') then none else parseDigits 10 true 0 cs

/-- An integer without its sign: a decimal with a leading zero must be zero. -/
def parseUnsigned (cs : List Char) : Option ℕ :=
  match cs with
  | '0' :: x :: rest =>
    if x = 'x' ∨ x = 'X' then parsePrefixed 16 rest
    else if x = 'o' ∨ x = 'O' then parsePrefixed 8 rest
    else if x = 'b' ∨ x = 'B' then parsePrefixed 2 rest
    else (parseDecimal cs).filter (· == 0)
  | _ => parseDecimal cs

def parseSigned (cs : List Char) : Option ℤ :=
  match cs with
  | '-' :: rest => (parseUnsigned rest).map fun n => -(n : ℤ)
  | '+' :: rest => (parseUnsigned rest).map fun n => (n : ℤ)
  | _ => (parseUnsigned cs).map fun n => (n : ℤ)

/-- The zeros of the decimal digits outside ASCII; the other nine of each follow it. -/
def DECIMAL_ZEROS : List ℕ :=
  [0x660, 0x6F0, 0x7C0, 0x966, 0x9E6, 0xA66, 0xAE6, 0xB66, 0xBE6, 0xC66, 0xCE6, 0xD66, 0xDE6, 0xE50, 0xED0,
   0xF20, 0x1040, 0x1090, 0x17E0, 0x1810, 0x1946, 0x19D0, 0x1A80, 0x1A90, 0x1B50, 0x1BB0, 0x1C40, 0x1C50,
   0xA620, 0xA8D0, 0xA900, 0xA9D0, 0xA9F0, 0xAA50, 0xABF0, 0xFF10, 0x104A0, 0x10D30, 0x11066, 0x110F0, 0x11136,
   0x111D0, 0x112F0, 0x11450, 0x114D0, 0x11650, 0x116C0, 0x11730, 0x118E0, 0x11950, 0x11C50, 0x11D50, 0x11DA0,
   0x11F50, 0x16A60, 0x16AC0, 0x16B50, 0x1D7CE, 0x1D7D8, 0x1D7E2, 0x1D7EC, 0x1D7F6, 0x1E140, 0x1E2F0, 0x1E4F0,
   0x1E950, 0x1FBF0]

/-- A decimal digit of any script as the one of ASCII. -/
def asciiDigit (c : Char) : Char :=
  match DECIMAL_ZEROS.find? fun first => first ≤ c.toNat && c.toNat ≤ first + 9 with
  | some first => Char.ofNat ('0'.toNat + (c.toNat - first))
  | none => c

/-- `int(text, 0)` -/
def parseInt (cs : List Char) : Option ℤ := parseSigned (cs.map asciiDigit)

example : parseInt ['-', Char.ofNat 0x660, 'x', Char.ofNat 0x661, 'f'] = some (-31) := by decide

/-- Each opcode with the operands it pops and the results it pushes. -/
def simpleOps : List (String × Instruction × ℕ × ℕ) :=
  [ ("add", .add, 2, 1)
  , ("sub", .sub, 2, 1)
  , ("mul", .mul, 2, 1)
  , ("div", .div, 2, 1)
  , ("neg", .neg, 1, 1)
  , ("not", .not, 1, 1)
  , ("cmp_eq", .cmpEq, 2, 1)
  , ("cmp_ne", .cmpNe, 2, 1)
  , ("cmp_lt", .cmpLt, 2, 1)
  , ("cmp_le", .cmpLe, 2, 1)
  , ("cmp_gt", .cmpGt, 2, 1)
  , ("cmp_ge", .cmpGe, 2, 1) ]

section Asm

variable (layout : FunctionLayout) (pos : Pos) (visible : List (String × Symbol))

def codegenError {α : Type} (pos : Pos) (message : String) : Except String α :=
  .error (s!"[{pos.line}:{pos.col}] " ++ message)

/-- The slot a `load_local` or `store_local` names. -/
def asmSlot (op name : String) : Except String ℕ :=
  match visible.lookup name with
  | none => codegenError pos s!"vm_asm {op}: unknown local '{name}'"
  | some sym =>
    match layout.slot? sym with
    | none => .error "KeyError"
    | some slot =>
      if slot.isArray then
        codegenError pos s!"vm_asm {op}: '{name}' is an array; index it explicitly"
      else if sym.type = .float then
        codegenError pos (s!"vm_asm {op}: '{name}' is a float, "
          ++ "which is two slots wide; vm_asm only moves one")
      else .ok slot.index

/-- The instruction a line stands for, with what it pops and pushes. -/
def asmInstruction (raw : List Char) (words : List String) : Except String (Instruction × ℕ × ℕ) :=
  match words with
  | ["push_int", arg] =>
    match parseInt arg.toList with
    | some v => .ok (.pushInt (v % 65536).toNat, 0, 1)
    | none => codegenError pos s!"vm_asm push_int expects an integer literal, got '{arg}'"
  | ["load_local", name] => do return (.loadLocal (← asmSlot layout pos visible "load_local" name), 0, 1)
  | ["store_local", name] => do return (.storeLocal (← asmSlot layout pos visible "store_local" name), 1, 0)
  | [op] =>
    match simpleOps.lookup op with
    | some entry => .ok entry
    | none => malformed
  | _ => malformed
where
  malformed : Except String (Instruction × ℕ × ℕ) :=
    codegenError pos s!"Unknown or malformed vm_asm instruction: '{String.ofList (stripSpace raw)}'"

/-- The instructions of the lines, `depth` values of the block on the stack. -/
def asmLines (live : List Symbol) : ℕ → List (List Char) → Except String (List Site)
  | depth, [] =>
    if depth ≠ 0 then
      codegenError pos (s!"vm_asm block leaves {depth} "
        ++ "value(s) on the operand stack; it must end balanced")
    else .ok []
  | depth, raw :: rest =>
    let line := asmLine raw
    if line = [] then asmLines live depth rest
    else do
      let words := (splitRuns isSpace line).map String.ofList
      let (instr, pops, pushes) ← asmInstruction layout pos visible raw words
      if depth < pops then
        codegenError pos (s!"vm_asm '{String.ofList line}' needs {pops} "
          ++ s!"value(s) on the operand stack but the block has {depth}")
      else
        let code ← asmLines live (depth - pops + pushes) rest
        return ⟨.instr instr, List.replicate depth .raw, live, .asm⟩ :: code

/-- `_emit_vm_asm`. -/
def emitVmAsm (live : List Symbol) (code : String) : Except String (List Site) :=
  asmLines layout pos visible live 0 (splitRuns isLineBreak code.toList)

end Asm

end QuinLang
