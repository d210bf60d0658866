import QuinLang.Compiler.Lexer

/-! The lexical grammar: which stretches of a text are lexemes, given what follows them.
At each point of a text there is at most one, and it is what the scanner takes. -/

namespace QuinLang

section Grammar

/-- Where a character leaves the line and column. -/
def advance (p : ℕ × ℤ) (c : Char) : ℕ × ℤ := if c = '\n' then (p.1 + 1, 1) else (p.1, p.2 + 1)

def advanceAll (p : ℕ × ℤ) (cs : List Char) : ℕ × ℤ := cs.foldl advance p

variable (H : Host)

/-- Nothing that would go on with a word or a numeral. -/
def Host.Ends (rest : List Char) : Prop := ∀ c ∈ rest.head?, H.isWord c = false

/-- What a numeral comes to. -/
inductive NumeralValue
  /-- it has a digit, or too many, for the conversion -/
  | unconvertible
  | tooLarge
  | value (type : TokenType) (literal : LexLiteral)

def intValue : Option ℕ → NumeralValue
  | none => .unconvertible
  | some v => if v > 0xFFFF then .tooLarge else .value .NUMBER (.int v)

def Host.floatValue (whole digits : List Char) : NumeralValue :=
  if (whole ++ digits).all fun c => (H.decimal c).isSome then
    if H.floatTooLarge (whole ++ '.' :: digits) then .tooLarge else .value .FLOAT_NUMBER (.float (whole ++ '.' :: digits))
  else .unconvertible

/-- A numeral and what follows it. -/
inductive Numeral : List Char → List Char → NumeralValue → Prop
  | hex {x : Char} {ds rest : List Char} : x = 'x' ∨ x = 'X' → ds ≠ [] → (∀ d ∈ ds, H.isHexDigit d = true) → H.Ends rest →
      Numeral ('0' :: x :: ds) rest (intValue (convert H.hexValue 16 ds))
  | int {ds rest : List Char} : ds ≠ [] → (∀ d ∈ ds, H.isdigit d = true) → H.Ends rest → rest.head? ≠ some '.' →
      Numeral ds rest (intValue (H.int ds))
  | float {ws ds rest : List Char} : ws ≠ [] → (∀ d ∈ ws, H.isdigit d = true) → ds ≠ [] → (∀ d ∈ ds, H.isdigit d = true) →
      H.Ends rest → Numeral (ws ++ '.' :: ds) rest (H.floatValue ws ds)

/-- What stands between the quotes of a string literal. -/
inductive StringBody : List Char → Prop
  | nil : StringBody []
  | char {c : Char} {body : List Char} : c ≠ '"' → c ≠ '\\' → c.toNat ≤ 0xFF → StringBody body → StringBody (c :: body)
  | escape {e v : Char} {body : List Char} : ESCAPES.lookup e = some v → StringBody body → StringBody ('\\' :: e :: body)

/-- White space or a comment. -/
inductive Skipped : List Char → List Char → Prop
  | blank {c : Char} {rest : List Char} : c ∈ [' ', '\r', '\t', '\n'] → Skipped [c] rest
  | comment {body rest : List Char} : '\n' ∉ body → (∀ c ∈ rest.head?, c = '\n') → Skipped ('/' :: '/' :: body) rest

/-- A string literal. -/
inductive StringLiteral : List Char → Prop
  | mk {body : List Char} : StringBody body → StringLiteral ('"' :: (body ++ ['"']))

/-- A lexeme that is no string literal. -/
inductive PlainLexeme : List Char → List Char → Prop
  | one {c : Char} {twos : List (Char × TokenType)} {t : TokenType} {rest : List Char} : OPERATORS.lookup c = some (twos, t) →
      (∀ d ∈ rest.head?, twos.lookup d = none) → ¬ (c = '/' ∧ rest.head? = some '/') → PlainLexeme [c] rest
  | two {c d : Char} {twos : List (Char × TokenType)} {t t' : TokenType} {rest : List Char} :
      OPERATORS.lookup c = some (twos, t) → twos.lookup d = some t' → PlainLexeme [c, d] rest
  | number {lexeme rest : List Char} {type : TokenType} {literal : LexLiteral} :
      Numeral H lexeme rest (.value type literal) → PlainLexeme lexeme rest
  | word {c : Char} {cs rest : List Char} : H.isalpha c = true ∨ c = '_' → H.isdigit c = false →
      (∀ d ∈ cs, H.isWord d = true) → H.Ends rest → PlainLexeme (c :: cs) rest

/-- The lexical elements: what the text is cut into. -/
inductive Lexeme (lexeme rest : List Char) : Prop
  | skipped : Skipped lexeme rest → Lexeme lexeme rest
  | string : StringLiteral lexeme → Lexeme lexeme rest
  | plain : PlainLexeme H lexeme rest → Lexeme lexeme rest

/-- `before` is cut into lexical elements, with `after` following. -/
inductive Lexical : List Char → List Char → Prop
  | nil (after : List Char) : Lexical [] after
  | cons {lexeme before after : List Char} : Lexeme H lexeme (before ++ after) → Lexical before after →
      Lexical (lexeme ++ before) after

end Grammar

section Runs

variable {p : Char → Bool} {ds rest : List Char}

theorem takeWhile_run (h : ∀ d ∈ ds, p d = true) (hrest : ∀ c ∈ rest.head?, p c = false) : (ds ++ rest).takeWhile p = ds := by
  rw [List.takeWhile_append_of_pos h]
  cases rest with
  | nil => simp
  | cons c cs => simp [hrest c rfl]

theorem dropWhile_run (h : ∀ d ∈ ds, p d = true) (hrest : ∀ c ∈ rest.head?, p c = false) : (ds ++ rest).dropWhile p = rest := by
  rw [List.dropWhile_append_of_pos h]
  cases rest with
  | nil => rfl
  | cons c cs => simp [hrest c rfl]

theorem head?_dropWhile_not (cs : List Char) : ∀ c ∈ (cs.dropWhile p).head?, p c = false := by
  intro c hc
  have := List.head?_dropWhile_not p cs
  rw [Option.mem_def.mp hc] at this
  simpa using this

/-- A run with no line break in it moves along the line. -/
theorem advanceAll_of_notMem {p : ℕ × ℤ} {cs : List Char} (h : '\n' ∉ cs) : advanceAll p cs = (p.1, p.2 + cs.length) := by
  induction cs generalizing p with
  | nil => simp [advanceAll]
  | cons c cs ih =>
    have hc : c ≠ '\n' := fun hc => h (hc ▸ List.mem_cons_self)
    have := ih (p := advance p c) (fun hm => h (List.mem_cons_of_mem _ hm))
    rw [advanceAll, List.foldl_cons]
    rw [advanceAll] at this
    rw [this, advance, if_neg hc, List.length_cons]
    push_cast
    rw [add_assoc, add_comm (1 : ℤ)]

/-- A run with a line break in it ends on a later line. -/
theorem line_lt_advanceAll {p : ℕ × ℤ} {cs : List Char} (h : '\n' ∈ cs) : p.1 < (advanceAll p cs).1 := by
  have hle : ∀ (cs : List Char) (p : ℕ × ℤ), p.1 ≤ (advanceAll p cs).1 := by
    intro cs
    induction cs with
    | nil => exact fun p => Nat.le_refl _
    | cons c cs ih =>
      intro p
      refine le_trans ?_ (ih (advance p c))
      unfold advance
      split
      · exact Nat.le_succ _
      · exact Nat.le_refl _
  obtain ⟨before, after, rfl⟩ := List.append_of_mem h
  have hbreak : (advance (advanceAll p before) '\n').1 = (advanceAll p before).1 + 1 := by simp [advance]
  have hafter := hle after (advance (advanceAll p before) '\n')
  rw [hbreak] at hafter
  rw [advanceAll, List.foldl_append, List.foldl_cons]
  exact lt_of_le_of_lt (hle before p) hafter

end Runs

end QuinLang
