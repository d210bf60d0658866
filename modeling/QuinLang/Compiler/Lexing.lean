import QuinLang.Compiler.LexicalGrammar

/-! The scanner takes exactly the lexemes of the grammar, and what follows for whole
texts: where it stops, and where it says its tokens are. -/

namespace QuinLang

section Characters

variable {H : Host} {c : Char} {rest : List Char}

theorem isHexLetter_ascii (h : isHexLetter c = true) : c.toNat < 128 ∧ c.isAlphanum = true := by
  unfold isHexLetter at h
  simp only [Bool.or_eq_true, Bool.and_eq_true, decide_eq_true_eq, Char.le_def, UInt32.le_iff_toNat_le] at h
  have hn : c.toNat = c.val.toNat := rfl
  simp only [Char.isAlphanum, Char.isAlpha, Char.isUpper, Char.isLower, Char.isDigit, Bool.or_eq_true, Bool.and_eq_true,
    decide_eq_true_eq, UInt32.le_iff_toNat_le, ge_iff_le]
  simp at h ⊢
  omega

theorem isHexDigit_word (h : H.isHexDigit c = true) : H.isWord c = true := by
  unfold Host.isHexDigit at h
  unfold Host.isWord
  rcases Bool.or_eq_true _ _ ▸ h with h | h
  · rw [H.digit_alnum c h]
    rfl
  · obtain ⟨hascii, halnum⟩ := isHexLetter_ascii h
    rw [H.ascii_alnum c hascii, halnum]
    rfl

/-- What ends a word ends a run of any part of its characters. -/
theorem Host.Ends.stops {p : Char → Bool} (h : H.Ends rest) (hp : ∀ c, p c = true → H.isWord c = true) :
    ∀ c ∈ rest.head?, p c = false := by
  intro c hc
  by_contra hpc
  have hword := hp c (by simpa using hpc)
  rw [h c hc] at hword
  cases hword

theorem isdigit_word (h : H.isdigit c = true) : H.isWord c = true := by
  rw [Host.isWord, H.digit_alnum c h]
  rfl

end Characters

section Numerals

variable {H : Host} {lexeme rest : List Char} {line : ℕ} {col : ℤ}

/-- What the scanner makes of a numeral. -/
inductive Tells (lexeme rest : List Char) (line : ℕ) (col : ℤ) : NumeralValue → Scan → Prop
  | unconvertible : Tells lexeme rest line col .unconvertible (.error .valueError)
  | tooLarge (message : String) (l : ℕ) (k : ℤ) : Tells lexeme rest line col .tooLarge (lexError message l k)
  | value (type : TokenType) (literal : LexLiteral) : type ≠ .STRING → type ≠ .EOF →
      Tells lexeme rest line col (.value type literal)
        (.ok (some ⟨type, lexeme, line, col, some literal⟩, ⟨rest, line, col + lexeme.length⟩))

theorem checkTrailing_ok {s : Lexer} (h : H.Ends s.rest) : checkTrailing H lexeme s = .ok () := by
  unfold checkTrailing
  split
  · rfl
  · rename_i c cs hrest
    rw [if_neg]
    rw [h c (by rw [hrest]; rfl)]
    simp

theorem checkTrailing_error {s : Lexer} (h : ¬ H.Ends s.rest) : ∃ m l k, checkTrailing H lexeme s = lexError m l k := by
  unfold checkTrailing
  split
  · rename_i hrest
    exact absurd (fun c hc => by rw [hrest] at hc; cases hc) h
  · rename_i c cs hrest
    rw [if_pos]
    · exact ⟨_, _, _, rfl⟩
    · by_contra hc
      refine h fun d hd => ?_
      rw [hrest] at hd
      cases hd
      simpa using hc

theorem addToken_tells {type : TokenType} {literal : LexLiteral} (hs : type ≠ .STRING) (he : type ≠ .EOF) :
    Tells lexeme rest line col (.value type literal)
      (addToken type lexeme ⟨rest, line, col + lexeme.length⟩ (some literal)) := by
  rw [addToken, add_sub_cancel_right]
  exact .value type literal hs he

theorem finishInt_tells (h : H.Ends rest) (v : Option ℕ) :
    Tells lexeme rest line col (intValue v) (finishInt H v lexeme ⟨rest, line, col + lexeme.length⟩) := by
  unfold finishInt
  rw [checkTrailing_ok h]
  cases v with
  | none => exact .unconvertible
  | some v =>
    show Tells lexeme rest line col (intValue (some v)) (checkRange v lexeme ⟨rest, line, col + lexeme.length⟩ >>= fun _ =>
      addToken .NUMBER lexeme ⟨rest, line, col + lexeme.length⟩ (some (.int v)))
    by_cases hv : v > 0xFFFF
    · rw [intValue, if_pos hv, checkRange, if_pos hv]
      exact .tooLarge _ _ _
    · rw [intValue, if_neg hv, checkRange, if_neg hv]
      exact addToken_tells (by simp) (by simp)

theorem finishInt_error {v : Option ℕ} {s : Lexer} (h : ¬ H.Ends s.rest) : ∃ m l k, finishInt H v lexeme s = lexError m l k := by
  have htrail : ∃ m l k, checkTrailing H lexeme s = lexError m l k := checkTrailing_error h
  obtain ⟨m, l, k, hm⟩ := htrail
  unfold finishInt
  rw [hm]
  exact ⟨m, l, k, rfl⟩

theorem floatNumber_tells {ws ds : List Char} (hds : ds ≠ []) (hdigits : ∀ d ∈ ds, H.isdigit d = true) (h : H.Ends rest) :
    Tells (ws ++ '.' :: ds) rest line col (H.floatValue ws ds) (floatNumber H ws (ds ++ rest) line col) := by
  have hstop := h.stops fun c => isdigit_word (H := H) (c := c)
  have htrail : checkTrailing H (ws ++ '.' :: ds) ⟨rest, line, col + (ws ++ '.' :: ds).length⟩ = .ok () := checkTrailing_ok h
  unfold floatNumber
  rw [takeWhile_run hdigits hstop, dropWhile_run hdigits hstop]
  dsimp only
  rw [if_neg hds, htrail]
  by_cases hall : (ws ++ ds).all (fun c => (H.decimal c).isSome) = true
  · by_cases hlarge : H.floatTooLarge (ws ++ '.' :: ds) = true
    · rw [Host.floatValue, if_pos hall, if_pos hlarge]
      show Tells _ _ _ _ _ (if _ then _ else _)
      rw [if_pos hall, if_pos hlarge]
      exact .tooLarge _ _ _
    · rw [Host.floatValue, if_pos hall, if_neg hlarge]
      show Tells _ _ _ _ _ (if _ then _ else _)
      rw [if_pos hall, if_neg hlarge]
      exact addToken_tells (by simp) (by simp)
  · rw [Host.floatValue, if_neg hall]
    show Tells _ _ _ _ _ (if _ then _ else _)
    rw [if_neg hall]
    exact .unconvertible

theorem isdigit_false {c : Char} (hascii : c.toNat < 128) (h : c.isDigit = false) : H.isdigit c = false :=
  (H.ascii_digit c hascii).trans h

theorem number_decimal {c : Char} {cs : List Char} (h : ∀ x ∈ cs.head?, x ≠ 'x' ∧ x ≠ 'X') : number H c cs line col =
    decimalNumber H (c :: cs.takeWhile H.isdigit) (cs.dropWhile H.isdigit) line col := by
  cases cs with
  | nil => rfl
  | cons x cs =>
    obtain ⟨hx, hX⟩ := h x rfl
    rw [number, if_neg]
    rintro ⟨-, rfl | rfl⟩
    · exact hx rfl
    · exact hX rfl

/-- After digits comes no hexadecimal mark. -/
theorem not_hex {ds cs : List Char} (hdigits : ∀ d ∈ ds, H.isdigit d = true) (hrest : ∀ x ∈ cs.head?, x ≠ 'x' ∧ x ≠ 'X') :
    ∀ x ∈ (ds ++ cs).head?, x ≠ 'x' ∧ x ≠ 'X' := by
  cases ds with
  | nil => exact hrest
  | cons d ds =>
    rintro x hx
    cases hx
    have hd := hdigits d List.mem_cons_self
    refine ⟨?_, ?_⟩ <;> rintro rfl
    · rw [isdigit_false (by decide) (by decide)] at hd
      cases hd
    · rw [isdigit_false (by decide) (by decide)] at hd
      cases hd

theorem Host.Ends.not_hex (h : H.Ends rest) : ∀ x ∈ rest.head?, x ≠ 'x' ∧ x ≠ 'X' := by
  intro x hx
  have hword := h x hx
  refine ⟨?_, ?_⟩ <;> rintro rfl
  · rw [Host.isWord, H.ascii_alnum _ (by decide)] at hword
    cases hword
  · rw [Host.isWord, H.ascii_alnum _ (by decide)] at hword
    cases hword

variable (line col) in
/-- A numeral of the grammar is read as it stands. -/
theorem number_tells {val : NumeralValue} {c : Char} {cs : List Char} (h : Numeral H lexeme rest val)
    (hsplit : lexeme ++ rest = c :: cs) : Tells lexeme rest line col val (number H c cs line col) := by
  cases h with
  | @hex x ds _ hx hds hdigits hends =>
    obtain ⟨rfl, rfl⟩ := List.cons_eq_cons.mp hsplit.symm
    have hstop := hends.stops fun c => isHexDigit_word (H := H) (c := c)
    have hlen : col + 2 + ds.length = col + ('0' :: x :: ds).length := by
      simp only [List.length_cons]
      push_cast
      ring
    show Tells _ _ _ _ _ (if '0' = '0' ∧ (x = 'x' ∨ x = 'X') then _ else _)
    rw [if_pos ⟨rfl, hx⟩]
    show Tells _ _ _ _ _ (hexNumber H x (ds ++ rest) line col)
    unfold hexNumber
    rw [takeWhile_run hdigits hstop, dropWhile_run hdigits hstop]
    dsimp only
    rw [if_neg hds, hlen]
    exact finishInt_tells hends _
  | int hds hdigits hends hdot =>
    obtain ⟨d, ds, rfl⟩ := List.exists_cons_of_ne_nil hds
    obtain ⟨rfl, rfl⟩ := List.cons_eq_cons.mp hsplit.symm
    have hdigits' : ∀ x ∈ ds, H.isdigit x = true := fun x hx => hdigits x (List.mem_cons_of_mem _ hx)
    have hstop := hends.stops fun c => isdigit_word (H := H) (c := c)
    rw [show ds.append rest = ds ++ rest from rfl, number_decimal (not_hex hdigits' hends.not_hex), takeWhile_run hdigits' hstop,
      dropWhile_run hdigits' hstop]
    unfold decimalNumber
    split
    · exact absurd rfl hdot
    · exact finishInt_tells hends _
  | @float ws ds _ hws hwhole hds hdigits hends =>
    obtain ⟨w, ws, rfl⟩ := List.exists_cons_of_ne_nil hws
    rw [List.append_assoc, List.cons_append, List.cons_append] at hsplit
    obtain ⟨rfl, rfl⟩ := List.cons_eq_cons.mp hsplit.symm
    have hwhole' : ∀ x ∈ ws, H.isdigit x = true := fun x hx => hwhole x (List.mem_cons_of_mem _ hx)
    have hdot : ∀ x ∈ ('.' :: (ds ++ rest)).head?, H.isdigit x = false := by
      rintro x hx
      cases hx
      exact isdigit_false (by decide) (by decide)
    have hmark : ∀ x ∈ ('.' :: (ds ++ rest)).head?, x ≠ 'x' ∧ x ≠ 'X' := by
      rintro x hx
      cases hx
      decide
    rw [number_decimal (not_hex hwhole' hmark), takeWhile_run hwhole' hdot, dropWhile_run hwhole' hdot]
    exact floatNumber_tells hds hdigits hends

variable (line col) in
/-- A numeral that is read is one of the grammar. -/
theorem number_spec {c : Char} (cs : List Char) (hc : H.isdigit c = true) :
    (∃ m l k, number H c cs line col = lexError m l k) ∨
      ∃ lexeme rest val, lexeme ++ rest = c :: cs ∧ Numeral H lexeme rest val := by
  have hall {p : Char → Bool} (cs : List Char) : ∀ d ∈ cs.takeWhile p, p d = true := fun d hd => List.mem_takeWhile_imp hd
  by_cases hhex : c = '0' ∧ ∃ x cs', cs = x :: cs' ∧ (x = 'x' ∨ x = 'X')
  · obtain ⟨rfl, x, cs, rfl, hx⟩ := hhex
    have heq : number H '0' (x :: cs) line col = hexNumber H x cs line col := if_pos ⟨rfl, hx⟩
    rw [heq]
    unfold hexNumber
    dsimp only
    by_cases hds : cs.takeWhile H.isHexDigit = []
    · rw [if_pos hds]
      exact .inl ⟨_, _, _, rfl⟩
    rw [if_neg hds]
    by_cases hends : H.Ends (cs.dropWhile H.isHexDigit)
    · refine .inr ⟨_, _, _, ?_, .hex hx hds (hall cs) hends⟩
      rw [List.cons_append, List.cons_append, List.takeWhile_append_dropWhile]
    · exact .inl (finishInt_error hends)
  have heq : number H c cs line col = decimalNumber H (c :: cs.takeWhile H.isdigit) (cs.dropWhile H.isdigit) line col := by
    cases cs with
    | nil => rfl
    | cons x cs => exact if_neg fun h => hhex ⟨h.1, x, cs, rfl, h.2⟩
  rw [heq]
  have hwhole : ∀ d ∈ c :: cs.takeWhile H.isdigit, H.isdigit d = true := List.forall_mem_cons.mpr ⟨hc, hall cs⟩
  have hsplit : (c :: cs.takeWhile H.isdigit) ++ cs.dropWhile H.isdigit = c :: cs := by
    rw [List.cons_append, List.takeWhile_append_dropWhile]
  generalize cs.dropWhile H.isdigit = tail at hsplit
  by_cases hdot : ∃ tail', tail = '.' :: tail'
  · obtain ⟨tail, rfl⟩ := hdot
    show (∃ m l k, floatNumber H _ tail line col = lexError m l k) ∨ _
    unfold floatNumber
    dsimp only
    by_cases hds : tail.takeWhile H.isdigit = []
    · rw [if_pos hds]
      exact .inl ⟨_, _, _, rfl⟩
    rw [if_neg hds]
    by_cases hends : H.Ends (tail.dropWhile H.isdigit)
    · refine .inr ⟨_, _, _, ?_, .float (by simp) hwhole hds (hall tail) hends⟩
      have htail : ('.' :: tail.takeWhile H.isdigit) ++ tail.dropWhile H.isdigit = '.' :: tail := by
        rw [List.cons_append, List.takeWhile_append_dropWhile]
      rw [List.append_assoc, htail]
      exact hsplit
    · have htrail : ∃ m l k, checkTrailing H ((c :: cs.takeWhile H.isdigit) ++ '.' :: tail.takeWhile H.isdigit)
          ⟨tail.dropWhile H.isdigit, line, col + ((c :: cs.takeWhile H.isdigit) ++ '.' :: tail.takeWhile H.isdigit).length⟩
          = lexError m l k := checkTrailing_error hends
      obtain ⟨m, l, k, hm⟩ := htrail
      rw [hm]
      exact .inl ⟨m, l, k, rfl⟩
  · have hdec : decimalNumber H (c :: cs.takeWhile H.isdigit) tail line col =
        finishInt H (H.int (c :: cs.takeWhile H.isdigit)) (c :: cs.takeWhile H.isdigit)
          ⟨tail, line, col + (c :: cs.takeWhile H.isdigit).length⟩ := by
      unfold decimalNumber
      split
      · exact absurd ⟨_, rfl⟩ hdot
      · rfl
    rw [hdec]
    by_cases hends : H.Ends tail
    · refine .inr ⟨_, _, _, hsplit, .int (by simp) hwhole hends fun hd => ?_⟩
      obtain ⟨tail', ht⟩ := List.head?_eq_some_iff.mp hd
      exact hdot ⟨tail', ht⟩
    · exact .inl (finishInt_error hends)

end Numerals

section Strings

variable {openLine line : ℕ} {openCol col : ℤ} {body rest value : List Char}

theorem advance_of_ne {p : ℕ × ℤ} {c : Char} (h : c ≠ '\n') : advance p c = (p.1, p.2 + 1) := if_neg h

/-- A string literal's body, up to the quote. -/
theorem stringLoop_eq (h : StringBody body) : ∃ v, stringLoop openLine openCol (body ++ '"' :: rest) line col value =
    .ok (v, ⟨rest, (advanceAll (line, col) body).1, (advanceAll (line, col) body).2 + 1⟩) := by
  induction h generalizing line col value with
  | nil =>
    refine ⟨value, ?_⟩
    unfold stringLoop
    exact if_pos rfl
  | @char c body hq hb hwide _ ih =>
    obtain ⟨v, hv⟩ := @ih (advance (line, col) c).1 (advance (line, col) c).2 (value ++ [c])
    have hline : (if c = '\n' then line + 1 else line) = (advance (line, col) c).1 := by
      unfold advance
      split <;> rfl
    have hcol : (if c = '\n' then 1 else col + 1) = (advance (line, col) c).2 := by
      unfold advance
      split <;> rfl
    refine ⟨v, ?_⟩
    rw [List.cons_append]
    unfold stringLoop
    rw [if_neg hq, if_neg hb]
    dsimp only
    rw [if_neg (Nat.not_lt.mpr hwide), hline, hcol, hv]
    rfl
  | @escape e w body he _ ih =>
    have hbreak : e ≠ '\n' := by
      rintro rfl
      rw [show ESCAPES.lookup '\n' = none by decide] at he
      cases he
    have hadvance : advanceAll (line, col) ('\\' :: e :: body) = advanceAll (line, col + 2) body := by
      rw [advanceAll, List.foldl_cons, List.foldl_cons, advance_of_ne (c := '\\') (by decide), advance_of_ne hbreak, add_assoc]
      rfl
    obtain ⟨v, hv⟩ := @ih line (col + 2) (value ++ [w])
    refine ⟨v, ?_⟩
    rw [List.cons_append, List.cons_append]
    unfold stringLoop
    rw [if_neg (by decide), if_pos rfl]
    dsimp only
    rw [if_neg hbreak, if_neg hbreak, he]
    dsimp only
    rw [hv, hadvance]

/-- What the loop has taken when it comes to a quote is a body. -/
theorem stringLoop_spec (n : ℕ) : ∀ (cs : List Char) (line : ℕ) (col : ℤ) (value : List Char), cs.length ≤ n →
    (∃ m l k, stringLoop openLine openCol cs line col value = lexError m l k) ∨
      ∃ body rest, cs = body ++ '"' :: rest ∧ StringBody body := by
  induction n with
  | zero =>
    intro cs line col value hn
    obtain rfl := List.eq_nil_of_length_eq_zero (Nat.le_zero.mp hn)
    exact .inl ⟨_, _, _, rfl⟩
  | succ n ih =>
    intro cs line col value hn
    cases cs with
    | nil => exact .inl ⟨_, _, _, rfl⟩
    | cons ch cs =>
      rw [List.length_cons, Nat.add_le_add_iff_right] at hn
      by_cases hq : ch = '"'
      · exact .inr ⟨[], cs, by rw [hq]; rfl, .nil⟩
      unfold stringLoop
      rw [if_neg hq]
      by_cases hb : ch = '\\'
      · rw [if_pos hb]
        cases cs with
        | nil => exact .inl ⟨_, _, _, rfl⟩
        | cons esc cs =>
          dsimp only
          cases he : ESCAPES.lookup esc with
          | none => exact .inl ⟨_, _, _, rfl⟩
          | some v =>
            refine (ih cs _ _ (value ++ [v]) (Nat.le_of_succ_le hn)).imp_right fun h => ?_
            obtain ⟨body, rest, rfl, hbody⟩ := h
            exact ⟨ch :: esc :: body, rest, rfl, hb ▸ .escape he hbody⟩
      · rw [if_neg hb]
        dsimp only
        by_cases hwide : ch.toNat > 0xFF
        · rw [if_pos hwide]
          exact .inl ⟨_, _, _, rfl⟩
        · rw [if_neg hwide]
          refine (ih cs _ _ (value ++ [ch]) hn).imp_right fun h => ?_
          obtain ⟨body, rest, rfl, hbody⟩ := h
          exact ⟨ch :: body, rest, rfl, .char hq hb (Nat.not_lt.mp hwide) hbody⟩

end Strings

section Scanning

variable {H : Host} {lexeme rest : List Char} {c : Char} {cs : List Char} {line : ℕ} {col : ℤ}

/-- What the scanner makes of a lexical element: where it ends up, and the token if there is one,
placed where the element starts unless it is a string literal with a line break in it. -/
structure Scans (lexeme rest : List Char) (line : ℕ) (col : ℤ) (token : Option Token) (s : Lexer) : Prop where
  rest : s.rest = rest
  position : (s.line, s.col) = advanceAll (line, col) lexeme
  lexeme : ∀ t ∈ token, t.lexeme = lexeme ∧ t.line = s.line ∧ t.col = s.col - lexeme.length ∧ t.type ≠ .EOF

theorem Scans.plain {type : TokenType} {literal : Option LexLiteral} (h : '\n' ∉ lexeme) (he : type ≠ .EOF) :
    Scans lexeme rest line col (some ⟨type, lexeme, line, col, literal⟩) ⟨rest, line, col + lexeme.length⟩ := by
  refine ⟨rfl, by rw [advanceAll_of_notMem h], ?_⟩
  rintro t ⟨⟩
  exact ⟨rfl, rfl, (add_sub_cancel_right _ _).symm, he⟩

theorem operators_ascii {twos : List (Char × TokenType)} {t : TokenType} (h : OPERATORS.lookup c = some (twos, t)) :
    (c ≠ ' ' ∧ c ≠ '\r' ∧ c ≠ '\t' ∧ c ≠ '\n' ∧ c ≠ '"' ∧ c.toNat < 128 ∧ c.isAlphanum = false ∧ t ≠ .EOF) ∧
      ∀ e ∈ twos, e.1 ≠ '\n' ∧ e.1 ≠ '/' ∧ e.2 ≠ .EOF := by
  have hall : ∀ e ∈ OPERATORS, (e.1 ≠ ' ' ∧ e.1 ≠ '\r' ∧ e.1 ≠ '\t' ∧ e.1 ≠ '\n' ∧ e.1 ≠ '"' ∧ e.1.toNat < 128 ∧
      e.1.isAlphanum = false ∧ e.2.2 ≠ .EOF) ∧ ∀ d ∈ e.2.1, d.1 ≠ '\n' ∧ d.1 ≠ '/' ∧ d.2 ≠ .EOF := by decide
  obtain ⟨l₁, l₂, hl, -⟩ := List.lookup_eq_some_iff.mp h
  exact hall (c, twos, t) (by rw [hl]; simp)

/-- Before an operator no earlier case applies. -/
theorem scanToken_operator {twos : List (Char × TokenType)} {t : TokenType} (h : OPERATORS.lookup c = some (twos, t))
    (hcomment : ¬ (c = '/' ∧ cs.head? = some '/')) : scanToken H c cs line col = operator c twos t cs line col := by
  obtain ⟨⟨h1, h2, h3, h4, -⟩, -⟩ := operators_ascii h
  unfold scanToken
  rw [if_neg (by simp [h1, h2, h3]), if_neg h4, if_neg hcomment, h]

/-- A character of a word is none of those with a meaning of their own. -/
theorem word_ne {d : Char} (h : H.isWord c = true) (hd : d.toNat < 128) (halnum : d.isAlphanum = false) (hu : d ≠ '_') : c ≠ d := by
  rintro rfl
  rw [Host.isWord, H.ascii_alnum c hd, halnum] at h
  simp [hu] at h

theorem operators_word (h : H.isWord c = true) : OPERATORS.lookup c = none := by
  cases ho : OPERATORS.lookup c with
  | none => rfl
  | some e =>
    obtain ⟨⟨-, -, -, -, -, hascii, halnum, -⟩, -⟩ := operators_ascii ho
    refine absurd rfl (word_ne h hascii halnum ?_)
    rintro rfl
    rw [show OPERATORS.lookup '_' = none by decide] at ho
    cases ho

theorem scanToken_word (h : H.isWord c = true) : scanToken H c cs line col =
    if H.isdigit c then number H c cs line col
    else if H.isalpha c ∨ c = '_' then identifier H c cs line col
    else lexError s!"Unexpected character '{c}'" line col := by
  have hne (d : Char) (hd : d.toNat < 128) (halnum : d.isAlphanum = false) (hu : d ≠ '_') : c ≠ d := word_ne h hd halnum hu
  unfold scanToken
  rw [if_neg, if_neg (hne '\n' (by decide) (by decide) (by decide)), if_neg, operators_word h]
  · dsimp only
    rw [if_neg (hne '"' (by decide) (by decide) (by decide))]
  · exact fun hc => hne '/' (by decide) (by decide) (by decide) hc.1
  · rintro (hc | hc | hc)
    · exact hne ' ' (by decide) (by decide) (by decide) hc
    · exact hne '\r' (by decide) (by decide) (by decide) hc
    · exact hne '\t' (by decide) (by decide) (by decide) hc

variable (line col) in
theorem scan_skipped (h : Skipped lexeme rest) (hs : lexeme ++ rest = c :: cs) :
    ∃ s, scanToken H c cs line col = .ok (none, s) ∧ Scans lexeme rest line col none s := by
  cases h with
  | @blank d _ hd =>
    obtain ⟨rfl, rfl⟩ := List.cons_eq_cons.mp hs.symm
    simp only [List.mem_cons, List.not_mem_nil, or_false] at hd
    by_cases hbreak : c = '\n'
    · subst hbreak
      exact ⟨_, rfl, rfl, rfl, by simp⟩
    · refine ⟨_, if_pos (by tauto), rfl, ?_, by simp⟩
      rw [advanceAll_of_notMem (by simpa using fun h => hbreak h.symm)]
      rfl
  | @comment body _ hbody hrest =>
    obtain ⟨rfl, rfl⟩ := List.cons_eq_cons.mp hs.symm
    have hall : ∀ d ∈ '/' :: body, decide (d ≠ '\n') = true := by
      intro d hd
      rcases List.mem_cons.mp hd with rfl | hd
      · decide
      · exact decide_eq_true fun h => hbody (h ▸ hd)
    have hstop : ∀ d ∈ rest.head?, decide (d ≠ '\n') = false := fun d hd => by simp [hrest d hd]
    have hrun := takeWhile_run hall hstop
    have hrest' := dropWhile_run hall hstop
    refine ⟨⟨rest, line, col + ('/' :: '/' :: body).length⟩, ?_, rfl, ?_, by simp⟩
    · show scanToken H '/' (('/' :: body) ++ rest) line col = _
      unfold scanToken
      rw [if_neg (by decide), if_neg (by decide), if_pos ⟨rfl, rfl⟩, hrun, hrest']
    · rw [advanceAll_of_notMem]
      simpa using hbody

variable (line col) in
theorem scan_string (h : StringLiteral lexeme) (hs : lexeme ++ rest = c :: cs) :
    ∃ t s, scanToken H c cs line col = .ok (some t, s) ∧ Scans lexeme rest line col (some t) s := by
  obtain ⟨hbody⟩ := h
  rename_i body
  obtain ⟨rfl, rfl⟩ := List.cons_eq_cons.mp hs.symm
  have hcs : (body ++ ['"']).append rest = body ++ '"' :: rest := by
    rw [show (body ++ ['"']).append rest = (body ++ ['"']) ++ rest from rfl, List.append_assoc]
    rfl
  have hloop : ∃ v, stringLoop line col (body ++ '"' :: rest) line (col + 1) [] = .ok (v, ⟨rest,
      (advanceAll (line, col + 1) body).1, (advanceAll (line, col + 1) body).2 + 1⟩) := stringLoop_eq hbody
  obtain ⟨v, hv⟩ := hloop
  have htake : ('"' :: (body ++ '"' :: rest)).take (('"' :: (body ++ '"' :: rest)).length - rest.length) = '"' :: (body ++ ['"']) := by
    rw [show '"' :: (body ++ '"' :: rest) = ('"' :: (body ++ ['"'])) ++ rest by simp, List.length_append, Nat.add_sub_cancel]
    exact List.take_left
  have hscan : scanToken H '"' (body ++ '"' :: rest) line col = addToken .STRING ('"' :: (body ++ ['"']))
      ⟨rest, (advanceAll (line, col + 1) body).1, (advanceAll (line, col + 1) body).2 + 1⟩ (some (.str v)) := by
    unfold scanToken
    rw [if_neg (by decide), if_neg (by decide), if_neg (by simp), show OPERATORS.lookup '"' = none by decide]
    dsimp only
    rw [if_pos rfl, hv, ← htake]
    rfl
  rw [hcs]
  refine ⟨_, _, hscan, rfl, ?_, ?_⟩
  · have hopen : advance (line, col) '"' = (line, col + 1) := advance_of_ne (by decide)
    have hall : advanceAll (line, col) ('"' :: (body ++ ['"'])) =
        ((advanceAll (line, col + 1) body).1, (advanceAll (line, col + 1) body).2 + 1) := by
      rw [advanceAll, List.foldl_cons, List.foldl_append, hopen]
      exact advance_of_ne (c := '"') (by decide)
    rw [hall]
  · rintro t ⟨⟩
    exact ⟨rfl, rfl, rfl, by simp⟩

theorem not_break_of_word (h : ∀ d ∈ cs, H.isWord d = true ∨ d = '.') : '\n' ∉ cs := by
  intro hmem
  rcases h _ hmem with hword | hdot
  · exact word_ne hword (d := '\n') (by decide) (by decide) (by decide) rfl
  · cases hdot

theorem Numeral.chars {val : NumeralValue} (h : Numeral H lexeme rest val) : ∀ d ∈ lexeme, H.isWord d = true ∨ d = '.' := by
  have hascii (d : Char) (hd : d.toNat < 128) (halnum : d.isAlphanum = true) : H.isWord d = true := by
    rw [Host.isWord, H.ascii_alnum d hd, halnum]
    rfl
  cases h with
  | @hex x ds _ hx _ hdigits =>
    refine List.forall_mem_cons.mpr ⟨.inl (hascii '0' (by decide) (by decide)), List.forall_mem_cons.mpr ⟨.inl ?_, fun d hd => ?_⟩⟩
    · rcases hx with rfl | rfl <;> exact hascii _ (by decide) (by decide)
    · exact .inl (isHexDigit_word (hdigits d hd))
  | int _ hdigits => exact fun d hd => .inl (isdigit_word (hdigits d hd))
  | @float ws ds _ _ hwhole _ hdigits =>
    intro d hd
    rcases List.mem_append.mp hd with hd | hd
    · exact .inl (isdigit_word (hwhole d hd))
    · rcases List.mem_cons.mp hd with rfl | hd
      · exact .inr rfl
      · exact .inl (isdigit_word (hdigits d hd))

theorem Numeral.head {val : NumeralValue} (h : Numeral H lexeme rest val) (hs : lexeme ++ rest = c :: cs) : H.isdigit c = true := by
  cases h with
  | hex =>
    obtain ⟨rfl, -⟩ := List.cons_eq_cons.mp hs.symm
    rw [H.ascii_digit _ (by decide)]
    decide
  | int hds hdigits =>
    obtain ⟨d, ds, rfl⟩ := List.exists_cons_of_ne_nil hds
    obtain ⟨rfl, -⟩ := List.cons_eq_cons.mp hs.symm
    exact hdigits c List.mem_cons_self
  | float hws hwhole =>
    obtain ⟨w, ws, rfl⟩ := List.exists_cons_of_ne_nil hws
    rw [List.append_assoc] at hs
    obtain ⟨rfl, -⟩ := List.cons_eq_cons.mp hs.symm
    exact hwhole c List.mem_cons_self

variable (line col) in
theorem scan_numeral {val : NumeralValue} (h : Numeral H lexeme rest val) (hs : lexeme ++ rest = c :: cs) :
    Tells lexeme rest line col val (scanToken H c cs line col) := by
  have hdigit := h.head hs
  rw [scanToken_word (isdigit_word hdigit), if_pos hdigit]
  exact number_tells line col h hs

variable (line col) in
theorem scan_plain (h : PlainLexeme H lexeme rest) (hs : lexeme ++ rest = c :: cs) : '\n' ∉ lexeme ∧
    ∃ t s, scanToken H c cs line col = .ok (some t, s) ∧ Scans lexeme rest line col (some t) s := by
  cases h with
  | @one d twos t _ hop hmunch hcomment =>
    obtain ⟨rfl, rfl⟩ := List.cons_eq_cons.mp hs.symm
    obtain ⟨⟨-, -, -, hbreak, -, -, -, heof⟩, -⟩ := operators_ascii hop
    have hnot : '\n' ∉ [c] := by simpa using fun h => hbreak h.symm
    refine ⟨hnot, ⟨t, [c], line, col, none⟩, ⟨cs, line, col + ([c] : List Char).length⟩, ?_, .plain hnot heof⟩
    rw [scanToken_operator hop hcomment]
    cases cs with
    | nil => simp [operator, addToken]
    | cons d cs =>
      rw [operator, hmunch d rfl]
      simp [addToken]
  | @two d e twos t t' _ hop htwo =>
    obtain ⟨rfl, rfl⟩ := List.cons_eq_cons.mp hs.symm
    obtain ⟨⟨-, -, -, hbreak, -⟩, hall⟩ := operators_ascii hop
    obtain ⟨l₁, l₂, hl, -⟩ := List.lookup_eq_some_iff.mp htwo
    obtain ⟨hbreak', hslash, heof⟩ := hall (e, t') (by rw [hl]; simp)
    have hnot : '\n' ∉ [c, e] := by
      simp only [List.mem_cons, List.not_mem_nil, or_false, not_or]
      exact ⟨fun h => hbreak h.symm, fun h => hbreak' h.symm⟩
    refine ⟨hnot, ⟨t', [c, e], line, col, none⟩, ⟨rest, line, col + ([c, e] : List Char).length⟩, ?_, .plain hnot heof⟩
    have hcomment : ¬ (c = '/' ∧ (e :: rest).head? = some '/') := fun h => hslash (Option.some.inj h.2)
    show scanToken H c (e :: rest) line col = _
    rw [scanToken_operator hop hcomment, operator, htwo]
    simp [addToken]
  | @number _ _ type literal hnum =>
    have hnot := not_break_of_word hnum.chars
    refine ⟨hnot, ?_⟩
    have htells := scan_numeral line col hnum hs
    generalize scanToken H c cs line col = r at htells
    cases htells with
    | value _ _ _ heof => exact ⟨_, _, rfl, .plain hnot heof⟩
  | @word d ds _ hfirst hdigit hword hends =>
    obtain ⟨rfl, rfl⟩ := List.cons_eq_cons.mp hs.symm
    have hc : H.isWord c = true := by
      rcases hfirst with h | rfl
      · rw [Host.isWord, H.alpha_alnum c h]
        rfl
      · simp [Host.isWord]
    have hall : ∀ d ∈ c :: ds, H.isWord d = true := List.forall_mem_cons.mpr ⟨hc, hword⟩
    have hnot : '\n' ∉ c :: ds := not_break_of_word fun d hd => .inl (hall d hd)
    have hstop := hends.stops fun c h => h
    have hkeyword : (KEYWORDS.lookup (ofChars (c :: ds))).getD .IDENTIFIER ≠ .EOF := by
      cases hk : KEYWORDS.lookup (ofChars (c :: ds)) with
      | none => simp
      | some type =>
        have hall : ∀ e ∈ KEYWORDS, e.2 ≠ TokenType.EOF := by decide
        obtain ⟨l₁, l₂, hl, -⟩ := List.lookup_eq_some_iff.mp hk
        exact hall (_, type) (by rw [hl]; exact List.mem_append_right _ List.mem_cons_self)
    refine ⟨hnot, ⟨(KEYWORDS.lookup (ofChars (c :: ds))).getD .IDENTIFIER, c :: ds, line, col, none⟩,
      ⟨rest, line, col + (c :: ds).length⟩, ?_, .plain hnot hkeyword⟩
    rw [scanToken_word hc, if_neg (by simp [hdigit]), if_pos hfirst]
    show identifier H c (ds ++ rest) line col = _
    rw [identifier, takeWhile_run hword hstop, dropWhile_run hword hstop, addToken, add_sub_cancel_right]

variable (line col) in
/-- Every lexical element is scanned as one. -/
theorem scan_lexeme (h : Lexeme H lexeme rest) (hs : lexeme ++ rest = c :: cs) :
    ∃ token s, scanToken H c cs line col = .ok (token, s) ∧ Scans lexeme rest line col token s := by
  cases h with
  | skipped h =>
    obtain ⟨s, hscan, hs⟩ := scan_skipped (H := H) line col h hs
    exact ⟨none, s, hscan, hs⟩
  | string h =>
    obtain ⟨t, s, hscan, hs⟩ := scan_string (H := H) line col h hs
    exact ⟨some t, s, hscan, hs⟩
  | plain h =>
    obtain ⟨-, t, s, hscan, hs⟩ := scan_plain line col h hs
    exact ⟨some t, s, hscan, hs⟩

variable (line col) in
/-- What is scanned is a lexical element, or a numeral that cannot be converted. -/
theorem scan_spec (c : Char) (cs : List Char) : (∃ m l k, scanToken H c cs line col = lexError m l k) ∨
    ∃ lexeme rest, lexeme ++ rest = c :: cs ∧ (Lexeme H lexeme rest ∨ Numeral H lexeme rest .unconvertible) := by
  by_cases hblank : c ∈ [' ', '\r', '\t', '\n']
  · exact .inr ⟨[c], cs, rfl, .inl (.skipped (.blank hblank))⟩
  simp only [List.mem_cons, List.not_mem_nil, or_false, not_or] at hblank
  obtain ⟨h1, h2, h3, h4⟩ := hblank
  by_cases hcomment : c = '/' ∧ cs.head? = some '/'
  · obtain ⟨rfl, hhead⟩ := hcomment
    obtain ⟨cs, rfl⟩ := List.head?_eq_some_iff.mp hhead
    refine .inr ⟨'/' :: '/' :: cs.takeWhile fun d => decide (d ≠ '\n'), cs.dropWhile fun d => decide (d ≠ '\n'), ?_,
      .inl (.skipped (.comment (fun h => ?_) fun d hd => ?_))⟩
    · rw [List.cons_append, List.cons_append, List.takeWhile_append_dropWhile]
    · simpa using List.mem_takeWhile_imp h
    · simpa using head?_dropWhile_not cs d hd
  cases ho : OPERATORS.lookup c with
  | some e =>
    obtain ⟨twos, t⟩ := e
    by_cases htwo : ∃ d ∈ cs.head?, (twos.lookup d).isSome = true
    · obtain ⟨d, hd, htwo⟩ := htwo
      obtain ⟨cs, rfl⟩ := List.head?_eq_some_iff.mp hd
      obtain ⟨t', ht'⟩ := Option.isSome_iff_exists.mp htwo
      exact .inr ⟨[c, d], cs, rfl, .inl (.plain (.two ho ht'))⟩
    · refine .inr ⟨[c], cs, rfl, .inl (.plain (.one ho (fun d hd => ?_) hcomment))⟩
      by_contra hne
      exact htwo ⟨d, hd, Option.isSome_iff_ne_none.mpr hne⟩
  | none =>
    unfold scanToken
    rw [if_neg (by simp [h1, h2, h3]), if_neg h4, if_neg hcomment, ho]
    dsimp only
    by_cases hq : c = '"'
    · subst hq
      rw [if_pos rfl]
      rcases @stringLoop_spec line col cs.length cs line (col + 1) [] (Nat.le_refl _) with
        ⟨m, l, k, hm⟩ | ⟨body, rest, rfl, hbody⟩
      · rw [hm]
        exact .inl ⟨m, l, k, rfl⟩
      · exact .inr ⟨'"' :: (body ++ ['"']), rest, by simp, .inl (.string ⟨hbody⟩)⟩
    rw [if_neg hq]
    by_cases hdigit : H.isdigit c = true
    · rw [if_pos hdigit]
      rcases number_spec line col cs hdigit with hm | ⟨lexeme, rest, val, hs, hnum⟩
      · exact .inl hm
      · have htells := number_tells line col hnum hs
        generalize number H c cs line col = r at htells
        cases htells with
        | unconvertible => exact .inr ⟨lexeme, rest, hs, .inr hnum⟩
        | tooLarge m l k => exact .inl ⟨m, l, k, rfl⟩
        | value => exact .inr ⟨lexeme, rest, hs, .inl (.plain (.number hnum))⟩
    rw [if_neg hdigit]
    by_cases hfirst : H.isalpha c = true ∨ c = '_'
    · refine .inr ⟨c :: cs.takeWhile H.isWord, cs.dropWhile H.isWord, ?_,
        .inl (.plain (.word hfirst (by simpa using hdigit) (fun d hd => List.mem_takeWhile_imp hd) (head?_dropWhile_not cs)))⟩
      rw [List.cons_append, List.takeWhile_append_dropWhile]
    · rw [if_neg hfirst]
      exact .inl ⟨_, _, _, rfl⟩

theorem Numeral.ne_nil {val : NumeralValue} (h : Numeral H lexeme rest val) : lexeme ≠ [] := by
  cases h with
  | hex => simp
  | int hds => exact hds
  | float => simp

theorem Lexeme.ne_nil (h : Lexeme H lexeme rest) : lexeme ≠ [] := by
  cases h with
  | skipped h => cases h <;> simp
  | string h => cases h; simp
  | plain h =>
    cases h with
    | number h => exact h.ne_nil
    | _ => simp

/-- A text starts with at most one lexical element. -/
theorem Lexeme.unique {lexeme' rest' : List Char} (h : Lexeme H lexeme rest) (h' : Lexeme H lexeme' rest')
    (hs : lexeme ++ rest = lexeme' ++ rest') : lexeme = lexeme' ∧ rest = rest' := by
  cases hc : lexeme ++ rest with
  | nil => exact absurd (List.append_eq_nil_iff.mp hc).1 h.ne_nil
  | cons c cs =>
    obtain ⟨token, s, hscan, hscans⟩ := scan_lexeme 1 1 h hc
    obtain ⟨token', s', hscan', hscans'⟩ := scan_lexeme 1 1 h' (hs ▸ hc)
    obtain ⟨rfl, rfl⟩ := Prod.mk.inj (Except.ok.inj (hscan.symm.trans hscan'))
    obtain rfl : rest = rest' := hscans.rest.symm.trans hscans'.rest
    exact ⟨List.append_cancel_right hs, rfl⟩

end Scanning

end QuinLang
