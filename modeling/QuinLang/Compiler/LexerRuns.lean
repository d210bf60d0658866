import QuinLang.Compiler.Lexing

/-! Whole texts: which of them the lexer answers for with tokens or a `LexError`, and in
which of them its tokens are where it says. -/

namespace QuinLang

section Totality

variable {H : Host}

/-- A digit that no conversion takes, or more of them than `int()` does. -/
def Host.Refuses (H : Host) (numeral : List Char) : Prop :=
  (∃ d ∈ numeral, H.isdigit d = true ∧ H.decimal d = none) ∨
    (∀ d ∈ numeral, H.isdigit d = true) ∧ H.maxStrDigits < numeral.length

theorem convert_eq_none {digit : Char → Option ℕ} {base : ℕ} {cs : List Char} :
    convert digit base cs = none ↔ ∃ d ∈ cs, digit d = none := by
  unfold convert
  rw [Option.map_eq_none_iff]
  induction cs with
  | nil => simp
  | cons c cs ih =>
    rw [List.mapM_cons]
    cases hc : digit c with
    | none => simp [hc]
    | some v =>
      have hrest : ((some v : Option ℕ) >>= fun b => cs.mapM digit >>= fun bs => pure (b :: bs)) = none ↔
          cs.mapM digit = none := by
        cases cs.mapM digit <;> simp
      rw [hrest, ih]
      simp [hc]

theorem intValue_unconvertible {v : Option ℕ} : intValue v = .unconvertible ↔ v = none := by
  cases v with
  | none => simp [intValue]
  | some v => by_cases hv : v > 0xFFFF <;> simp [intValue, hv]

theorem decimal_of_ascii {c : Char} (h : c.toNat < 128) (hd : c.isDigit = true) : H.decimal c ≠ none := by
  rw [H.ascii_decimal c h, if_pos hd]
  simp

/-- A hexadecimal digit has no value where it is a digit that has none. -/
theorem hexValue_eq_none {d : Char} (h : H.isHexDigit d = true) : H.hexValue d = none ↔ H.isdigit d = true ∧ H.decimal d = none := by
  unfold Host.hexValue
  by_cases hletter : isHexLetter d = true
  · have hsome : (if 'a' ≤ d ∧ d ≤ 'f' then some (d.toNat - 'a'.toNat + 10)
        else if 'A' ≤ d ∧ d ≤ 'F' then some (d.toNat - 'A'.toNat + 10) else H.decimal d) ≠ none := by
      simp only [isHexLetter, Bool.or_eq_true, Bool.and_eq_true, decide_eq_true_eq] at hletter
      rcases hletter with hl | hl
      · rw [if_pos hl]
        simp
      · rw [if_pos hl]
        split <;> simp
    refine ⟨fun hn => absurd hn hsome, fun hd => ?_⟩
    obtain ⟨hascii, halnum⟩ := isHexLetter_ascii hletter
    have hdigit := hd.1
    rw [H.ascii_digit d hascii] at hdigit
    exact absurd hd.2 (decimal_of_ascii hascii hdigit)
  · have hdigit : H.isdigit d = true := by
      unfold Host.isHexDigit at h
      simpa [hletter] using h
    simp only [isHexLetter, Bool.or_eq_true, Bool.and_eq_true, decide_eq_true_eq, not_or] at hletter
    rw [if_neg hletter.1, if_neg hletter.2]
    simp [hdigit]

/-- Which numerals of the grammar raise a `ValueError`. -/
theorem Numeral.unconvertible_iff {lexeme rest : List Char} {val : NumeralValue} (h : Numeral H lexeme rest val) :
    val = .unconvertible ↔ H.Refuses lexeme := by
  cases h with
  | @hex x ds _ hx hds hdigits =>
    rw [intValue_unconvertible, convert_eq_none, Host.Refuses]
    have hx' : H.isdigit x = false := by rcases hx with rfl | rfl <;> exact isdigit_false (by decide) (by decide)
    constructor
    · rintro ⟨d, hd, hnone⟩
      exact .inl ⟨d, by simp [hd], (hexValue_eq_none (hdigits d hd)).mp hnone⟩
    · rintro (⟨d, hd, hdigit, hnone⟩ | ⟨hall, -⟩)
      · simp only [List.mem_cons] at hd
        rcases hd with rfl | rfl | hd
        · exact absurd hnone (decimal_of_ascii (by decide) (by decide))
        · rw [hx'] at hdigit
          cases hdigit
        · exact ⟨d, hd, (hexValue_eq_none (hdigits d hd)).mpr ⟨hdigit, hnone⟩⟩
      · have := hall x (by simp)
        rw [hx'] at this
        cases this
  | int hds hdigits =>
    rw [intValue_unconvertible, Host.int, Host.Refuses]
    by_cases hlen : lexeme.length ≤ H.maxStrDigits
    · rw [if_pos hlen, convert_eq_none]
      constructor
      · rintro ⟨d, hd, hnone⟩
        exact .inl ⟨d, hd, hdigits d hd, hnone⟩
      · rintro (⟨d, hd, -, hnone⟩ | ⟨-, hlong⟩)
        · exact ⟨d, hd, hnone⟩
        · omega
    · rw [if_neg hlen]
      exact ⟨fun _ => .inr ⟨hdigits, by omega⟩, fun _ => rfl⟩
  | @float ws ds _ hws hwhole hds hdigits =>
    have hdot : H.isdigit '.' = false := isdigit_false (by decide) (by decide)
    have hvalue : H.floatValue ws ds = .unconvertible ↔ ¬ (ws ++ ds).all (fun c => (H.decimal c).isSome) = true := by
      unfold Host.floatValue
      split
      · split <;> simp_all
      · simp_all
    have hall : (¬ (ws ++ ds).all (fun c => (H.decimal c).isSome) = true) ↔ ∃ d ∈ ws ++ ds, H.decimal d = none := by
      simp only [List.all_eq_true, not_forall, Option.not_isSome_iff_eq_none, exists_prop]
    rw [hvalue, hall, Host.Refuses]
    constructor
    · rintro ⟨d, hd, hnone⟩
      rcases List.mem_append.mp hd with hd | hd
      · exact .inl ⟨d, by simp [hd], hwhole d hd, hnone⟩
      · exact .inl ⟨d, by simp [hd], hdigits d hd, hnone⟩
    · rintro (⟨d, hd, hdigit, hnone⟩ | ⟨hall, -⟩)
      · simp only [List.mem_append, List.mem_cons] at hd
        rcases hd with hd | rfl | hd
        · exact ⟨d, by simp [hd], hnone⟩
        · rw [hdot] at hdigit
          cases hdigit
        · exact ⟨d, by simp [hd], hnone⟩
      · have := hall '.' (by simp)
        rw [hdot] at this
        cases this

/-- What scanning comes to at a character. -/
theorem scan_cases (c : Char) (cs : List Char) (line : ℕ) (col : ℤ) :
    (∃ m l k, scanToken H c cs line col = lexError m l k) ∨
    (∃ numeral rest, numeral ++ rest = c :: cs ∧ Numeral H numeral rest .unconvertible ∧
      scanToken H c cs line col = .error .valueError) ∨
    ∃ lexeme rest, lexeme ++ rest = c :: cs ∧ Lexeme H lexeme rest := by
  rcases scan_spec (H := H) line col c cs with hm | ⟨lexeme, rest, hs, hlex | hnum⟩
  · exact .inl hm
  · exact .inr (.inr ⟨lexeme, rest, hs, hlex⟩)
  · have htells := scan_numeral line col hnum hs
    generalize scanToken H c cs line col = r at htells ⊢
    cases htells
    exact .inr (.inl ⟨lexeme, rest, hs, hnum, rfl⟩)

theorem scanTokens_error {fuel : ℕ} {c : Char} {cs : List Char} {line : ℕ} {col : ℤ} {e : LexStop}
    (h : scanToken H c cs line col = .error e) : scanTokens H (fuel + 1) ⟨c :: cs, line, col⟩ = .error e := by
  unfold scanTokens
  dsimp only
  rw [h]
  rfl

theorem scanTokens_ok {fuel : ℕ} {c : Char} {cs : List Char} {line : ℕ} {col : ℤ} {token : Option Token} {s : Lexer}
    (h : scanToken H c cs line col = .ok (token, s)) :
    scanTokens H (fuel + 1) ⟨c :: cs, line, col⟩ = (scanTokens H fuel s).map (token.toList ++ ·) := by
  rw [scanTokens]
  dsimp only
  rw [h]
  show (scanTokens H fuel s >>= fun tokens => pure (token.toList ++ tokens)) = _
  cases scanTokens H fuel s <;> rfl

/-- The scan comes to a numeral that raises a `ValueError`. -/
def Host.Stuck (H : Host) (source : List Char) : Prop :=
  ∃ before numeral rest, source = before ++ (numeral ++ rest) ∧ Lexical H before (numeral ++ rest) ∧
    Numeral H numeral rest .unconvertible

/-- Tokens with their only `EOF` last, or a `LexError`. -/
def Answered (r : Except LexStop (List Token)) : Prop :=
  (∃ tokens eof, r = .ok (tokens ++ [eof]) ∧ eof.type = .EOF ∧ ∀ t ∈ tokens, t.type ≠ .EOF) ∨ ∃ m l k, r = lexError m l k

/-- A run that is answered, or one that is stuck at a numeral. -/
theorem scanTokens_total (fuel : ℕ) : ∀ (cs : List Char) (line : ℕ) (col : ℤ), cs.length < fuel →
    Answered (scanTokens H fuel ⟨cs, line, col⟩) ∨ H.Stuck cs := by
  induction fuel with
  | zero => exact fun cs _ _ h => absurd h (Nat.not_lt_zero _)
  | succ fuel ih =>
    intro cs line col hfuel
    cases cs with
    | nil => exact .inl (.inl ⟨[], _, rfl, rfl, by simp⟩)
    | cons c cs =>
      rcases scan_cases (H := H) c cs line col with ⟨m, l, k, hm⟩ | ⟨numeral, rest, hs, hnum, -⟩ | ⟨lexeme, rest, hs, hlex⟩
      · exact .inl (.inr ⟨m, l, k, scanTokens_error hm⟩)
      · exact .inr ⟨[], numeral, rest, hs.symm, .nil _, hnum⟩
      obtain ⟨token, s, hscan, hscans⟩ := scan_lexeme line col hlex hs
      rw [scanTokens_ok hscan]
      have hlen : rest.length < fuel := by
        have hpos := List.length_pos_of_ne_nil hlex.ne_nil
        have htotal := congrArg List.length hs
        rw [List.length_append, List.length_cons] at htotal
        rw [List.length_cons] at hfuel
        omega
      obtain ⟨rest', line', col'⟩ := s
      obtain rfl : rest' = rest := hscans.rest
      rcases ih rest' line' col' hlen with hans | ⟨before, numeral, after, rfl, hbefore, hnum⟩
      · left
        rcases hans with ⟨tokens, eof, hok, heof, hothers⟩ | ⟨m, l, k, hm⟩
        · refine .inl ⟨token.toList ++ tokens, eof, ?_, heof, fun t ht => ?_⟩
          · rw [hok, List.append_assoc]
            rfl
          · rcases List.mem_append.mp ht with ht | ht
            · exact (hscans.lexeme t (Option.mem_toList.mp ht)).2.2.2
            · exact hothers t ht
        · exact .inr ⟨m, l, k, by rw [hm]; rfl⟩
      · exact .inr ⟨lexeme ++ before, numeral, after, by rw [← hs, List.append_assoc], .cons hlex hbefore, hnum⟩

/-- A run that comes to such a numeral stops there. -/
theorem scanTokens_stuck {before numeral rest : List Char} (h : Lexical H before (numeral ++ rest))
    (hnum : Numeral H numeral rest .unconvertible) (fuel : ℕ) (line : ℕ) (col : ℤ)
    (hfuel : (before ++ (numeral ++ rest)).length < fuel) :
    scanTokens H fuel ⟨before ++ (numeral ++ rest), line, col⟩ = .error .valueError := by
  generalize hafter : numeral ++ rest = after at h hfuel ⊢
  induction h generalizing fuel line col with
  | nil after =>
    obtain ⟨fuel, rfl⟩ := Nat.exists_eq_succ_of_ne_zero (Nat.ne_of_gt (Nat.zero_lt_of_lt hfuel))
    rw [List.nil_append]
    cases after with
    | nil => exact absurd (List.append_eq_nil_iff.mp hafter).1 hnum.ne_nil
    | cons c cs =>
      have htells := scan_numeral line col hnum hafter
      refine scanTokens_error ?_
      generalize scanToken H c cs line col = r at htells
      cases htells
      rfl
  | @cons lexeme before after hlex _ ih =>
    obtain ⟨fuel, rfl⟩ := Nat.exists_eq_succ_of_ne_zero (Nat.ne_of_gt (Nat.zero_lt_of_lt hfuel))
    rw [List.append_assoc] at hfuel ⊢
    cases hc : lexeme ++ (before ++ after) with
    | nil => exact absurd (List.append_eq_nil_iff.mp hc).1 hlex.ne_nil
    | cons c cs =>
      obtain ⟨token, s, hscan, hscans⟩ := scan_lexeme line col hlex hc
      obtain ⟨rest', line', col'⟩ := s
      obtain rfl : rest' = before ++ after := hscans.rest
      have hpos := List.length_pos_of_ne_nil hlex.ne_nil
      rw [List.length_append] at hfuel
      rw [scanTokens_ok hscan, ih fuel line' col' hafter (by omega)]
      rfl

theorem stuck_iff {source : List Char} : H.Stuck source ↔ ∃ before numeral rest val, source = before ++ (numeral ++ rest) ∧
    Lexical H before (numeral ++ rest) ∧ Numeral H numeral rest val ∧ H.Refuses numeral := by
  constructor
  · rintro ⟨before, numeral, rest, hs, hbefore, hnum⟩
    exact ⟨before, numeral, rest, _, hs, hbefore, hnum, hnum.unconvertible_iff.mp rfl⟩
  · rintro ⟨before, numeral, rest, val, hs, hbefore, hnum, hrefuses⟩
    obtain rfl := hnum.unconvertible_iff.mpr hrefuses
    exact ⟨before, numeral, rest, hs, hbefore, hnum⟩

/-- Every text is answered but for those in which the scan comes to a numeral that the host
does not convert. -/
theorem tokenize_total (H : Host) (source : List Char) : Answered (tokenize H source) ↔
    ¬ ∃ before numeral rest val, source = before ++ (numeral ++ rest) ∧ Lexical H before (numeral ++ rest) ∧
      Numeral H numeral rest val ∧ H.Refuses numeral := by
  rw [← stuck_iff]
  constructor
  · rintro hans ⟨before, numeral, rest, rfl, hbefore, hnum⟩
    have hstuck : tokenize H (before ++ (numeral ++ rest)) = .error .valueError :=
      scanTokens_stuck hbefore hnum _ _ _ (Nat.lt_succ_self _)
    rw [hstuck] at hans
    rcases hans with ⟨tokens, eof, hok, -⟩ | ⟨m, l, k, hm⟩
    · cases hok
    · cases hm
  · exact fun h => (scanTokens_total _ source 1 1 (Nat.lt_succ_self _)).resolve_right h

/-- Python's predicates up to U+00FF: three superscripts are digits, with no decimal value. -/
def latin1Host : Host where
  isdigit c := c.isDigit || c ∈ ['²', '³', '¹']
  isalpha c := c.isAlpha || c ∈ ['ª', 'µ', 'º'] || (0xC0 ≤ c.toNat && c.toNat ≤ 0xFF && c != '×' && c != '÷')
  isalnum c := c.isAlphanum || c ∈ ['ª', 'µ', 'º', '²', '³', '¹', '¼', '½', '¾'] ||
    (0xC0 ≤ c.toNat && c.toNat ≤ 0xFF && c != '×' && c != '÷')
  decimal c := if c.isDigit then some (c.toNat - 48) else none
  maxStrDigits := 4300
  floatTooLarge _ := false
  ascii_digit c h := by
    have hne : c ∉ ['²', '³', '¹'] := by rintro hc; simp at hc; rcases hc with rfl | rfl | rfl <;> exact absurd h (by decide)
    simp [hne]
  ascii_alpha c h := by
    have hne : c ∉ ['ª', 'µ', 'º'] := by rintro hc; simp at hc; rcases hc with rfl | rfl | rfl <;> exact absurd h (by decide)
    have hlow : ¬ 0xC0 ≤ c.toNat := by omega
    simp [hne, hlow]
  ascii_alnum c h := by
    have hne : c ∉ ['ª', 'µ', 'º', '²', '³', '¹', '¼', '½', '¾'] := by
      rintro hc; simp at hc; rcases hc with rfl | rfl | rfl | rfl | rfl | rfl | rfl | rfl | rfl <;> exact absurd h (by decide)
    have hlow : ¬ 0xC0 ≤ c.toNat := by omega
    simp [hne, hlow]
  ascii_decimal _ _ := rfl
  digit_alnum c h := by
    simp only [Bool.or_eq_true, decide_eq_true_eq, List.mem_cons, List.not_mem_nil, or_false] at h ⊢
    rcases h with h | h
    · simp [Char.isAlphanum, h]
    · tauto
  alpha_alnum c h := by
    simp only [Bool.or_eq_true, decide_eq_true_eq, List.mem_cons, List.not_mem_nil, or_false] at h ⊢
    rcases h with (h | h) | h
    · simp [Char.isAlphanum, h]
    · tauto
    · exact .inr h
  decimal_digit c h := by
    cases hc : c.isDigit
    · simp [hc] at h
    · rfl

/-- A superscript two is scanned as a number. -/
theorem superscript_unanswered : tokenize latin1Host ['²'] = .error .valueError ∧ ¬ Answered (tokenize latin1Host ['²']) := by
  have h : tokenize latin1Host ['²'] = .error .valueError := by decide
  refine ⟨h, ?_⟩
  rw [h]
  rintro (⟨tokens, eof, hok, -⟩ | ⟨m, l, k, hm⟩)
  · cases hok
  · cases hm

end Totality

section Positions

variable {H : Host}

/-- The line and the column of what follows `before`. -/
def position (before : List Char) : ℕ × ℤ :=
  (1 + before.count '\n', 1 + ((before.reverse.takeWhile (· ≠ '\n')).length : ℤ))

theorem advanceAll_position (before : List Char) : advanceAll (1, 1) before = position before := by
  induction before using List.reverseRecOn with
  | nil => rfl
  | append_singleton before c ih =>
    have hsnoc : advanceAll (1, 1) (before ++ [c]) = advance (advanceAll (1, 1) before) c := by
      rw [advanceAll, List.foldl_append]
      rfl
    rw [hsnoc, ih]
    by_cases hc : c = '\n'
    · subst hc
      simp [advance, position, add_assoc]
    · rw [advance_of_ne hc, position, position, List.reverse_append, List.reverse_singleton, List.singleton_append,
        List.takeWhile_cons_of_pos (by simpa using hc), List.count_append, List.count_singleton, List.length_cons]
      simp [hc, add_comm]

theorem position_append (before cs : List Char) : position (before ++ cs) = advanceAll (position before) cs := by
  rw [← advanceAll_position, ← advanceAll_position, advanceAll, List.foldl_append]
  rfl

/-- The tokens of what follows `before`: each has the lexeme and the position of a lexical
element, and what is skipped between them is white space and comments. -/
inductive Placed (H : Host) : List Char → List Char → List Token → Prop
  | eof {before : List Char} {t : Token} : t.type = .EOF → t.lexeme = [] → (t.line, t.col) = position before → Placed H before [] [t]
  | skipped {before lexeme rest : List Char} {tokens : List Token} : Skipped lexeme rest →
      Placed H (before ++ lexeme) rest tokens → Placed H before (lexeme ++ rest) tokens
  | token {before lexeme rest : List Char} {t : Token} {tokens : List Token} : StringLiteral lexeme ∨ PlainLexeme H lexeme rest →
      t.lexeme = lexeme → (t.line, t.col) = position before → Placed H (before ++ lexeme) rest tokens →
      Placed H before (lexeme ++ rest) (t :: tokens)

def Earlier (a b : Token) : Prop := a.line < b.line ∨ a.line = b.line ∧ a.col < b.col

/-- A string literal that the scan comes to spans lines. -/
def Host.Spans (H : Host) (source : List Char) : Prop :=
  ∃ before literal after, source = before ++ (literal ++ after) ∧ Lexical H before (literal ++ after) ∧
    StringLiteral literal ∧ '\n' ∈ literal

theorem Host.Spans.of_rest {lexeme rest : List Char} (hlex : Lexeme H lexeme rest) (h : H.Spans rest) : H.Spans (lexeme ++ rest) := by
  obtain ⟨before, literal, after, rfl, hbefore, hliteral⟩ := h
  exact ⟨lexeme ++ before, literal, after, (List.append_assoc _ _ _).symm, .cons hlex hbefore, hliteral⟩

/-- At or after a position. -/
def From (p : ℕ × ℤ) (t : Token) : Prop := p.1 < t.line ∨ p.1 = t.line ∧ p.2 ≤ t.col

theorem From.advanceAll {p : ℕ × ℤ} {cs : List Char} {t : Token} (h : From (advanceAll p cs) t) : From p t := by
  by_cases hbreak : '\n' ∈ cs
  · exact .inl (lt_of_lt_of_le (line_lt_advanceAll hbreak) (h.elim Nat.le_of_lt fun h => Nat.le_of_eq h.1))
  · rw [advanceAll_of_notMem hbreak] at h
    exact h.imp_right fun h => ⟨h.1, le_trans (le_add_of_nonneg_right (Int.natCast_nonneg _)) h.2⟩

theorem Earlier.of_from {a b : Token} {cs : List Char} (hbreak : '\n' ∉ cs) (hcs : cs ≠ [])
    (h : From (QuinLang.advanceAll (a.line, a.col) cs) b) : Earlier a b := by
  have hpos : (0 : ℤ) < cs.length := by exact_mod_cast List.length_pos_of_ne_nil hcs
  rw [advanceAll_of_notMem hbreak] at h
  exact h.imp_right fun h => ⟨h.1, lt_of_lt_of_le (lt_add_of_pos_right _ hpos) h.2⟩

/-- The first scanning step of a run that gives tokens. -/
theorem scanTokens_cons {fuel : ℕ} {c : Char} {cs : List Char} {line : ℕ} {col : ℤ} {tokens : List Token}
    (h : scanTokens H (fuel + 1) ⟨c :: cs, line, col⟩ = .ok tokens) :
    ∃ lexeme rest, lexeme ++ rest = c :: cs ∧ Lexeme H lexeme rest := by
  rcases scan_cases (H := H) c cs line col with ⟨m, l, k, hm⟩ | ⟨_, _, -, -, hm⟩ | hlex
  · rw [scanTokens_error hm] at h
    cases h
  · rw [scanTokens_error hm] at h
    cases h
  · exact hlex

theorem scanTokens_rest {fuel : ℕ} {c : Char} {cs : List Char} {line : ℕ} {col : ℤ} {token : Option Token} {s : Lexer}
    {tokens : List Token} (hscan : scanToken H c cs line col = .ok (token, s))
    (h : scanTokens H (fuel + 1) ⟨c :: cs, line, col⟩ = .ok tokens) :
    ∃ tokens', tokens = token.toList ++ tokens' ∧ scanTokens H fuel s = .ok tokens' := by
  rw [scanTokens_ok hscan] at h
  cases hr : scanTokens H fuel s with
  | error e =>
    rw [hr] at h
    cases h
  | ok tokens' =>
    rw [hr] at h
    exact ⟨tokens', (Except.ok.inj h).symm, rfl⟩

/-- Without a string literal over several lines every token is placed. -/
theorem scanTokens_placed (fuel : ℕ) : ∀ (before cs : List Char) (tokens : List Token), ¬ H.Spans cs →
    scanTokens H fuel ⟨cs, (position before).1, (position before).2⟩ = .ok tokens →
    Placed H before cs tokens ∧ tokens.Pairwise Earlier ∧ ∀ t ∈ tokens, From (position before) t := by
  induction fuel with
  | zero => exact fun _ _ _ _ h => by cases h
  | succ fuel ih =>
    intro before cs tokens hspans h
    cases cs with
    | nil =>
      obtain rfl := Except.ok.inj h
      exact ⟨.eof rfl rfl rfl, List.pairwise_singleton _ _, List.forall_mem_singleton.mpr (.inr ⟨rfl, le_refl _⟩)⟩
    | cons c cs =>
      obtain ⟨lexeme, rest, hs, hlex⟩ := scanTokens_cons h
      rw [← hs] at hspans ⊢
      have hnext {s : Lexer} {token : Option Token} {tokens' : List Token}
          (hscans : Scans lexeme rest (position before).1 (position before).2 token s) (hrest : scanTokens H fuel s = .ok tokens') :
          Placed H (before ++ lexeme) rest tokens' ∧ tokens'.Pairwise Earlier ∧ ∀ t ∈ tokens', From (position (before ++ lexeme)) t := by
        refine ih _ _ _ (fun hsp => hspans (hsp.of_rest hlex)) ?_
        rw [position_append, ← hscans.position, ← hscans.rest]
        exact hrest
      have htoken {s : Lexer} {t : Token} {tokens' : List Token} (hkind : StringLiteral lexeme ∨ PlainLexeme H lexeme rest)
          (hbreak : '\n' ∉ lexeme) (hscans : Scans lexeme rest (position before).1 (position before).2 (some t) s)
          (hrest : scanTokens H fuel s = .ok tokens') : Placed H before (lexeme ++ rest) (t :: tokens') ∧
          (t :: tokens').Pairwise Earlier ∧ ∀ u ∈ t :: tokens', From (position before) u := by
        obtain ⟨hplaced, hpairs, hfrom⟩ := hnext hscans hrest
        obtain ⟨hlexeme, hline, hcol, -⟩ := hscans.lexeme t rfl
        have hpos := hscans.position
        rw [advanceAll_of_notMem hbreak] at hpos
        have hat : (t.line, t.col) = position before := by
          rw [hline, hcol, (Prod.mk.inj hpos).1, (Prod.mk.inj hpos).2, add_sub_cancel_right]
        refine ⟨.token hkind hlexeme hat hplaced, List.pairwise_cons.mpr ⟨fun u hu => ?_, hpairs⟩, fun u hu => ?_⟩
        · refine Earlier.of_from hbreak hlex.ne_nil ?_
          rw [hat, ← position_append]
          exact hfrom u hu
        · rcases List.mem_cons.mp hu with rfl | hu
          · rw [← hat]
            exact .inr ⟨rfl, le_refl _⟩
          · have := hfrom u hu
            rw [position_append] at this
            exact this.advanceAll
      cases hlex with
      | skipped hskip =>
        obtain ⟨s, hscan, hscans⟩ := scan_skipped (H := H) (position before).1 (position before).2 hskip hs
        obtain ⟨tokens, rfl, hrest⟩ := scanTokens_rest hscan h
        obtain ⟨hplaced, hpairs, hfrom⟩ := hnext hscans hrest
        refine ⟨.skipped hskip hplaced, hpairs, fun t ht => ?_⟩
        have := hfrom t ht
        rw [position_append] at this
        exact this.advanceAll
      | string hstring =>
        obtain ⟨t, s, hscan, hscans⟩ := scan_string (H := H) (position before).1 (position before).2 hstring hs
        obtain ⟨tokens, rfl, hrest⟩ := scanTokens_rest hscan h
        exact htoken (.inl hstring) (fun hbreak => hspans ⟨[], lexeme, rest, rfl, .nil _, hstring, hbreak⟩) hscans hrest
      | plain hplain =>
        obtain ⟨hbreak, t, s, hscan, hscans⟩ := scan_plain (position before).1 (position before).2 hplain hs
        obtain ⟨tokens, rfl, hrest⟩ := scanTokens_rest hscan h
        exact htoken (.inr hplain) hbreak hscans hrest

/-- From a lexical element on, the tokens are placed if those of the whole are. -/
theorem Placed.rest {before lexeme rest cs : List Char} {c : Char} {line : ℕ} {col : ℤ} {token : Option Token} {s : Lexer}
    {tokens : List Token} (hs : lexeme ++ rest = c :: cs) (hlex : Lexeme H lexeme rest)
    (hscan : scanToken H c cs line col = .ok (token, s)) (h : Placed H before (c :: cs) (token.toList ++ tokens)) :
    Placed H (before ++ lexeme) rest tokens ∧ ∀ t ∈ token, (t.line, t.col) = position before := by
  generalize hsource : c :: cs = source at h
  generalize htokens : token.toList ++ tokens = all at h
  cases h with
  | eof => cases hsource
  | @skipped _ lexeme' rest' _ hskip h =>
    obtain ⟨rfl, rfl⟩ := hlex.unique (.skipped hskip) (hs.trans hsource)
    obtain ⟨s', hscan', -⟩ := scan_skipped (H := H) line col hskip hs
    obtain ⟨rfl, -⟩ := Prod.mk.inj (Except.ok.inj (hscan.symm.trans hscan'))
    obtain rfl := htokens
    exact ⟨h, fun t ht => by cases ht⟩
  | @token _ lexeme' rest' t all hkind _ hat h =>
    obtain ⟨rfl, rfl⟩ := hlex.unique (hkind.elim .string .plain) (hs.trans hsource)
    have hsome : ∃ t' s', scanToken H c cs line col = .ok (some t', s') := by
      rcases hkind with hstring | hplain
      · obtain ⟨t', s', hscan', -⟩ := scan_string (H := H) line col hstring hs
        exact ⟨t', s', hscan'⟩
      · obtain ⟨-, t', s', hscan', -⟩ := scan_plain line col hplain hs
        exact ⟨t', s', hscan'⟩
    obtain ⟨t', s', hscan'⟩ := hsome
    obtain ⟨rfl, -⟩ := Prod.mk.inj (Except.ok.inj (hscan.symm.trans hscan'))
    obtain ⟨rfl, rfl⟩ := List.cons_eq_cons.mp htokens
    exact ⟨h, fun u hu => by cases hu; exact hat⟩

/-- The token of a string literal that spans lines is not where the literal starts. -/
theorem not_placed_of_spans {before literal after : List Char} (hbefore : Lexical H before (literal ++ after))
    (hliteral : StringLiteral literal) (hbreak : '\n' ∈ literal) (fuel : ℕ) (start : List Char) (tokens : List Token)
    (h : scanTokens H fuel ⟨before ++ (literal ++ after), (position start).1, (position start).2⟩ = .ok tokens) :
    ¬ Placed H start (before ++ (literal ++ after)) tokens := by
  generalize htail : literal ++ after = tail at hbefore h ⊢
  intro hplaced
  induction hbefore generalizing fuel start tokens with
  | nil tail =>
    cases fuel with
    | zero => cases h
    | succ fuel =>
      rw [List.nil_append] at h hplaced
      cases hc : tail with
      | nil => exact (show Lexeme H literal after from .string hliteral).ne_nil (List.append_eq_nil_iff.mp (htail.trans hc)).1
      | cons c cs =>
        obtain ⟨t, s, hscan, hscans⟩ :=
          scan_string (H := H) (position start).1 (position start).2 hliteral (htail.trans hc)
        rw [hc] at h hplaced
        obtain ⟨tokens, rfl, -⟩ := scanTokens_rest hscan h
        have hat := (hplaced.rest (htail.trans hc) (.string hliteral) hscan).2 t rfl
        obtain ⟨-, hline, -⟩ := hscans.lexeme t rfl
        have hlater := line_lt_advanceAll (p := position start) hbreak
        rw [← hscans.position, ← hat] at hlater
        exact absurd hline (Nat.ne_of_lt hlater)
  | @cons lexeme before tail hlex _ ih =>
    cases fuel with
    | zero => cases h
    | succ fuel =>
      rw [List.append_assoc] at h hplaced
      cases hc : lexeme ++ (before ++ tail) with
      | nil => exact hlex.ne_nil (List.append_eq_nil_iff.mp hc).1
      | cons c cs =>
        obtain ⟨token, s, hscan, hscans⟩ := scan_lexeme (position start).1 (position start).2 hlex hc
        rw [hc] at h hplaced
        obtain ⟨tokens, rfl, hrest⟩ := scanTokens_rest hscan h
        have hs : s = ⟨before ++ tail, (position (start ++ lexeme)).1, (position (start ++ lexeme)).2⟩ := by
          rw [position_append, ← hscans.position, ← hscans.rest]
        rw [hs] at hrest
        exact ih fuel (start ++ lexeme) tokens htail hrest (hplaced.rest hc hlex hscan).1

/-- The tokens of a text stand where its lexical elements do, in order, unless a string literal
spans lines: its token has the line of its closing quote. -/
theorem tokenize_positions {source : List Char} {tokens : List Token} (h : tokenize H source = .ok tokens) :
    (Placed H [] source tokens ∧ tokens.Pairwise Earlier) ↔
      ∀ before literal after, source = before ++ (literal ++ after) → Lexical H before (literal ++ after) →
        StringLiteral literal → '\n' ∉ literal := by
  constructor
  · rintro ⟨hplaced, -⟩ before literal after rfl hbefore hliteral hbreak
    exact not_placed_of_spans hbefore hliteral hbreak _ [] tokens h hplaced
  · intro hall
    have hspans : ¬ H.Spans source := by
      rintro ⟨before, literal, after, hs, hbefore, hliteral, hbreak⟩
      exact hall before literal after hs hbefore hliteral hbreak
    obtain ⟨hplaced, hpairs, -⟩ := scanTokens_placed _ [] source tokens hspans h
    exact ⟨hplaced, hpairs⟩

/-- Two tokens over three lines, with a comment between them. -/
theorem tokenize_positions_two : (Placed latin1Host [] ['x', '/', '/', '\n', '\n', '='] [⟨.IDENTIFIER, ['x'], 1, 1, none⟩,
      ⟨.EQUAL, ['='], 3, 1, none⟩, ⟨.EOF, [], 3, 2, none⟩] ∧ List.Pairwise Earlier [⟨.IDENTIFIER, ['x'], 1, 1, none⟩,
      ⟨.EQUAL, ['='], 3, 1, none⟩, ⟨.EOF, [], 3, 2, none⟩]) ↔
    ∀ before literal after, ['x', '/', '/', '\n', '\n', '='] = before ++ (literal ++ after) →
      Lexical latin1Host before (literal ++ after) → StringLiteral literal → '\n' ∉ literal :=
  tokenize_positions (by decide)

/-- A string with a line break in it is placed on its second line, before the first column. -/
theorem broken_string_misplaced : tokenize latin1Host ['"', 'a', '\n', 'b', '"'] =
      .ok [⟨.STRING, ['"', 'a', '\n', 'b', '"'], 2, -2, some (.str ['a', '\n', 'b'])⟩, ⟨.EOF, [], 2, 3, none⟩] ∧
    ¬ Placed latin1Host [] ['"', 'a', '\n', 'b', '"']
      [⟨.STRING, ['"', 'a', '\n', 'b', '"'], 2, -2, some (.str ['a', '\n', 'b'])⟩, ⟨.EOF, [], 2, 3, none⟩] := by
  have hrun : tokenize latin1Host ['"', 'a', '\n', 'b', '"'] =
      .ok [⟨.STRING, ['"', 'a', '\n', 'b', '"'], 2, -2, some (.str ['a', '\n', 'b'])⟩, ⟨.EOF, [], 2, 3, none⟩] := by decide
  have hbody : StringBody ['a', '\n', 'b'] := .char (by decide) (by decide) (by decide)
    (.char (by decide) (by decide) (by decide) (.char (by decide) (by decide) (by decide) .nil))
  exact ⟨hrun, not_placed_of_spans (.nil _) ⟨hbody⟩ (by decide) _ [] _ hrun⟩

end Positions

end QuinLang
