import QuinLang.Compiler.StatementParser

/-! The parser ends on every list of tokens, and each of its loops takes a token in every
turn it goes on after. -/

namespace QuinLang

namespace Parser

open Consuming (Takes Turns Regime)

section Inputs

/-- Lists of tokens whose only end of file is their last. -/
inductive Ended : List Token → Prop
  | last {t : Token} : t.type = .EOF → Ended [t]
  | cons {t : Token} {ts : List Token} : t.type ≠ .EOF → Ended ts → Ended (t :: ts)

/-- Every number has its value, which fits in 16 bits. -/
def Numbered (ts : List Token) : Prop := ∀ t ∈ ts, t.type = .NUMBER → ∃ n ≤ 0xFFFF, t.literal = some (.int n)

def ParseStop.IsParseError (e : ParseStop) : Prop := ∃ message line col, e = .parseError message line col

/-- What the parser is given, and the one way it may stop. -/
def parsing : Regime Token ParseStop where
  Input ts := Ended ts ∧ Numbered ts
  Refusal := ParseStop.IsParseError
  ne_nil := by
    rintro ts ⟨h | _, -⟩ <;> exact List.cons_ne_nil _ _

theorem parsing_tail {t : Token} {ts : List Token} (h : parsing.Input (t :: ts)) (ht : t.type ≠ .EOF) : parsing.Input ts := by
  obtain ⟨hend, hnum⟩ := h
  refine ⟨?_, fun u hu => hnum u (List.mem_cons_of_mem _ hu)⟩
  cases hend with
  | last heof => exact absurd heof ht
  | cons _ h => exact h

theorem parsing_cons {ts : List Token} (h : parsing.Input ts) : ∃ t rest, ts = t :: rest := by
  cases ts with
  | nil => exact absurd rfl (parsing.ne_nil _ h)
  | cons t rest => exact ⟨t, rest, rfl⟩

theorem isParseError (message : String) (line : ℕ) (col : ℤ) : parsing.Refusal (.parseError message line col) :=
  ⟨message, line, col, rfl⟩

end Inputs

section Cursor

variable {n k : ℕ} {α : Type}

theorem takes_consume (type : TokenType) (msg : String) : Takes parsing n 1 (consume type msg) := by
  intro ts hts _
  obtain ⟨t, rest, rfl⟩ := parsing_cons hts
  by_cases h : t.type ≠ .EOF ∧ t.type = type
  · exact .inl ⟨t, rest, if_pos h, parsing_tail hts h.1, le_rfl⟩
  · exact .inr ⟨_, if_neg h, isParseError _ _ _⟩

theorem takes_peekToken : Takes parsing n 0 peekToken := by
  intro ts hts _
  obtain ⟨t, rest, rfl⟩ := parsing_cons hts
  exact .inl ⟨t, t :: rest, rfl, hts, le_rfl⟩

theorem takes_checkToken (type : TokenType) : Takes parsing n 0 (checkToken type) := by
  intro ts hts _
  obtain ⟨t, rest, rfl⟩ := parsing_cons hts
  exact .inl ⟨_, t :: rest, rfl, hts, le_rfl⟩

theorem takes_checkNext (type : TokenType) : Takes parsing n 0 (checkNext type) := by
  intro ts hts _
  match ts with
  | [] => exact .inl ⟨_, _, rfl, hts, le_rfl⟩
  | [t] => exact .inl ⟨_, _, rfl, hts, le_rfl⟩
  | t :: u :: rest => exact .inl ⟨_, _, rfl, hts, le_rfl⟩

theorem takes_refuse (message : String) (tok : Token) : Takes parsing n k (refuse message tok : Parse α) :=
  .throw (isParseError _ _ _)

/-- The closing bracket that is left of a longer token is a token of the input. -/
theorem takes_closeTypeArguments : Takes parsing n 0 closeTypeArguments := by
  intro ts hts hlen
  obtain ⟨t, rest, rfl⟩ := parsing_cons hts
  cases hsplit : SPLIT_ON_CLOSE t.type with
  | some split =>
    obtain ⟨kind, lexeme⟩ := split
    have hkind : kind ≠ .EOF ∧ kind ≠ .NUMBER ∧ t.type ≠ .EOF := by
      revert hsplit
      cases t.type <;> simp +contextual [SPLIT_ON_CLOSE, eq_comm]
    obtain ⟨hrest, hnum⟩ := parsing_tail hts hkind.2.2
    refine .inl ⟨(), ⟨kind, lexeme, t.line, t.col + 1, none⟩ :: rest, ?_, ⟨.cons hkind.1 hrest, ?_⟩, le_rfl⟩
    · simp only [closeTypeArguments, hsplit]
    · rintro u hu hnumber
      rcases List.mem_cons.mp hu with rfl | hu
      · exact absurd hnumber hkind.2.1
      · exact hnum u hu hnumber
  | none =>
    have hconsume : Takes parsing n 0 (do let _ ← consume .GREATER "Expected '>' after type arguments") :=
      ((takes_consume _ _).bind fun _ => .pure _).mono le_rfl (Nat.zero_le 1)
    have heq : closeTypeArguments (t :: rest) =
        (do let _ ← consume .GREATER "Expected '>' after type arguments") (t :: rest) := by
      simp only [closeTypeArguments, hsplit]
    rw [heq]
    exact hconsume _ hts hlen

theorem matchToken_cases (type : TokenType) {ts : List Token} (hts : parsing.Input ts) :
    (∃ rest, matchToken type ts = .ok (true, rest) ∧ parsing.Input rest ∧ rest.length < ts.length) ∨
      matchToken type ts = .ok (false, ts) := by
  obtain ⟨t, rest, rfl⟩ := parsing_cons hts
  by_cases h : t.type ≠ .EOF ∧ t.type = type
  · exact .inl ⟨rest, if_pos h, parsing_tail hts h.1, Nat.lt_succ_self _⟩
  · exact .inr (if_neg h)

theorem matchAny_cases (types : List TokenType) {ts : List Token} (hts : parsing.Input ts) :
    (∃ t rest, matchAny types ts = .ok (some t, rest) ∧ parsing.Input rest ∧ rest.length < ts.length) ∨
      matchAny types ts = .ok (none, ts) := by
  obtain ⟨t, rest, rfl⟩ := parsing_cons hts
  by_cases h : t.type ≠ .EOF ∧ t.type ∈ types
  · exact .inl ⟨t, rest, if_pos h, parsing_tail hts h.1, Nat.lt_succ_self _⟩
  · exact .inr (if_neg h)

variable {σ : Type}

theorem takes_ifMatch {type : TokenType} {yes no : Parse α} (hyes : Takes parsing (n - 1) (k - 1) yes)
    (hno : Takes parsing n k no) : Takes parsing n k (matchToken type >>= fun c => if c = true then yes else no) := by
  intro ts hts hlen
  rcases matchToken_cases type hts with ⟨rest, h, hrest, hlt⟩ | h
  · rw [StateExcept.bind_eq h, if_pos rfl]
    rcases hyes rest hrest (by omega) with ⟨a, rest', ha, hrest', hle⟩ | hrefuse
    · exact .inl ⟨a, rest', ha, hrest', by omega⟩
    · exact .inr hrefuse
  · rw [StateExcept.bind_eq h, if_neg Bool.false_ne_true]
    exact hno ts hts hlen

theorem turns_ifMatch {type : TokenType} {yes no : Parse (σ ⊕ α)} (hyes : Takes parsing (n - 1) 0 yes)
    (hno : Turns parsing n no) : Turns parsing n (matchToken type >>= fun c => if c = true then yes else no) := by
  intro ts hts hlen
  rcases matchToken_cases type hts with ⟨rest, h, hrest, hlt⟩ | h
  · rw [StateExcept.bind_eq h, if_pos rfl]
    rcases hyes rest hrest (by omega) with ⟨s | a, rest', ha, hrest', hle⟩ | hrefuse
    · exact .inl ⟨s, rest', ha, hrest', by omega⟩
    · exact .inr (.inl ⟨a, rest', ha, hrest', by omega⟩)
    · exact .inr (.inr hrefuse)
  · rw [StateExcept.bind_eq h, if_neg Bool.false_ne_true]
    exact hno ts hts hlen

theorem takes_matchAny {types : List TokenType} {f : Option Token → Parse α}
    (hsome : ∀ t, Takes parsing (n - 1) (k - 1) (f (some t))) (hnone : Takes parsing n k (f none)) :
    Takes parsing n k (matchAny types >>= f) := by
  intro ts hts hlen
  rcases matchAny_cases types hts with ⟨t, rest, h, hrest, hlt⟩ | h
  · rw [StateExcept.bind_eq h]
    rcases hsome t rest hrest (by omega) with ⟨a, rest', ha, hrest', hle⟩ | hrefuse
    · exact .inl ⟨a, rest', ha, hrest', by omega⟩
    · exact .inr hrefuse
  · rw [StateExcept.bind_eq h]
    exact hnone ts hts hlen

theorem turns_matchAny {types : List TokenType} {f : Option Token → Parse (σ ⊕ α)}
    (hsome : ∀ t, Takes parsing (n - 1) 0 (f (some t))) (hnone : Turns parsing n (f none)) :
    Turns parsing n (matchAny types >>= f) := by
  intro ts hts hlen
  rcases matchAny_cases types hts with ⟨t, rest, h, hrest, hlt⟩ | h
  · rw [StateExcept.bind_eq h]
    rcases hsome t rest hrest (by omega) with ⟨s | a, rest', ha, hrest', hle⟩ | hrefuse
    · exact .inl ⟨s, rest', ha, hrest', by omega⟩
    · exact .inr (.inl ⟨a, rest', ha, hrest', by omega⟩)
    · exact .inr (.inr hrefuse)
  · rw [StateExcept.bind_eq h]
    exact hnone ts hts hlen

theorem takes_ifCheck {type : TokenType} {yes no : Parse α} (hyes : Takes parsing n k yes) (hno : Takes parsing n k no) :
    Takes parsing n k (checkToken type >>= fun c => if c = true then yes else no) := by
  refine (takes_checkToken type).bind fun c => ?_
  cases c
  · exact hno
  · exact hyes

theorem turns_ifCheck {type : TokenType} {yes no : Parse (σ ⊕ α)} (hyes : Turns parsing n yes) (hno : Turns parsing n no) :
    Turns parsing n (checkToken type >>= fun c => if c = true then yes else no) := by
  refine Turns.bind (takes_checkToken type) fun c => ?_
  cases c
  · exact hno
  · exact hyes

end Cursor

section Types

variable {n : ℕ}

/-- A turn of the loop over type arguments, or over the parameter types of a function type. -/
def typeTurn (typeName : Parse (List Char)) (types : List (List Char)) : Parse (List (List Char) ⊕ List (List Char)) := do
  if ← matchToken .COMMA then
    let type ← typeName
    return .inl (types ++ [type])
  else return .inr types

/-- The loop as it is written in the reading of types. -/
theorem typeList_eq_loop (typeName : Parse (List Char)) (fuel : ℕ) (types : List (List Char)) :
    typeList typeName fuel types = Consuming.loop .outOfFuel (typeTurn typeName) fuel types := by
  induction fuel generalizing types with
  | zero => rfl
  | succ fuel ih =>
    rw [typeList, Consuming.loop, typeTurn, bind_assoc]
    congr 1
    funext c
    cases c with
    | true =>
      simp only [if_true, bind_assoc, pure_bind, ih]
    | false => simp

theorem turns_typeTurn {typeName : Parse (List Char)} (h : Takes parsing n 1 typeName) (types : List (List Char)) :
    Turns parsing n (typeTurn typeName types) :=
  turns_ifMatch ((h.mono (Nat.sub_le n 1) (Nat.zero_le 1)).bind fun _ => .pure _) (.ends _)

theorem takes_typeList {typeName : Parse (List Char)} (h : Takes parsing n 1 typeName) (fuel : ℕ) (hfuel : n ≤ fuel)
    (types : List (List Char)) : Takes parsing n 0 (typeList typeName fuel types) := by
  rw [typeList_eq_loop]
  exact Turns.loop (turns_typeTurn h) fuel hfuel types

theorem takes_paramTypes {typeName : Parse (List Char)} {fuel : ℕ} (h : Takes parsing n 1 typeName) (hfuel : n ≤ fuel) :
    Takes parsing n 0 (paramTypes typeName fuel) :=
  takes_ifCheck (.pure _)
    ((h.mono le_rfl (Nat.zero_le 1)).bind fun type => takes_typeList h fuel hfuel [type])

theorem takes_returnType {typeName : Parse (List Char)} (h : Takes parsing n 1 typeName) :
    Takes parsing n 0 (returnType typeName) :=
  takes_ifMatch (h.mono (Nat.sub_le _ _) (Nat.zero_le 1)) (.pure _)

theorem takes_functionTypeName {typeName : Parse (List Char)} {fuel : ℕ} (h : Takes parsing n 1 typeName) (hfuel : n ≤ fuel) :
    Takes parsing n 0 (functionTypeName typeName fuel) := by
  refine (takes_consume _ _).bind fun _ => ?_
  refine (takes_paramTypes (h.mono (Nat.sub_le _ _) le_rfl) ((Nat.sub_le _ _).trans hfuel)).bind fun params => ?_
  refine (takes_consume _ _).bind fun _ => ?_
  refine (takes_returnType (h.mono (by omega) le_rfl)).bind fun ret => ?_
  exact .pure _

theorem takes_typeArguments {typeName : Parse (List Char)} {fuel : ℕ} (h : Takes parsing n 1 typeName) (hfuel : n ≤ fuel)
    (base : List Char) : Takes parsing n 0 (typeArguments typeName fuel base) := by
  refine (h.mono le_rfl (Nat.zero_le 1)).bind fun type => ?_
  refine (takes_typeList h fuel hfuel [type]).bind fun args => ?_
  refine takes_closeTypeArguments.bind fun _ => ?_
  exact .pure _

theorem keywordType_cases (types : List (TokenType × List Char)) {ts : List Token} (hts : parsing.Input ts) :
    (∃ name rest, keywordType types ts = .ok (some name, rest) ∧ parsing.Input rest ∧ rest.length < ts.length) ∨
      keywordType types ts = .ok (none, ts) := by
  induction types with
  | nil => exact .inr rfl
  | cons entry types ih =>
    obtain ⟨type, name⟩ := entry
    rw [keywordType]
    rcases matchToken_cases type hts with ⟨rest, h, hrest, hlt⟩ | h
    · exact .inl ⟨name, rest, StateExcept.bind_eq h, hrest, hlt⟩
    · rw [StateExcept.bind_eq h]
      exact ih

/-- A number that is read as a length has its value. -/
theorem takes_arraySuffix (base : List Char) : Takes parsing n 0 (arraySuffix base) := by
  have hplain : Takes parsing n 0 (checkToken .LEFT_BRACKET >>= fun c => if c = true then
      (peekToken >>= fun tok => throw (.parseError s!"Only int arrays exist; '{ofChars base}[N]' is not a type" tok.line tok.col))
      else (pure base : Parse (List Char))) :=
    takes_ifCheck (takes_peekToken.bind fun tok => .throw (isParseError _ _ _)) (.pure _)
  rw [arraySuffix, matchLength]
  split
  · refine takes_ifMatch ?_ hplain
    intro ts hts hlen
    obtain ⟨t, rest, rfl⟩ := parsing_cons hts
    by_cases h : t.type ≠ .EOF ∧ t.type = .NUMBER
    · have hnum : consume .NUMBER "Expected array size after '['" (t :: rest) = .ok (t, rest) := if_pos h
      rw [StateExcept.bind_eq hnum]
      obtain ⟨m, -, hm⟩ := hts.2 t List.mem_cons_self h.2
      rw [hm]
      have hclose : Takes parsing (t :: rest).length 0
          (consume .RIGHT_BRACKET "Expected ']' after array size" >>= fun _ =>
            (pure (['i', 'n', 't', '['] ++ (Nat.toDigits 10 m ++ [']'])) : Parse (List Char))) :=
        (takes_consume _ _).bind fun _ => .pure _
      rcases hclose rest (parsing_tail hts h.1) (Nat.le_succ _) with ⟨a, rest', ha, hrest', hle⟩ | hrefuse
      · exact .inl ⟨a, rest', ha, hrest', Nat.le_succ_of_le hle⟩
      · exact .inr hrefuse
    · exact .inr ⟨_, StateExcept.bind_error (if_neg h), isParseError _ _ _⟩
  · exact hplain

theorem takes_parseTypeName (fuel : ℕ) : Takes parsing fuel 1 (parseTypeName fuel) := by
  induction fuel with
  | zero => exact .none
  | succ fuel ih =>
    rw [parseTypeName]
    refine takes_ifMatch (takes_functionTypeName ih le_rfl) ?_
    intro ts hts hlen
    rcases keywordType_cases KEYWORD_TYPES hts with ⟨name, rest, h, hrest, hlt⟩ | h
    · rw [StateExcept.bind_eq h]
      rcases takes_arraySuffix name rest hrest le_rfl with ⟨a, rest', ha, hrest', hle⟩ | hrefuse
      · exact .inl ⟨a, rest', ha, hrest', by omega⟩
      · exact .inr hrefuse
    · rw [StateExcept.bind_eq h]
      have hname : Takes parsing (fuel + 1) 1 (consume .IDENTIFIER "Expected type name" >>= fun tok =>
          matchToken .LESS >>= fun c => if c = true then typeArguments (parseTypeName fuel) fuel tok.lexeme
            else arraySuffix tok.lexeme) :=
        (takes_consume _ _).bind fun tok =>
          takes_ifMatch ((takes_typeArguments ih le_rfl tok.lexeme).mono (Nat.sub_le _ _) le_rfl) (takes_arraySuffix _)
      exact hname ts hts hlen

end Types

section Expressions

variable {n k fuel : ℕ} {α : Type} {item : Parse α} {expression : Parse Expr}

theorem turns_commaTurn (h : Takes parsing n 1 item) (xs : List α) : Turns parsing n (commaTurn item xs) := by
  refine Takes.turns (h.bind fun i => ?_)
  exact takes_ifMatch (.pure _) (.pure _)

theorem turns_bracedTurn (h : Takes parsing n 1 item) (xs : List α) : Turns parsing n (bracedTurn item xs) :=
  turns_ifCheck (.ends _) (turns_commaTurn h xs)

theorem turns_itemTurn (h : Takes parsing n 1 item) (xs : List α) : Turns parsing n (itemTurn item xs) :=
  turns_ifCheck (.ends _) (Takes.turns (h.bind fun _ => .pure _))

theorem takes_commaList (h : Takes parsing n 1 item) (hfuel : n ≤ fuel) : Takes parsing n 0 (commaList fuel item) :=
  Turns.loop (turns_commaTurn h) fuel hfuel []

theorem takes_bracedList (h : Takes parsing n 1 item) (hfuel : n ≤ fuel) : Takes parsing n 0 (bracedList fuel item) :=
  Turns.loop (turns_bracedTurn h) fuel hfuel []

theorem takes_items (h : Takes parsing n 1 item) (hfuel : n ≤ fuel) : Takes parsing n 0 (items fuel item) :=
  Turns.loop (turns_itemTurn h) fuel hfuel []

theorem takes_qualified (first : Token) : Takes parsing n 1 (qualified first) := by
  refine (takes_consume _ _).bind fun _ => ?_
  refine (takes_consume _ _).bind fun second => ?_
  exact takes_ifCheck (takes_peekToken.bind fun tok => takes_refuse _ _) (.pure _)

theorem takes_arguments (h : Takes parsing n 1 expression) (hfuel : n ≤ fuel) : Takes parsing n 0 (arguments fuel expression) :=
  takes_ifCheck (.pure _) (takes_commaList h hfuel)

theorem takes_callArguments (h : Takes parsing n 1 expression) (hfuel : n ≤ fuel) :
    Takes parsing n 1 (callArguments fuel expression) := by
  refine (takes_arguments h hfuel).bind fun args => ?_
  refine (takes_consume _ _).bind fun _ => ?_
  exact .pure _

theorem takes_fieldInit (h : Takes parsing n 1 expression) : Takes parsing n 1 (fieldInit expression) := by
  refine (takes_consume _ _).bind fun f => ?_
  refine (takes_consume _ _).bind fun _ => ?_
  refine (h.mono (by omega) (Nat.zero_le 1)).bind fun value => ?_
  exact .pure _

theorem takes_structLiteral (h : Takes parsing n 1 expression) (hfuel : n ≤ fuel) (name : List Char) (pos : At) :
    Takes parsing n 1 (structLiteral fuel expression name pos) := by
  refine (takes_consume _ _).bind fun _ => ?_
  refine (takes_bracedList (takes_fieldInit (h.mono (Nat.sub_le n 1) le_rfl)) (by omega)).bind fun inits => ?_
  refine ((takes_consume _ _).mono le_rfl (Nat.zero_le 1)).bind fun _ => ?_
  exact .pure _

theorem takes_primaryName (h : Takes parsing n 1 expression) (hfuel : n ≤ fuel) (tok : Token) :
    Takes parsing n 0 (primaryName fuel expression tok) := by
  refine (takes_checkToken _).bind fun c => (takes_checkNext _).bind fun d => ?_
  split
  · exact ((takes_qualified tok).mono le_rfl (Nat.zero_le 1)).bind fun name => .pure _
  · exact takes_ifCheck ((takes_structLiteral h hfuel _ _).mono le_rfl (Nat.zero_le 1)) (.pure _)

theorem takes_primary (h : Takes parsing n 1 expression) (hfuel : n ≤ fuel) : Takes parsing (n + 1) 1 (primary fuel expression) := by
  refine takes_matchAny (fun tok => .pure _) ?_
  refine takes_matchAny (fun tok => .pure _) ?_
  refine takes_matchAny (fun tok => .pure _) ?_
  refine takes_matchAny (fun tok => .pure _) ?_
  refine takes_matchAny (fun tok => .pure _) ?_
  refine takes_matchAny (fun tok => .pure _) ?_
  refine takes_matchAny (fun tok => takes_primaryName h hfuel tok) ?_
  refine takes_ifMatch ?_ ?_
  · refine (h.mono le_rfl (Nat.zero_le 1)).bind fun expr => ?_
    refine ((takes_consume _ _).mono le_rfl (Nat.zero_le 1)).bind fun _ => ?_
    exact .pure _
  · exact takes_peekToken.bind fun tok => takes_refuse _ _

theorem takes_turbofish (h : Takes parsing n 1 expression) (hfuel : n ≤ fuel) (pos : At) (name : List Char) :
    Takes parsing n 0 (turbofish fuel expression pos name) := by
  refine (takes_consume _ _).bind fun _ => ?_
  have htype : Takes parsing (n - 1) 1 (parseTypeName fuel) := (takes_parseTypeName fuel).mono (by omega) le_rfl
  refine (htype.mono le_rfl (Nat.zero_le 1)).bind fun type => ?_
  refine (takes_typeList htype fuel (by omega) [type]).bind fun types => ?_
  refine takes_closeTypeArguments.bind fun _ => ?_
  refine takes_ifCheck ((takes_structLiteral (h.mono (by omega) le_rfl) (by omega) _ _).mono le_rfl (Nat.zero_le 1)) ?_
  refine (takes_consume _ _).bind fun paren => ?_
  refine ((takes_callArguments (h.mono (by omega) le_rfl) (by omega)).mono le_rfl (Nat.zero_le 1)).bind fun args => ?_
  exact .pure _

theorem turns_suffix (h : Takes parsing n 1 expression) (expr : Expr) : Turns parsing (n + 1) (suffix expression expr) := by
  refine turns_matchAny (fun bracket => ?_) (turns_ifMatch ?_ (.ends _))
  · refine (h.mono le_rfl (Nat.zero_le 1)).bind fun index => ?_
    refine ((takes_consume _ _).mono le_rfl (Nat.zero_le 1)).bind fun _ => ?_
    exact .pure _
  · exact (takes_consume _ _).bind fun field => .pure _

theorem turns_callSuffix (h : Takes parsing n 1 expression) (hfuel : n ≤ fuel) (expr : Expr) (callee : List Char)
    (receiver : Option Expr) : Turns parsing (n + 1) (callSuffix fuel expression expr callee receiver) := by
  refine turns_matchAny (fun paren => ?_) (turns_suffix h expr)
  exact ((takes_callArguments h hfuel).mono le_rfl (Nat.zero_le 1)).bind fun args => .pure _

theorem turns_callTurn (h : Takes parsing n 1 expression) (hfuel : n ≤ fuel) (expr : Expr) :
    Turns parsing (n + 1) (callTurn fuel expression expr) := by
  rw [callTurn.eq_def]
  split
  · refine turns_ifMatch ?_ (turns_callSuffix h hfuel _ _ _)
    exact (takes_turbofish h hfuel _ _).bind fun call => .pure _
  · exact turns_callSuffix h hfuel _ _ _
  · exact turns_suffix h _

theorem takes_call (h : Takes parsing n 1 expression) (hfuel : n < fuel) : Takes parsing (n + 1) 1 (call fuel expression) := by
  refine (takes_primary h hfuel.le).bind fun expr => ?_
  exact (Turns.loop (turns_callTurn h hfuel.le) fuel hfuel expr).mono (Nat.sub_le _ _) (Nat.zero_le _)

theorem takes_unary (h : Takes parsing n 1 expression) (hfuel : n < fuel) {depth : ℕ} (hdepth : depth ≤ n + 1) :
    Takes parsing depth 1 (unary fuel expression depth) := by
  induction depth with
  | zero => exact .none
  | succ depth ih =>
    have ih : Takes parsing depth 0 (unary fuel expression depth) := (ih (by omega)).mono le_rfl (Nat.zero_le 1)
    rw [unary]
    refine takes_matchAny (fun tok => ih.bind fun target => .pure _) ?_
    refine takes_matchAny (fun tok => ih.bind fun right => .pure _) ?_
    exact (takes_call h hfuel).mono hdepth le_rfl

theorem turns_binaryTurn (types : List TokenType) {operand : Parse Expr} (h : Takes parsing n 1 operand) (left : Expr) :
    Turns parsing n (binaryTurn types operand left) :=
  turns_matchAny (fun _ => (h.mono (Nat.sub_le n 1) (Nat.zero_le 1)).bind fun _ => .pure _) (.ends _)

theorem takes_binaryLevel (types : List TokenType) {operand : Parse Expr} (h : Takes parsing n 1 operand) (hfuel : n ≤ fuel) :
    Takes parsing n 1 (binaryLevel fuel types operand) :=
  h.bind fun expr => (Turns.loop (turns_binaryTurn types h) fuel hfuel expr).mono (Nat.sub_le n 1) le_rfl

/-- The operands of the binary operators, from the tightest on. -/
def operands (fuel : ℕ) (expression : Parse Expr) : List (Parse Expr) :=
  [ unary fuel expression fuel, factor fuel expression, term fuel expression, shift fuel expression, comparison fuel expression
  , equality fuel expression, bitand fuel expression, bitxor fuel expression, bitor fuel expression, and_ fuel expression ]

theorem takes_operands (h : Takes parsing n 1 expression) : ∀ operand ∈ operands (n + 1) expression, Takes parsing (n + 1) 1 operand := by
  have hunary : Takes parsing (n + 1) 1 (unary (n + 1) expression (n + 1)) := takes_unary h n.lt_succ_self le_rfl
  have hfactor : Takes parsing (n + 1) 1 (factor (n + 1) expression) := takes_binaryLevel _ hunary le_rfl
  have hterm : Takes parsing (n + 1) 1 (term (n + 1) expression) := takes_binaryLevel _ hfactor le_rfl
  have hshift : Takes parsing (n + 1) 1 (shift (n + 1) expression) := takes_binaryLevel _ hterm le_rfl
  have hcomparison : Takes parsing (n + 1) 1 (comparison (n + 1) expression) := takes_binaryLevel _ hshift le_rfl
  have hequality : Takes parsing (n + 1) 1 (equality (n + 1) expression) := takes_binaryLevel _ hcomparison le_rfl
  have hbitand : Takes parsing (n + 1) 1 (bitand (n + 1) expression) := takes_binaryLevel _ hequality le_rfl
  have hbitxor : Takes parsing (n + 1) 1 (bitxor (n + 1) expression) := takes_binaryLevel _ hbitand le_rfl
  have hbitor : Takes parsing (n + 1) 1 (bitor (n + 1) expression) := takes_binaryLevel _ hbitxor le_rfl
  have hand : Takes parsing (n + 1) 1 (and_ (n + 1) expression) := takes_binaryLevel _ hbitor le_rfl
  simp only [operands, List.forall_mem_cons]
  exact ⟨hunary, hfactor, hterm, hshift, hcomparison, hequality, hbitand, hbitxor, hbitor, hand, List.forall_mem_nil _⟩

theorem takes_or (h : Takes parsing n 1 expression) : Takes parsing (n + 1) 1 (or_ (n + 1) expression) :=
  takes_binaryLevel _ (takes_operands h _ (by simp [operands])) le_rfl

theorem takes_expression (fuel : ℕ) : Takes parsing fuel 1 (Parser.expression fuel) := by
  induction fuel with
  | zero => exact .none
  | succ fuel ih => exact takes_or ih

end Expressions

section Statements

variable {n fuel : ℕ} {block : Parse (List Stmt)}

theorem takes_expr (hfuel : n ≤ fuel) : Takes parsing n 1 (expression fuel) := (takes_expression fuel).mono hfuel le_rfl

theorem takes_expr_any (hfuel : n ≤ fuel) : Takes parsing n 0 (expression fuel) := (takes_expr hfuel).mono le_rfl (Nat.zero_le 1)

theorem takes_type_any (hfuel : n ≤ fuel) : Takes parsing n 0 (parseTypeName fuel) :=
  (takes_parseTypeName fuel).mono hfuel (Nat.zero_le 1)

theorem takes_consume_any (type : TokenType) (msg : String) : Takes parsing n 0 (consume type msg) :=
  (takes_consume type msg).mono le_rfl (Nat.zero_le 1)

theorem takes_advance : ∀ {ts : List Token}, parsing.Input ts →
    (∃ t rest, advance ts = .ok (some t, rest) ∧ parsing.Input rest ∧ rest.length < ts.length) ∨ advance ts = .ok (none, ts) := by
  intro ts hts
  obtain ⟨t, rest, rfl⟩ := parsing_cons hts
  by_cases h : t.type = .EOF
  · exact .inr (if_pos h)
  · exact .inl ⟨t, rest, if_neg h, parsing_tail hts h, Nat.lt_succ_self _⟩

theorem turns_vmAsmTurn (s : AsmText) : Turns parsing n (vmAsmTurn s) := by
  refine turns_ifCheck (.ends _) ?_
  intro ts hts hlen
  rcases takes_advance hts with ⟨t, rest, h, hrest, hlt⟩ | h
  · exact .inl ⟨s.add t, rest, StateExcept.bind_eq h, hrest, hlt⟩
  · exact .inr (.inl ⟨s, ts, StateExcept.bind_eq h, hts, le_rfl⟩)

theorem takes_vmAsmBlock (hfuel : n ≤ fuel) (kw : Token) : Takes parsing n 0 (vmAsmBlock fuel kw) := by
  refine (takes_consume_any _ _).bind fun _ => ?_
  refine (Turns.loop turns_vmAsmTurn fuel hfuel {}).bind fun s => ?_
  split
  · exact takes_refuse _ _
  · exact (takes_consume_any _ _).bind fun _ => .pure _

theorem takes_exprUnless (hfuel : n ≤ fuel) (type : TokenType) : Takes parsing n 0 (exprUnless fuel type) :=
  takes_ifCheck (.pure _) ((takes_expr_any hfuel).bind fun _ => .pure _)

theorem takes_inParens (hfuel : n ≤ fuel) (opening closing : String) : Takes parsing n 0 (inParens fuel opening closing) := by
  refine (takes_consume_any _ _).bind fun _ => ?_
  refine (takes_expr_any hfuel).bind fun expr => ?_
  exact (takes_consume_any _ _).bind fun _ => .pure _

theorem takes_printed (hfuel : n ≤ fuel) (keyword : String) : Takes parsing n 0 (printed fuel keyword) := by
  refine (takes_inParens hfuel _ _).bind fun expr => ?_
  exact (takes_consume_any _ _).bind fun _ => .pure _

theorem takes_optionalType (hfuel : n ≤ fuel) : Takes parsing n 0 (optionalType fuel) :=
  takes_ifMatch ((takes_type_any (by omega)).bind fun _ => .pure _) (.pure _)

theorem takes_initializer (hfuel : n ≤ fuel) : Takes parsing n 0 (initializer fuel) :=
  takes_ifMatch ((takes_expr_any (by omega)).bind fun _ => .pure _) (.pure _)

theorem takes_varDecl (hfuel : n ≤ fuel) : Takes parsing n 1 (varDecl fuel) := by
  refine (takes_consume _ _).bind fun name => ?_
  refine (takes_optionalType (by omega)).bind fun type => ?_
  refine (takes_initializer (by omega)).bind fun init => ?_
  exact (takes_consume_any _ _).bind fun _ => .pure _

theorem takes_assignOrExpr (hfuel : n ≤ fuel) : Takes parsing n 1 (assignOrExpr fuel) := by
  refine (takes_expr hfuel).bind fun expr => ?_
  exact takes_matchAny (fun eq => (takes_expr_any (by omega)).bind fun value => .pure _) (.pure _)

theorem takes_forInit (hfuel : n ≤ fuel) : Takes parsing n 0 (forInit fuel) := by
  refine takes_ifMatch (.pure _) (takes_ifMatch ?_ ?_)
  · exact ((takes_varDecl (by omega)).mono le_rfl (Nat.zero_le 1)).bind fun decl => .pure _
  · refine ((takes_assignOrExpr hfuel).mono le_rfl (Nat.zero_le 1)).bind fun stmt => ?_
    exact (takes_consume_any _ _).bind fun _ => .pure _

theorem takes_forStep (hfuel : n ≤ fuel) : Takes parsing n 0 (forStep fuel) :=
  takes_ifCheck (.pure _) (((takes_assignOrExpr hfuel).mono le_rfl (Nat.zero_le 1)).bind fun _ => .pure _)

theorem takes_exprStmt (hfuel : n ≤ fuel) : Takes parsing n 1 (exprStmt fuel) := by
  refine (takes_expr hfuel).bind fun expr => ?_
  refine takes_matchAny (fun eq => ?_) ((takes_consume_any _ _).bind fun _ => .pure _)
  refine (takes_expr_any (by omega)).bind fun value => ?_
  exact (takes_consume_any _ _).bind fun _ => .pure _

theorem takes_armVariant (tok : Token) : Takes parsing n 0 (armVariant tok) := by
  unfold armVariant
  split
  · exact .pure _
  · exact ((takes_qualified tok).mono le_rfl (Nat.zero_le 1)).bind fun variant => .pure _

theorem takes_bindingName : Takes parsing n 1 bindingName := (takes_consume _ _).bind fun _ => .pure _

theorem takes_armBindings (hfuel : n ≤ fuel) (tok : Token) (variant : Option (List Char)) :
    Takes parsing n 0 (armBindings fuel tok variant) := by
  refine takes_ifMatch ?_ (.pure _)
  split
  · exact takes_refuse _ _
  · refine (takes_commaList takes_bindingName (by omega)).bind fun bindings => ?_
    exact (takes_consume_any _ _).bind fun _ => .pure _

theorem takes_matchArm (h : Takes parsing n 0 block) (hfuel : n ≤ fuel) : Takes parsing n 1 (matchArm fuel block) := by
  refine (takes_consume _ _).bind fun tok => ?_
  refine (takes_armVariant tok).bind fun variant => ?_
  refine (takes_armBindings (by omega) tok variant).bind fun bindings => ?_
  refine (takes_consume_any _ _).bind fun _ => ?_
  exact (h.mono (by omega) le_rfl).bind fun body => .pure _

theorem takes_matchStmt (h : Takes parsing n 0 block) (hfuel : n ≤ fuel) (kw : Token) :
    Takes parsing n 0 (matchStmt fuel block kw) := by
  refine (takes_inParens hfuel _ _).bind fun subject => ?_
  refine (takes_consume_any _ _).bind fun _ => ?_
  refine (takes_items (takes_matchArm h hfuel) hfuel).bind fun arms => ?_
  refine (takes_consume_any _ _).bind fun _ => ?_
  split
  · exact takes_refuse _ _
  · exact .pure _

theorem takes_elseBlock (h : Takes parsing n 0 block) : Takes parsing n 0 (elseBlock block) :=
  takes_ifMatch ((h.mono (Nat.sub_le n 1) le_rfl).bind fun _ => .pure _) (.pure _)

theorem takes_ifStmt (h : Takes parsing n 0 block) (hfuel : n ≤ fuel) (tok : Token) : Takes parsing n 0 (ifStmt fuel block tok) := by
  refine (takes_inParens hfuel _ _).bind fun cond => ?_
  refine h.bind fun thenBlock => ?_
  exact (takes_elseBlock h).bind fun otherwise => .pure _

theorem takes_whileStmt (h : Takes parsing n 0 block) (hfuel : n ≤ fuel) (tok : Token) :
    Takes parsing n 0 (whileStmt fuel block tok) := by
  refine (takes_inParens hfuel _ _).bind fun cond => ?_
  exact h.bind fun body => .pure _

theorem takes_forStmt (h : Takes parsing n 0 block) (hfuel : n ≤ fuel) (tok : Token) :
    Takes parsing n 0 (forStmt fuel block tok) := by
  refine (takes_consume_any _ _).bind fun _ => ?_
  refine (takes_forInit hfuel).bind fun init => ?_
  refine (takes_exprUnless hfuel _).bind fun cond => ?_
  refine (takes_consume_any _ _).bind fun _ => ?_
  refine (takes_forStep hfuel).bind fun step => ?_
  refine (takes_consume_any _ _).bind fun _ => ?_
  exact h.bind fun body => .pure _

theorem takes_returnStmt (hfuel : n ≤ fuel) (tok : Token) : Takes parsing n 0 (returnStmt fuel tok) := by
  refine (takes_exprUnless hfuel _).bind fun value => ?_
  exact (takes_consume_any _ _).bind fun _ => .pure _

/-- A statement takes its keyword, the opening brace of a block or the start of an expression. -/
theorem takes_statement (h : Takes parsing n 1 block) (hfuel : n ≤ fuel) : Takes parsing n 1 (statement fuel block) := by
  have hnext : n - 1 ≤ fuel := (Nat.sub_le n 1).trans hfuel
  have hblock : Takes parsing (n - 1) 0 block := h.mono (Nat.sub_le n 1) (Nat.zero_le 1)
  refine takes_matchAny (fun tok => (takes_printed hnext _).bind fun expr => .pure _) ?_
  refine takes_matchAny (fun tok => (takes_printed hnext _).bind fun expr => .pure _) ?_
  refine takes_matchAny (fun kw => takes_vmAsmBlock hnext kw) ?_
  refine takes_matchAny (fun tok => takes_returnStmt hnext tok) ?_
  refine takes_matchAny (fun kw => takes_matchStmt hblock hnext kw) ?_
  refine takes_matchAny (fun tok => takes_ifStmt hblock hnext tok) ?_
  refine takes_matchAny (fun tok => takes_whileStmt hblock hnext tok) ?_
  refine takes_matchAny (fun tok => takes_forStmt hblock hnext tok) ?_
  refine takes_matchAny (fun tok => (takes_consume_any _ _).bind fun _ => .pure _) ?_
  refine takes_matchAny (fun tok => (takes_consume_any _ _).bind fun _ => .pure _) ?_
  refine takes_ifCheck (takes_peekToken.bind fun tok => ?_) (takes_exprStmt hfuel)
  exact h.bind fun stmts => .pure _

theorem takes_declaration (h : Takes parsing n 1 block) (hfuel : n ≤ fuel) : Takes parsing n 1 (declaration fuel block) :=
  takes_ifMatch ((takes_varDecl (by omega)).mono le_rfl (Nat.zero_le _)) (takes_statement h hfuel)

theorem takes_block {depth : ℕ} (hdepth : depth ≤ fuel) : Takes parsing depth 1 (Parser.block fuel depth) := by
  induction depth with
  | zero => exact .none
  | succ depth ih =>
    rw [Parser.block]
    refine (takes_consume _ _).bind fun _ => ?_
    refine (takes_items (takes_declaration (ih (by omega)) (by omega)) (by omega)).bind fun stmts => ?_
    exact (takes_consume_any _ _).bind fun _ => .pure _

end Statements

section Declarations

variable {n fuel : ℕ}

theorem turns_typeParameterTurn (names : List (List Char)) : Turns parsing n (typeParameterTurn names) := by
  refine Takes.turns ((takes_consume _ _).bind fun tok => ?_)
  split
  · exact takes_refuse _ _
  · exact takes_ifMatch (.pure _) (.pure _)

theorem takes_typeParameters (hfuel : n ≤ fuel) : Takes parsing n 0 (typeParameters fuel) := by
  refine takes_ifMatch ?_ (.pure _)
  refine (Turns.loop turns_typeParameterTurn fuel (by omega) []).bind fun names => ?_
  exact takes_closeTypeArguments.bind fun _ => .pure _

theorem takes_fieldDef (hfuel : n ≤ fuel) : Takes parsing n 1 (fieldDef fuel) := by
  refine (takes_consume _ _).bind fun f => ?_
  refine (takes_consume_any _ _).bind fun _ => ?_
  exact (takes_type_any (by omega)).bind fun type => .pure _

theorem takes_structDef (hfuel : n ≤ fuel) : Takes parsing n 1 (structDef fuel) := by
  refine (takes_consume _ _).bind fun _ => ?_
  refine (takes_consume_any _ _).bind fun name => ?_
  refine (takes_typeParameters (by omega)).bind fun typeParams => ?_
  refine (takes_consume_any _ _).bind fun _ => ?_
  refine (takes_bracedList (takes_fieldDef (by omega)) (by omega)).bind fun fields => ?_
  exact (takes_consume_any _ _).bind fun _ => .pure _

theorem takes_payload (hfuel : n ≤ fuel) (variant : Token) : Takes parsing n 0 (payload fuel variant) := by
  refine takes_ifMatch (takes_ifCheck (takes_peekToken.bind fun tok => takes_refuse _ _) ?_) (.pure _)
  refine (takes_commaList ((takes_parseTypeName fuel).mono (by omega) le_rfl) (by omega)).bind fun types => ?_
  exact (takes_consume_any _ _).bind fun _ => .pure _

theorem takes_variantDef (hfuel : n ≤ fuel) : Takes parsing n 1 (variantDef fuel) := by
  refine (takes_consume _ _).bind fun v => ?_
  exact (takes_payload (by omega) v).bind fun types => .pure _

theorem takes_enumDef (hfuel : n ≤ fuel) : Takes parsing n 1 (enumDef fuel) := by
  refine (takes_consume _ _).bind fun _ => ?_
  refine (takes_consume_any _ _).bind fun name => ?_
  refine (takes_typeParameters (by omega)).bind fun typeParams => ?_
  refine (takes_consume_any _ _).bind fun _ => ?_
  refine (takes_bracedList (takes_variantDef (by omega)) (by omega)).bind fun variants => ?_
  exact (takes_consume_any _ _).bind fun _ => .pure _

theorem takes_include : Takes parsing n 0 include_ := by
  refine (takes_consume_any _ _).bind fun path => ?_
  exact (takes_consume_any _ _).bind fun _ => .pure _

theorem takes_param (hfuel : n ≤ fuel) : Takes parsing n 1 (param fuel) := by
  refine (takes_consume _ _).bind fun p => ?_
  refine (takes_consume_any _ _).bind fun _ => ?_
  exact (takes_type_any (by omega)).bind fun type => .pure _

theorem takes_params (hfuel : n ≤ fuel) : Takes parsing n 0 (params fuel) :=
  takes_ifCheck (.pure _) (takes_commaList (takes_param hfuel) hfuel)

theorem takes_function (hfuel : n ≤ fuel) : Takes parsing n 1 (function fuel) := by
  refine (takes_consume _ _).bind fun _ => ?_
  refine (takes_consume_any _ _).bind fun name => ?_
  refine (takes_typeParameters (by omega)).bind fun typeParams => ?_
  refine (takes_consume_any _ _).bind fun _ => ?_
  refine (takes_params (by omega)).bind fun ps => ?_
  refine (takes_consume_any _ _).bind fun _ => ?_
  refine (takes_optionalType (by omega)).bind fun ret => ?_
  exact ((takes_block le_rfl).mono (by omega) (Nat.zero_le 1)).bind fun body => .pure _

theorem turns_includeTurn (includes : List Include) : Turns parsing n (includeTurn includes) :=
  turns_ifMatch (takes_include.bind fun _ => .pure _) (.ends _)

theorem takes_isAtEnd : Takes parsing n 0 isAtEnd := by
  intro ts hts _
  obtain ⟨t, rest, rfl⟩ := parsing_cons hts
  exact .inl ⟨_, t :: rest, rfl, hts, le_rfl⟩

theorem turns_declarationTurn (hfuel : n ≤ fuel) (p : Program) : Turns parsing n (declarationTurn fuel p) := by
  refine Turns.bind takes_isAtEnd fun c => ?_
  split
  · exact .ends _
  · refine turns_ifCheck (Takes.turns ((takes_structDef hfuel).bind fun s => .pure _)) ?_
    refine turns_ifCheck (Takes.turns ((takes_enumDef hfuel).bind fun e => .pure _)) ?_
    exact Takes.turns ((takes_function hfuel).bind fun f => .pure _)

theorem takes_program (fuel : ℕ) : Takes parsing fuel 0 (program fuel) := by
  refine (Turns.loop turns_includeTurn fuel le_rfl []).bind fun includes => ?_
  exact Turns.loop (turns_declarationTurn le_rfl) fuel le_rfl _

/-- The loop over the declarations ends at the end of the file only. -/
theorem declarationTurn_ends {p q : Program} {ts rest : List Token} (h : declarationTurn fuel p ts = .ok (.inr q, rest)) :
    ∃ eof more, rest = eof :: more ∧ eof.type = .EOF := by
  obtain ⟨c, ts₁, hc, h⟩ := StateExcept.bind_ok.mp h
  cases ts with
  | nil => cases hc
  | cons t more =>
    simp only [isAtEnd, Except.ok.injEq, Prod.mk.injEq] at hc
    obtain ⟨rfl, rfl⟩ := hc
    by_cases heof : t.type = .EOF
    · rw [if_pos (decide_eq_true heof)] at h
      cases h
      exact ⟨t, more, rfl, heof⟩
    · rw [if_neg (by simpa using heof)] at h
      obtain ⟨d, ts₁, hd, h⟩ := StateExcept.bind_ok.mp h
      split at h
      · obtain ⟨s, ts₂, hs, h⟩ := StateExcept.bind_ok.mp h
        cases h
      · obtain ⟨e, ts₂, he, h⟩ := StateExcept.bind_ok.mp h
        split at h
        · obtain ⟨s, ts₃, hs, h⟩ := StateExcept.bind_ok.mp h
          cases h
        · obtain ⟨s, ts₃, hs, h⟩ := StateExcept.bind_ok.mp h
          cases h

theorem program_ends {p : Program} {ts rest : List Token} (h : program fuel ts = .ok (p, rest)) :
    ∃ eof more, rest = eof :: more ∧ eof.type = .EOF := by
  obtain ⟨includes, ts₁, -, h⟩ := StateExcept.bind_ok.mp h
  obtain ⟨q, ts₂, h⟩ := Consuming.loop_ok h
  exact declarationTurn_ends h

end Declarations

section Totality

variable {σ α : Type}

/-- A turn the loop goes on after has taken a token, and not the last. -/
def Advances (bound : ℕ) (turn : Parse (σ ⊕ α)) : Prop :=
  ∀ tokens s rest, Ended tokens → Numbered tokens → tokens.length ≤ bound → turn tokens = .ok (.inl s, rest) →
    rest.length < tokens.length ∧ Ended rest

/-- The loops of the parser, by what they are over. -/
structure LoopsAdvance (fuel : ℕ) : Prop where
  includes : ∀ xs, Advances fuel (includeTurn xs)
  declarations : ∀ p, Advances fuel (declarationTurn fuel p)
  typeParameters : ∀ xs, Advances fuel (typeParameterTurn xs)
  params : ∀ xs, Advances fuel (commaTurn (param fuel) xs)
  fields : ∀ xs, Advances fuel (bracedTurn (fieldDef fuel) xs)
  variants : ∀ xs, Advances fuel (bracedTurn (variantDef fuel) xs)
  payloads : ∀ xs, Advances fuel (commaTurn (parseTypeName fuel) xs)
  types : ∀ xs, Advances fuel (typeTurn (parseTypeName fuel) xs)
  statements : ∀ xs, Advances fuel (itemTurn (declaration fuel (block fuel fuel)) xs)
  arms : ∀ xs, Advances fuel (itemTurn (matchArm fuel (block fuel fuel)) xs)
  bindings : ∀ xs, Advances fuel (commaTurn bindingName xs)
  vmAsm : ∀ s, Advances fuel (vmAsmTurn s)
  operators : ∀ depth < fuel, ∀ types, ∀ operand ∈ operands (depth + 1) (expression depth), ∀ left,
    Advances (depth + 1) (binaryTurn types operand left)
  suffixes : ∀ depth < fuel, ∀ expr, Advances (depth + 1) (callTurn (depth + 1) (expression depth) expr)
  arguments : ∀ xs, Advances fuel (commaTurn (expression fuel) xs)
  inits : ∀ xs, Advances fuel (bracedTurn (fieldInit (expression fuel)) xs)

theorem advances {bound : ℕ} {turn : Parse (σ ⊕ α)} (h : Turns parsing bound turn) : Advances bound turn := by
  intro tokens s rest hend hnum hlen hturn
  rcases h tokens ⟨hend, hnum⟩ hlen with ⟨s', rest', hs, hrest, hlt⟩ | ⟨a, rest', ha, -⟩ | ⟨e, he, -⟩
  · cases hturn.symm.trans hs
    exact ⟨hlt, hrest.1⟩
  · cases hturn.symm.trans ha
  · cases hturn.symm.trans he

theorem loops_advance (fuel : ℕ) : LoopsAdvance fuel where
  includes xs := advances (turns_includeTurn xs)
  declarations p := advances (turns_declarationTurn le_rfl p)
  typeParameters xs := advances (turns_typeParameterTurn xs)
  params xs := advances (turns_commaTurn (takes_param le_rfl) xs)
  fields xs := advances (turns_bracedTurn (takes_fieldDef le_rfl) xs)
  variants xs := advances (turns_bracedTurn (takes_variantDef le_rfl) xs)
  payloads xs := advances (turns_commaTurn (takes_parseTypeName fuel) xs)
  types xs := advances (turns_typeTurn (takes_parseTypeName fuel) xs)
  statements xs := advances (turns_itemTurn (takes_declaration (takes_block le_rfl) le_rfl) xs)
  arms xs := advances (turns_itemTurn (takes_matchArm ((takes_block le_rfl).mono le_rfl (Nat.zero_le 1)) le_rfl) xs)
  bindings xs := advances (turns_commaTurn takes_bindingName xs)
  vmAsm s := advances (turns_vmAsmTurn s)
  operators depth _ types operand hoperand left :=
    advances (turns_binaryTurn types (takes_operands (takes_expression depth) operand hoperand) left)
  suffixes depth _ expr := advances (turns_callTurn (takes_expression depth) (Nat.le_succ depth) expr)
  arguments xs := advances (turns_commaTurn (takes_expression fuel) xs)
  inits xs := advances (turns_bracedTurn (takes_fieldInit (takes_expression fuel)) xs)

/-- Every list of tokens gets a program, with nothing but the end of the file left, or a
parse error; and no loop goes on without taking a token. -/
theorem parse_total {tokens : List Token} (hend : Ended tokens) (hnum : Numbered tokens) :
    ((∃ p eof, parse tokens = .ok (p, [eof]) ∧ eof.type = .EOF) ∨ ∃ message line col, parse tokens = .error (.parseError message line col)) ∧
      LoopsAdvance tokens.length := by
  refine ⟨?_, loops_advance _⟩
  rcases takes_program tokens.length tokens ⟨hend, hnum⟩ le_rfl with ⟨p, rest, h, ⟨hrest, -⟩, -⟩ | ⟨e, h, message, line, col, rfl⟩
  · obtain ⟨eof, more, rfl, heof⟩ := program_ends h
    cases hrest with
    | last => exact .inl ⟨p, eof, h, heof⟩
    | cons hne => exact absurd heof hne
  · exact .inr ⟨message, line, col, h⟩

/-- `fn f(x: int[n]) {}`, with what the number has for its value. -/
def sizedParameter (value : Option LexLiteral) : List Token :=
  [ ⟨.FN, ['f', 'n'], 1, 1, none⟩, ⟨.IDENTIFIER, ['f'], 1, 4, none⟩, ⟨.LEFT_PAREN, ['('], 1, 5, none⟩
  , ⟨.IDENTIFIER, ['x'], 1, 6, none⟩, ⟨.COLON, [':'], 1, 7, none⟩, ⟨.INT, ['i', 'n', 't'], 1, 9, none⟩
  , ⟨.LEFT_BRACKET, ['['], 1, 12, none⟩, ⟨.NUMBER, ['3'], 1, 13, value⟩, ⟨.RIGHT_BRACKET, [']'], 1, 14, none⟩
  , ⟨.RIGHT_PAREN, [')'], 1, 15, none⟩, ⟨.LEFT_BRACE, ['{'], 1, 17, none⟩, ⟨.RIGHT_BRACE, ['}'], 1, 18, none⟩
  , ⟨.EOF, [], 1, 19, none⟩ ]

theorem ended_sizedParameter (value : Option LexLiteral) : Ended (sizedParameter value) := by
  unfold sizedParameter
  repeat' first
    | exact Ended.last rfl
    | refine Ended.cons (by simp) ?_

theorem parse_total_three :
    ((∃ p eof, parse (sizedParameter (some (.int 3))) = .ok (p, [eof]) ∧ eof.type = .EOF) ∨
        ∃ message line col, parse (sizedParameter (some (.int 3))) = .error (.parseError message line col)) ∧
      LoopsAdvance (sizedParameter (some (.int 3))).length :=
  parse_total (ended_sizedParameter _) (by simp [Numbered, sizedParameter])

/-- A length without a value is not a parse error: its conversion is refused. -/
theorem unvalued_length_stops :
    ¬ ∀ tokens, Ended tokens →
      (∃ p eof, parse tokens = .ok (p, [eof]) ∧ eof.type = .EOF) ∨ ∃ message line col, parse tokens = .error (.parseError message line col) := by
  intro h
  have hstop : parse (sizedParameter none) = .error .typeError := rfl
  rcases h _ (ended_sizedParameter none) with ⟨p, eof, hp, -⟩ | ⟨message, line, col, he⟩
  · cases hstop.symm.trans hp
  · cases hstop.symm.trans he

end Totality

end Parser

end QuinLang
