import QuinLang.Compiler.TypeParser
import QuinLang.Compiler.Inference
import QuinLang.Compiler.Sema

/-! A type written as tokens, the spelling the parser makes of it, and the type that spelling
stands for. -/

namespace QuinLang

section Tokens

def greater (line : ℕ) (col : ℤ) : Token := ⟨.GREATER, ['>'], line, col, none⟩

def equal (line : ℕ) (col : ℤ) : Token := ⟨.EQUAL, ['='], line, col, none⟩

/-- A type in a list of types: the comma before it, if it is not the first, and its tokens. -/
structure Item where
  comma : Option Token
  type : TypeName
  tokens : List Token

/-- The first has no comma, the others have one each. -/
def Commas : List Item → Prop
  | [] => True
  | i :: items => i.comma = none ∧ ∀ j ∈ items, ∃ comma, j.comma = some comma ∧ comma.type = .COMMA

def itemTokens (items : List Item) : List Token := items.flatMap fun i => i.comma.toList ++ i.tokens

/-- The tokens that spell a type, with every closing bracket one of them. -/
inductive Spells : TypeName → List Token → Prop
  | keyword {t : Token} {n : String} : (t.type, n.toList) ∈ KEYWORD_TYPES → Spells (.named n) [t]
  | ident {t : Token} {n : String} : t.type = .IDENTIFIER → t.lexeme = n.toList → Spells (.named n) [t]
  | frameArray {int opening size closing : Token} {n : ℕ} : int.type = .INT → opening.type = .LEFT_BRACKET →
      size.type = .NUMBER → size.literal = some (.int n) → closing.type = .RIGHT_BRACKET →
      Spells (.frameArray n) [int, opening, size, closing]
  | app {name opening closing : Token} {base : String} {items : List Item} : name.type = .IDENTIFIER →
      name.lexeme = base.toList → opening.type = .LESS → closing.type = .GREATER → items ≠ [] → Commas items →
      (∀ i ∈ items, Spells i.type i.tokens) →
      Spells (.app base (items.map Item.type)) (name :: opening :: (itemTokens items ++ [closing]))
  | fnVoid {fn opening closing : Token} {items : List Item} : fn.type = .FN → opening.type = .LEFT_PAREN →
      closing.type = .RIGHT_PAREN → Commas items → (∀ i ∈ items, Spells i.type i.tokens) →
      Spells (.fn (items.map Item.type) (.named "void")) (fn :: opening :: (itemTokens items ++ [closing]))
  | fn {fn opening closing colon : Token} {items : List Item} {ret : TypeName} {ts : List Token} : fn.type = .FN →
      opening.type = .LEFT_PAREN → closing.type = .RIGHT_PAREN → colon.type = .COLON → Commas items →
      (∀ i ∈ items, Spells i.type i.tokens) → Spells ret ts →
      Spells (.fn (items.map Item.type) ret) (fn :: opening :: (itemTokens items ++ closing :: colon :: ts))

/-- What the lexer makes of the tokens of a type and those after it: a closing bracket may be
glued to the token that follows it at once. -/
inductive Glued (after : List Token) : List Token → List Token → Prop
  | done : Glued after [] after
  | keep {t : Token} {ts written : List Token} : Glued after ts written → Glued after (t :: ts) (t :: written)
  | shift {line : ℕ} {col : ℤ} {ts written : List Token} : Glued after ts written →
      Glued after (greater line col :: greater line (col + 1) :: ts) (⟨.SHR, ['>', '>'], line, col, none⟩ :: written)
  | shiftLast {line : ℕ} {col : ℤ} {rest : List Token} : after = greater line (col + 1) :: rest →
      Glued after [greater line col] (⟨.SHR, ['>', '>'], line, col, none⟩ :: rest)
  | equalLast {line : ℕ} {col : ℤ} {rest : List Token} : after = equal line (col + 1) :: rest →
      Glued after [greater line col] (⟨.GREATER_EQUAL, ['>', '='], line, col, none⟩ :: rest)

/-- Nothing that would go on with a type. -/
def EndsType (tokens : List Token) : Prop :=
  ∃ t rest, tokens = t :: rest ∧ t.type ≠ .LESS ∧ t.type ≠ .LEFT_BRACKET ∧ t.type ≠ .COLON

variable {after ts written : List Token} {t : Token}

theorem Glued.plain (h : Glued after (t :: ts) written) (ht : t.type ≠ .GREATER) :
    ∃ written', written = t :: written' ∧ Glued after ts written' := by
  cases h with
  | keep h => exact ⟨_, rfl, h⟩
  | shift => exact absurd rfl ht
  | shiftLast => exact absurd rfl ht
  | equalLast => exact absurd rfl ht

/-- A closing bracket is taken off what it is glued to. -/
theorem Glued.close (h : Glued after (t :: ts) written) (ht : t.type = .GREATER) :
    ∃ written', closeTypeArguments written = .ok ((), written') ∧ Glued after ts written' := by
  cases h with
  | @keep _ _ w h =>
    refine ⟨w, ?_, h⟩
    have hconsume : consume .GREATER "Expected '>' after type arguments" (t :: w) = .ok (t, w) :=
      if_pos ⟨by rw [ht]; decide, ht⟩
    unfold closeTypeArguments
    dsimp only
    rw [ht]
    exact StateExcept.bind_eq hconsume
  | shift h => exact ⟨_, rfl, .keep h⟩
  | shiftLast h => exact ⟨_, rfl, h ▸ .done⟩
  | equalLast h => exact ⟨_, rfl, h ▸ .done⟩

/-- What may come next does not depend on the gluing. -/
theorem Glued.head (h : Glued after ts written) (type : TokenType) (hne : ∃ t rest, ts ++ after = t :: rest ∧ t.type ≠ type)
    (hshr : type ≠ .SHR) (hge : type ≠ .GREATER_EQUAL) :
    matchToken type written = .ok (false, written) ∧ checkToken type written = .ok (false, written) := by
  have hhead : ∃ t rest, written = t :: rest ∧ t.type ≠ type := by
    cases h with
    | done => exact hne
    | keep h =>
      obtain ⟨t, rest, heq, ht⟩ := hne
      exact ⟨_, _, rfl, (List.cons_eq_cons.mp heq).1 ▸ ht⟩
    | shift h => exact ⟨_, _, rfl, hshr.symm⟩
    | shiftLast h => exact ⟨_, _, rfl, hshr.symm⟩
    | equalLast h => exact ⟨_, _, rfl, hge.symm⟩
  obtain ⟨t, rest, rfl, ht⟩ := hhead
  refine ⟨if_neg fun h => ht h.2, ?_⟩
  simp [checkToken, ht]

theorem consume_ok {type : TokenType} {msg : String} (ht : t.type = type) (hne : type ≠ .EOF) (rest : List Token) :
    consume type msg (t :: rest) = .ok (t, rest) := if_pos ⟨ht ▸ hne, ht⟩

theorem matchToken_ok {type : TokenType} (ht : t.type = type) (hne : type ≠ .EOF) (rest : List Token) :
    matchToken type (t :: rest) = .ok (true, rest) := if_pos ⟨ht ▸ hne, ht⟩

theorem matchToken_no {type : TokenType} (ht : t.type ≠ type) (rest : List Token) :
    matchToken type (t :: rest) = .ok (false, t :: rest) := if_neg fun h => ht h.2

/-- The parser reads a type off what it is written as. -/
def ReadsType (after : List Token) (n : TypeName) (ts : List Token) : Prop :=
  ∀ fuel more written, ts.length < fuel → Glued after (ts ++ more) written → EndsType (more ++ after) →
    ∃ written', parseTypeName fuel written = .ok (n.letters, written') ∧ Glued after more written'

theorem endsType_of_ne {more : List Token} (h1 : t.type ≠ .LESS) (h2 : t.type ≠ .LEFT_BRACKET) (h3 : t.type ≠ .COLON) :
    EndsType (t :: more ++ after) := ⟨t, more ++ after, rfl, h1, h2, h3⟩

theorem itemTokens_cons (i : Item) (items : List Item) :
    itemTokens (i :: items) = i.comma.toList ++ (i.tokens ++ itemTokens items) := by
  rw [itemTokens, List.flatMap_cons, List.append_assoc]
  rfl

/-- Before the rest of a list of types, as before what follows it, a type is at its end. -/
theorem endsType_items {items : List Item} (hcommas : ∀ j ∈ items, ∃ comma, j.comma = some comma ∧ comma.type = .COMMA)
    {more : List Token} (hends : EndsType (more ++ after)) : EndsType (itemTokens items ++ more ++ after) := by
  cases items with
  | nil => exact hends
  | cons j items =>
    obtain ⟨comma, hcomma, htype⟩ := hcommas j List.mem_cons_self
    rw [itemTokens_cons, hcomma]
    exact ⟨comma, _, rfl, by rw [htype]; decide, by rw [htype]; decide, by rw [htype]; decide⟩

/-- The rest of a list of types, up to a token that is no comma. -/
theorem reads_items {items : List Item} (hcommas : ∀ j ∈ items, ∃ comma, j.comma = some comma ∧ comma.type = .COMMA)
    (hreads : ∀ i ∈ items, ReadsType after i.type i.tokens) {closing : Token} {more : List Token} (hc : closing.type ≠ .COMMA)
    (hends : EndsType (closing :: more ++ after)) (fuel fuel' : ℕ) (types : List (List Char)) (written : List Token)
    (hfuel : (itemTokens items).length < fuel) (hfuel' : (itemTokens items).length < fuel')
    (h : Glued after (itemTokens items ++ closing :: more) written) :
    ∃ written', typeList (parseTypeName fuel) fuel' types written =
        .ok (types ++ items.map (fun i => i.type.letters), written') ∧ Glued after (closing :: more) written' := by
  induction items generalizing fuel' types written with
  | nil =>
    obtain ⟨fuel', rfl⟩ := Nat.exists_eq_succ_of_ne_zero (Nat.ne_of_gt (Nat.zero_lt_of_lt hfuel'))
    have hno := (h.head .COMMA ⟨closing, more ++ after, rfl, hc⟩ (by decide) (by decide)).1
    refine ⟨written, ?_, h⟩
    rw [typeList, StateExcept.bind_eq hno, List.map_nil, List.append_nil]
    rfl
  | cons i items ih =>
    obtain ⟨fuel', rfl⟩ := Nat.exists_eq_succ_of_ne_zero (Nat.ne_of_gt (Nat.zero_lt_of_lt hfuel'))
    obtain ⟨comma, hcomma, htype⟩ := hcommas i List.mem_cons_self
    rw [itemTokens_cons, hcomma, Option.toList_some, List.singleton_append, List.length_cons, List.length_append] at hfuel hfuel'
    rw [itemTokens_cons, hcomma, Option.toList_some, List.singleton_append, List.cons_append, List.append_assoc] at h
    obtain ⟨w₁, rfl, h₁⟩ := h.plain (by rw [htype]; decide)
    have hnext := endsType_items (fun j hj => hcommas j (List.mem_cons_of_mem _ hj)) hends
    obtain ⟨w₂, hread, h₂⟩ := hreads i List.mem_cons_self fuel _ w₁ (by omega) h₁ hnext
    obtain ⟨w₃, hlist, h₃⟩ := ih (fun j hj => hcommas j (List.mem_cons_of_mem _ hj)) (fun j hj => hreads j (List.mem_cons_of_mem _ hj))
      fuel' (types ++ [i.type.letters]) w₂ (by omega) (by omega) h₂
    refine ⟨w₃, ?_, h₃⟩
    rw [typeList, StateExcept.bind_eq (matchToken_ok htype (by decide) w₁), if_pos rfl, StateExcept.bind_eq hread, hlist,
      List.map_cons, List.append_assoc]
    rfl

/-- A list of types from its first on. -/
theorem reads_list {i : Item} {items : List Item} (hcommas : Commas (i :: items))
    (hreads : ∀ j ∈ i :: items, ReadsType after j.type j.tokens) {closing : Token} {more : List Token} (hc : closing.type ≠ .COMMA)
    (hends : EndsType (closing :: more ++ after)) (fuel : ℕ) (written : List Token)
    (hfuel : (itemTokens (i :: items)).length < fuel)
    (h : Glued after (itemTokens (i :: items) ++ closing :: more) written) :
    ∃ w₁ w₂, parseTypeName fuel written = .ok (i.type.letters, w₁) ∧ typeList (parseTypeName fuel) fuel [i.type.letters] w₁ =
        .ok ((i :: items).map (fun j => j.type.letters), w₂) ∧ Glued after (closing :: more) w₂ := by
  obtain ⟨hfirst, hrest⟩ := hcommas
  rw [itemTokens_cons, hfirst, Option.toList_none, List.nil_append, List.append_assoc] at h
  rw [itemTokens_cons, hfirst, Option.toList_none, List.nil_append, List.length_append] at hfuel
  have hnext := endsType_items hrest hends
  obtain ⟨w₁, hread, h₁⟩ := hreads i List.mem_cons_self fuel _ written (by omega) h hnext
  obtain ⟨w₂, hlist, h₂⟩ := reads_items hrest (fun j hj => hreads j (List.mem_cons_of_mem _ hj)) hc hends fuel fuel
    [i.type.letters] w₁ (by omega) (by omega) h₁
  exact ⟨w₁, w₂, hread, by rw [hlist]; rfl, h₂⟩

theorem keywordType_some {types : List (TokenType × List Char)} {name : List Char} (hmem : (t.type, name) ∈ types)
    (hnodup : (types.map Prod.fst).Nodup) (heof : .EOF ∉ types.map Prod.fst) (rest : List Token) :
    keywordType types (t :: rest) = .ok (some name, rest) := by
  induction types with
  | nil => cases hmem
  | cons entry types ih =>
    obtain ⟨type, name'⟩ := entry
    rw [List.map_cons, List.nodup_cons] at hnodup
    rw [List.map_cons, List.mem_cons, not_or] at heof
    rw [keywordType]
    rcases List.mem_cons.mp hmem with heq | hlater
    · obtain ⟨rfl, rfl⟩ := Prod.mk.inj heq
      rw [StateExcept.bind_eq (matchToken_ok rfl (Ne.symm heof.1) rest)]
      rfl
    · have hne : t.type ≠ type := by
        rintro rfl
        exact hnodup.1 (List.mem_map.mpr ⟨(t.type, name), hlater, rfl⟩)
      rw [StateExcept.bind_eq (matchToken_no hne rest)]
      exact ih hlater hnodup.2 heof.2

theorem keywordType_none {types : List (TokenType × List Char)} (h : t.type ∉ types.map Prod.fst) (rest : List Token) :
    keywordType types (t :: rest) = .ok (none, t :: rest) := by
  induction types with
  | nil => rfl
  | cons entry types ih =>
    rw [List.map_cons, List.mem_cons, not_or] at h
    rw [keywordType, StateExcept.bind_eq (matchToken_no h.1 rest)]
    exact ih h.2

theorem arraySuffix_plain {more : List Token} (h : Glued after more written) (hends : EndsType (more ++ after)) (base : List Char) :
    arraySuffix base written = .ok (base, written) := by
  obtain ⟨t, rest, heq, -, ht, -⟩ := hends
  obtain ⟨hmatch, hcheck⟩ := h.head .LEFT_BRACKET ⟨t, rest, heq, ht⟩ (by decide) (by decide)
  have hsized : matchLength base written = .ok (false, written) := by
    unfold matchLength
    split
    · exact hmatch
    · rfl
  unfold arraySuffix
  rw [StateExcept.bind_eq hsized, if_neg (by decide), StateExcept.bind_eq hcheck]
  rfl

theorem arraySuffix_sized {opening size closing : Token} {n : ℕ} (h1 : opening.type = .LEFT_BRACKET) (h2 : size.type = .NUMBER)
    (h3 : size.literal = some (.int n)) (h4 : closing.type = .RIGHT_BRACKET) (rest : List Token) :
    arraySuffix ['i', 'n', 't'] (opening :: size :: closing :: rest) = .ok ((TypeName.frameArray n).letters, rest) := by
  have hsized : matchLength ['i', 'n', 't'] (opening :: size :: closing :: rest) = .ok (true, size :: closing :: rest) := by
    rw [matchLength, if_pos rfl, matchToken_ok h1 (by decide)]
  unfold arraySuffix
  rw [StateExcept.bind_eq hsized, if_pos rfl, StateExcept.bind_eq (consume_ok h2 (by decide) _),
    StateExcept.bind_eq (consume_ok h4 (by decide) _), h3, TypeName.letters_frameArray]
  rfl

/-- A first token that is a name. -/
theorem parseTypeName_ident {fuel : ℕ} (ht : t.type = .IDENTIFIER) (rest : List Token) :
    parseTypeName (fuel + 1) (t :: rest) =
      (matchToken .LESS >>= fun less => if less then typeArguments (parseTypeName fuel) fuel t.lexeme else arraySuffix t.lexeme)
        rest := by
  rw [parseTypeName, StateExcept.bind_eq (matchToken_no (by rw [ht]; decide) rest), if_neg (by decide),
    StateExcept.bind_eq (keywordType_none (by rw [ht]; decide) rest)]
  exact StateExcept.bind_eq (consume_ok ht (by decide) rest)

theorem parseTypeName_keyword {fuel : ℕ} {name : List Char} (ht : (t.type, name) ∈ KEYWORD_TYPES) (rest : List Token) :
    parseTypeName (fuel + 1) (t :: rest) = arraySuffix name rest := by
  have hfn : t.type ≠ .FN := by
    intro h
    rw [h] at ht
    simp [KEYWORD_TYPES] at ht
  rw [parseTypeName, StateExcept.bind_eq (matchToken_no hfn rest), if_neg (by decide),
    StateExcept.bind_eq (keywordType_some ht (by decide) (by decide) rest)]

theorem parseTypeName_fn {fuel : ℕ} (ht : t.type = .FN) (rest : List Token) :
    parseTypeName (fuel + 1) (t :: rest) = functionTypeName (parseTypeName fuel) fuel rest := by
  rw [parseTypeName, StateExcept.bind_eq (matchToken_ok ht (by decide) rest), if_pos rfl]

/-- A function type up to the bracket that closes its parameters. -/
theorem reads_params {opening closing : Token} {items : List Item} {more : List Token} (ho : opening.type = .LEFT_PAREN)
    (hc : closing.type = .RIGHT_PAREN) (hcommas : Commas items) (hreads : ∀ i ∈ items, ReadsType after i.type i.tokens)
    (hstarts : ∀ i ∈ items, ∃ t rest, i.tokens = t :: rest ∧ t.type ≠ .RIGHT_PAREN) (fuel : ℕ) (hfuel : (itemTokens items).length < fuel)
    (h : Glued after (opening :: (itemTokens items ++ closing :: more)) written) :
    ∃ w, Glued after more w ∧ functionTypeName (parseTypeName fuel) fuel written = (returnType (parseTypeName fuel) >>= fun ret =>
      pure (FUNC_PREFIX ++ (join (items.map fun i => i.type.letters) ++ ')' :: ':' :: ret))) w := by
  obtain ⟨w₀, rfl, h₀⟩ := h.plain (by rw [ho]; decide)
  have hends : EndsType (closing :: more ++ after) :=
    endsType_of_ne (by rw [hc]; decide) (by rw [hc]; decide) (by rw [hc]; decide)
  have hparams : ∃ w₁, paramTypes (parseTypeName fuel) fuel w₀ = .ok (items.map fun i => i.type.letters, w₁) ∧
      Glued after (closing :: more) w₁ := by
    unfold paramTypes
    cases items with
    | nil =>
      obtain ⟨w, rfl, hw⟩ := h₀.plain (by rw [hc]; decide)
      have hcheck : checkToken .RIGHT_PAREN (closing :: w) = .ok (true, closing :: w) := by simp [checkToken, hc]
      refine ⟨closing :: w, ?_, .keep hw⟩
      rw [StateExcept.bind_eq hcheck]
      rfl
    | cons i items =>
      have hstart : ∃ t rest, itemTokens (i :: items) ++ closing :: more ++ after = t :: rest ∧ t.type ≠ .RIGHT_PAREN := by
        obtain ⟨t, rest, ht, hne⟩ := hstarts i List.mem_cons_self
        rw [itemTokens_cons, hcommas.1, ht]
        exact ⟨t, _, rfl, hne⟩
      have hcheck := (h₀.head .RIGHT_PAREN hstart (by decide) (by decide)).2
      obtain ⟨w₁, w₂, hfirst, hlist, h₂⟩ := reads_list hcommas hreads (by rw [hc]; decide) hends fuel w₀ hfuel h₀
      refine ⟨w₂, ?_, h₂⟩
      rw [StateExcept.bind_eq hcheck, if_neg (by decide), StateExcept.bind_eq hfirst]
      exact hlist
  obtain ⟨w₁, hparams, h₁⟩ := hparams
  obtain ⟨w, rfl, hw⟩ := h₁.plain (by rw [hc]; decide)
  refine ⟨w, hw, ?_⟩
  unfold functionTypeName
  rw [StateExcept.bind_eq (consume_ok ho (by decide) w₀), StateExcept.bind_eq hparams,
    StateExcept.bind_eq (consume_ok hc (by decide) w)]

theorem Spells.head {n : TypeName} (h : Spells n ts) : ∃ t rest, ts = t :: rest ∧ t.type ≠ .RIGHT_PAREN := by
  cases h with
  | @keyword t n ht =>
    refine ⟨t, [], rfl, fun h => ?_⟩
    rw [h] at ht
    simp [KEYWORD_TYPES] at ht
  | ident ht => exact ⟨_, _, rfl, by rw [ht]; decide⟩
  | frameArray ht => exact ⟨_, _, rfl, by rw [ht]; decide⟩
  | app ht => exact ⟨_, _, rfl, by rw [ht]; decide⟩
  | fnVoid ht => exact ⟨_, _, rfl, by rw [ht]; decide⟩
  | fn ht => exact ⟨_, _, rfl, by rw [ht]; decide⟩

/-- However a type is written, the parser makes its canonical spelling of it and leaves what
follows. -/
theorem Spells.reads {n : TypeName} (h : Spells n ts) : ReadsType after n ts := by
  induction h with
  | @keyword t n ht =>
    intro fuel more written hfuel h₀ hends
    obtain ⟨fuel, rfl⟩ := Nat.exists_eq_succ_of_ne_zero (Nat.ne_of_gt (Nat.zero_lt_of_lt hfuel))
    have hne : t.type ≠ .GREATER := by
      intro h
      rw [h] at ht
      simp [KEYWORD_TYPES] at ht
    obtain ⟨w, rfl, hw⟩ := h₀.plain hne
    exact ⟨w, (parseTypeName_keyword ht w).trans (arraySuffix_plain hw hends n.toList), hw⟩
  | @ident t n ht hn =>
    intro fuel more written hfuel h₀ hends
    obtain ⟨fuel, rfl⟩ := Nat.exists_eq_succ_of_ne_zero (Nat.ne_of_gt (Nat.zero_lt_of_lt hfuel))
    obtain ⟨w, rfl, hw⟩ := h₀.plain (by rw [ht]; decide)
    obtain ⟨t', rest, heq, hless, -, -⟩ := id hends
    have hno := (hw.head .LESS ⟨t', rest, heq, hless⟩ (by decide) (by decide)).1
    refine ⟨w, ?_, hw⟩
    rw [parseTypeName_ident ht, StateExcept.bind_eq hno, if_neg (by decide), hn]
    exact arraySuffix_plain hw hends n.toList
  | @frameArray int opening size closing n h1 h2 h3 h4 h5 =>
    intro fuel more written hfuel h₀ hends
    obtain ⟨fuel, rfl⟩ := Nat.exists_eq_succ_of_ne_zero (Nat.ne_of_gt (Nat.zero_lt_of_lt hfuel))
    simp only [List.cons_append, List.nil_append] at h₀
    obtain ⟨w₁, rfl, hw₁⟩ := h₀.plain (by rw [h1]; decide)
    obtain ⟨w₂, rfl, hw₂⟩ := hw₁.plain (by rw [h2]; decide)
    obtain ⟨w₃, rfl, hw₃⟩ := hw₂.plain (by rw [h3]; decide)
    obtain ⟨w, rfl, hw⟩ := hw₃.plain (by rw [h5]; decide)
    exact ⟨w, (parseTypeName_keyword (by rw [h1]; simp [KEYWORD_TYPES]) _).trans (arraySuffix_sized h2 h3 h4 h5 w), hw⟩
  | @app name opening closing base items h1 h2 h3 h4 hne hcommas _ ih =>
    intro fuel more written hfuel h₀ hends
    obtain ⟨fuel, rfl⟩ := Nat.exists_eq_succ_of_ne_zero (Nat.ne_of_gt (Nat.zero_lt_of_lt hfuel))
    simp only [List.cons_append, List.append_assoc, List.nil_append] at h₀
    obtain ⟨w₁, rfl, hw₁⟩ := h₀.plain (by rw [h1]; decide)
    obtain ⟨w₂, rfl, hw₂⟩ := hw₁.plain (by rw [h3]; decide)
    obtain ⟨i, items, rfl⟩ := List.exists_cons_of_ne_nil hne
    rw [List.length_cons, List.length_cons, List.length_append] at hfuel
    have hclose : EndsType (closing :: more ++ after) :=
      endsType_of_ne (by rw [h4]; decide) (by rw [h4]; decide) (by rw [h4]; decide)
    obtain ⟨w₃, w₄, hfirst, hlist, hw₄⟩ := reads_list hcommas ih (by rw [h4]; decide) hclose fuel w₂ (by omega) hw₂
    obtain ⟨w₅, hclosed, hw⟩ := hw₄.close h4
    refine ⟨w₅, ?_, hw⟩
    rw [parseTypeName_ident h1, StateExcept.bind_eq (matchToken_ok h3 (by decide) w₂), if_pos rfl]
    unfold typeArguments
    rw [StateExcept.bind_eq hfirst, StateExcept.bind_eq hlist, StateExcept.bind_eq hclosed, TypeName.letters_app, h2, List.map_map]
    rfl
  | @fnVoid fn opening closing items h1 h2 h3 hcommas hspells ih =>
    intro fuel more written hfuel h₀ hends
    obtain ⟨fuel, rfl⟩ := Nat.exists_eq_succ_of_ne_zero (Nat.ne_of_gt (Nat.zero_lt_of_lt hfuel))
    simp only [List.cons_append, List.append_assoc, List.nil_append] at h₀
    obtain ⟨w₁, rfl, hw₁⟩ := h₀.plain (by rw [h1]; decide)
    rw [List.length_cons, List.length_cons, List.length_append] at hfuel
    obtain ⟨w, hw, hparams⟩ := reads_params h2 h3 hcommas ih (fun i hi => (hspells i hi).head) fuel (by omega) hw₁
    obtain ⟨t', rest, heq, -, -, hcolon⟩ := id hends
    have hno := (hw.head .COLON ⟨t', rest, heq, hcolon⟩ (by decide) (by decide)).1
    have hret : returnType (parseTypeName fuel) w = .ok (['v', 'o', 'i', 'd'], w) := by
      rw [returnType, StateExcept.bind_eq hno]
      rfl
    refine ⟨w, ?_, hw⟩
    rw [parseTypeName_fn h1, hparams, StateExcept.bind_eq hret, TypeName.letters_fn, List.map_map]
    rfl
  | @fn fn opening closing colon items ret ts h1 h2 h3 h4 hcommas hspells _ ih ihr =>
    intro fuel more written hfuel h₀ hends
    obtain ⟨fuel, rfl⟩ := Nat.exists_eq_succ_of_ne_zero (Nat.ne_of_gt (Nat.zero_lt_of_lt hfuel))
    simp only [List.cons_append, List.append_assoc] at h₀
    obtain ⟨w₁, rfl, hw₁⟩ := h₀.plain (by rw [h1]; decide)
    rw [List.length_cons, List.length_cons, List.length_append, List.length_cons, List.length_cons] at hfuel
    obtain ⟨w, hw₂, hparams⟩ := reads_params h2 h3 hcommas ih (fun i hi => (hspells i hi).head) fuel (by omega) hw₁
    obtain ⟨w', rfl, hw'⟩ := hw₂.plain (by rw [h4]; decide)
    obtain ⟨w'', hread, hw⟩ := ihr fuel more w' (by omega) hw' hends
    have hret : returnType (parseTypeName fuel) (colon :: w') = .ok (ret.letters, w'') := by
      rw [returnType, StateExcept.bind_eq (matchToken_ok h4 (by decide) w'), if_pos rfl, hread]
    refine ⟨w'', ?_, hw⟩
    rw [parseTypeName_fn h1, hparams, StateExcept.bind_eq hret, TypeName.letters_fn, List.map_map]
    rfl

end Tokens

section Names

variable {P : Identifiers} {table : TypeTable} {n : TypeName}

/-- The names of the types declared are names of types. -/
def TypeTable.Named (t : TypeTable) : Prop := (∀ i ∈ t.structs, i.name.Wellformed) ∧ ∀ i ∈ t.enums, i.name.Wellformed

/-- An error of a name is one of its spelling. -/
def ofName {α : Type} : Except String α → Except TypeNameError α
  | .ok a => .ok a
  | .error message => unknownType message

theorem parseDigits_digits {cs : List Char} (h : ∀ c ∈ cs, c.isDigit = true) (acc : ℕ) :
    parseDigits 10 false acc cs = some (Nat.ofDigitChars 10 cs acc) := by
  induction cs generalizing acc with
  | nil => rfl
  | cons c cs ih =>
    have hc := h c List.mem_cons_self
    have hrange : '0' ≤ c ∧ c ≤ '9' := by
      simpa [Char.isDigit, Char.le_def] using hc
    have hvalue : digitValue c = c.toNat - '0'.toNat := if_pos hrange
    have hlt : digitValue c < 10 := by
      rw [hvalue]
      simp only [Char.isDigit, Bool.and_eq_true, decide_eq_true_eq, UInt32.le_iff_toNat_le, ge_iff_le] at hc
      have hn : c.val.toNat = c.toNat := rfl
      simp at hc ⊢
      omega
    rw [parseDigits, if_neg (by rintro rfl; exact absurd hc (by decide)), if_pos hlt, ih fun d hd => h d (List.mem_cons_of_mem _ hd),
      Nat.ofDigitChars_cons, hvalue, Nat.mul_comm]

theorem asciiDigit_digit {c : Char} (h : c.isDigit = true) : asciiDigit c = c := by
  have hhigh : ∀ first ∈ DECIMAL_ZEROS, 0x660 ≤ first := by decide
  have hlow : c.toNat ≤ 57 := by
    simp only [Char.isDigit, Bool.and_eq_true, decide_eq_true_eq, UInt32.le_iff_toNat_le] at h
    exact h.2
  have hnone : (DECIMAL_ZEROS.find? fun first => first ≤ c.toNat && c.toNat ≤ first + 9) = none := by
    refine List.find?_eq_none.mpr fun first hfirst => ?_
    have := hhigh first hfirst
    simp only [Bool.and_eq_true, decide_eq_true_eq]
    omega
  rw [asciiDigit, hnone]

theorem intOf_toDigits (k : ℕ) : intOf (Nat.toDigits 10 k) = some (k : ℤ) := by
  have hdigits : ∀ c ∈ Nat.toDigits 10 k, c.isDigit = true := fun c hc => Nat.isDigit_of_mem_toDigits (by decide) (by decide) hc
  have hpiece : Piece (Nat.toDigits 10 k) := .of_plain (fun c hc => plain_digit (hdigits c hc)) Nat.toDigits_ne_nil
  have hparse : parseDigits 10 true 0 (Nat.toDigits 10 k) = some k := by
    obtain ⟨c, cs, heq⟩ := List.exists_cons_of_ne_nil hpiece.ne_nil
    have hsame : parseDigits 10 true 0 (c :: cs) = parseDigits 10 false 0 (c :: cs) := by
      have hc := hdigits c (by rw [heq]; simp)
      have hu : c ≠ '_' := by
        rintro rfl
        exact absurd hc (by decide)
      rw [parseDigits, if_neg hu, parseDigits, if_neg hu]
    rw [heq, hsame, ← heq, parseDigits_digits hdigits, Nat.ofDigitChars_ten_toDigits]
  have hascii : (Nat.toDigits 10 k).map asciiDigit = Nat.toDigits 10 k :=
    (List.map_congr_left fun c hc => asciiDigit_digit (hdigits c hc)).trans (List.map_id _)
  unfold intOf
  rw [hascii, hpiece.strip_eq]
  split
  · rename_i digits heq
    exact absurd (hdigits '-' (by rw [heq]; simp)) (by decide)
  · rename_i digits heq
    exact absurd (hdigits '+' (by rw [heq]; simp)) (by decide)
  · rw [hparse]
    rfl

theorem arrayLength_none {s : List Char} (h : '[' ∉ s ∨ s.getLast? ≠ some ']') : arrayLengthFromText s = .ok none := by
  unfold arrayLengthFromText
  rw [if_pos]
  refine h.imp_left fun hs => ?_
  by_contra hpre
  obtain ⟨rest, rfl⟩ := List.isPrefixOf_iff_prefix.mp (Bool.not_eq_false _ ▸ hpre)
  exact hs (by simp [ARRAY_PREFIX])

theorem arrayLength_frameArray (k : ℕ) : arrayLengthFromText (TypeName.frameArray k).letters =
    if k = 0 then unknownType s!"Array length must be positive, got {k} in type '{TypeName.frameArray k}'" else .ok (some k) := by
  have hname : String.ofList (TypeName.frameArray k).letters = (TypeName.frameArray k).spell := String.ofList_toList
  have hpre : ARRAY_PREFIX.isPrefixOf (TypeName.frameArray k).letters = true := by
    rw [TypeName.letters_frameArray]
    simp [ARRAY_PREFIX]
  have hlast : (TypeName.frameArray k).letters.getLast? = some ']' := by
    rw [TypeName.letters_frameArray, ← List.append_assoc, List.getLast?_concat]
  have hinner : ((TypeName.frameArray k).letters.drop 4).dropLast = Nat.toDigits 10 k := by
    rw [TypeName.letters_frameArray]
    simp
  unfold arrayLengthFromText
  rw [if_neg (by simp [hpre, hlast]), hinner]
  dsimp only
  rw [intOf_toDigits]
  dsimp only
  by_cases hk : k = 0
  · subst hk
    rw [if_pos (by simp), if_pos rfl, hname]
    rfl
  · rw [if_neg (by omega), if_neg hk]
    rfl

theorem find?_spell {α : Type} {f : α → TypeName} {l : List α} (hl : ∀ a ∈ l, (f a).Wellformed) (hn : n.Wellformed) :
    (l.find? fun a => (f a).spell.toList = n.letters) = l.find? fun a => f a = n := by
  induction l with
  | nil => rfl
  | cons a l ih =>
    have hiff : (f a).spell.toList = n.letters ↔ f a = n :=
      ⟨letters_inj (hl a List.mem_cons_self) hn, fun h => by rw [h]; rfl⟩
    rw [List.find?_cons, List.find?_cons, ih fun b hb => hl b (List.mem_cons_of_mem _ hb), decide_eq_decide.mpr hiff]

/-- What is declared under a name that is no builtin. -/
theorem declaredFromText_eq (ht : table.Named) (hn : n.Wellformed) (hb : builtinType n.spell = none) :
    declaredFromText table n.letters =
      if (table.struct? n).isSome then .ok (.struct n)
      else if (table.enum? n).isSome then .ok (.enum n)
      else unknownType s!"Unknown type '{n}'" := by
  have hname : String.ofList n.letters = n.spell := String.ofList_toList
  unfold declaredFromText
  rw [hname, hb]
  dsimp only
  rw [find?_spell ht.1 hn, find?_spell ht.2 hn]
  rw [← TypeTable.struct?, ← TypeTable.enum?]
  cases hs : table.struct? n with
  | some i =>
    have hi : i.name = n := by simpa using List.find?_some hs
    simp [hi]
  | none =>
    cases he : table.enum? n with
    | some i =>
      have hi : i.name = n := by simpa using List.find?_some he
      simp [hi]
    | none => rfl

theorem builtinType_app {base : String} {args : List TypeName} : builtinType (TypeName.app base args).spell = none := by
  have hmem : '<' ∈ (TypeName.app base args).spell.toList := by
    show '<' ∈ (TypeName.app base args).letters
    rw [TypeName.letters_app]
    simp
  generalize (TypeName.app base args).spell = name at hmem
  unfold builtinType
  split <;> first
    | rfl
    | simp at hmem

theorem element_none {base : String} {args : List TypeName} (hn : (TypeName.app base args).Wellformed) (hbase : base ≠ "Array") :
    elementTypeFromText P (TypeName.app base args).letters = .ok none := by
  cases hn with
  | app hname hne hargs =>
    rw [TypeName.letters_app]
    unfold elementTypeFromText
    cases hid : P.isidentifier base.toList with
    | false =>
      rw [genericApplication_unnamed hname hid]
      rfl
    | true =>
      rw [genericApplication_app hname hid (pieces_of_wellformed hargs) (by simpa using hne)]
      have htext : base.toList ≠ ['A', 'r', 'r', 'a', 'y'] := fun h => hbase (String.toList_inj.mp h)
      exact if_pos htext

theorem array_application {args : List TypeName} (hn : (TypeName.app "Array" args).Wellformed) :
    genericApplication P (TypeName.app "Array" args).letters = .ok (some (['A', 'r', 'r', 'a', 'y'], args.map TypeName.letters)) := by
  have hid : P.isidentifier ['A', 'r', 'r', 'a', 'y'] = true := P.letters _ (by simp) (List.all_eq_true.mp rfl)
  exact application_letters hn hid

theorem element_one {a : TypeName} (hn : (TypeName.app "Array" [a]).Wellformed) :
    elementTypeFromText P (TypeName.app "Array" [a]).letters = .ok (some a.letters) := by
  unfold elementTypeFromText
  rw [array_application hn]
  rfl

theorem element_several {base : String} {args : List TypeName} (hbase : base = "Array")
    (hn : (TypeName.app base args).Wellformed) (hlen : args.length ≠ 1) :
    elementTypeFromText P (TypeName.app base args).letters =
      unknownType s!"'Array' takes one element type, got {args.length} in '{TypeName.app base args}'" := by
  subst hbase
  have hname : String.ofList (TypeName.app "Array" args).letters = (TypeName.app "Array" args).spell := String.ofList_toList
  unfold elementTypeFromText
  rw [array_application hn, hname]
  rcases args with _ | ⟨a, _ | ⟨b, args⟩⟩
  · rfl
  · exact absurd rfl hlen
  · rw [← List.length_map (f := TypeName.letters)]
    rfl

theorem typeFromName_several {base : String} {args : List TypeName} (hbase : base = "Array") (hlen : args.length ≠ 1) :
    typeFromName table (.app base args) =
      .error s!"'Array' takes one element type, got {args.length} in '{TypeName.app base args}'" := by
  rcases args with _ | ⟨a, _ | ⟨b, args⟩⟩
  · rw [typeFromName, if_pos hbase]
    all_goals simp
  · exact absurd rfl hlen
  · rw [typeFromName, if_pos hbase]
    all_goals simp

theorem mapM_params {f : List Char → Except TypeNameError Ty} {whole : TypeName} {ps : List TypeName}
    (h : ∀ p ∈ ps, f p.letters = ofName (typeFromName table p)) :
    ((ps.map TypeName.letters).mapM fun param => do paramFromText whole.letters (← f param)) =
      ofName (paramsFromNames table whole ps) := by
  have hname : String.ofList whole.letters = whole.spell := String.ofList_toList
  induction ps with
  | nil =>
    rw [paramsFromNames]
    rfl
  | cons p ps ih =>
    rw [List.map_cons, List.mapM_cons, h p List.mem_cons_self, ih fun q hq => h q (List.mem_cons_of_mem _ hq), paramsFromNames]
    cases typeFromName table p with
    | error e => rfl
    | ok ty =>
      show (paramFromText whole.letters ty >>= _) = _
      unfold paramFromText
      rw [hname]
      dsimp only
      split_ifs
      · rfl
      · rfl
      · rfl
      · cases paramsFromNames table whole ps <;> rfl

/-- Reading a spelling is reading the name. -/
theorem typeFromLoop_letters (ht : table.Named) (hn : n.Wellformed) (fuel : ℕ) (hfuel : n.letters.length < fuel) :
    typeFromLoop P table fuel n.letters = ofName (typeFromName table n) := by
  induction hn generalizing fuel with
  | @named n hn =>
    obtain ⟨fuel, rfl⟩ := Nat.exists_eq_succ_of_ne_zero (Nat.ne_of_gt (Nat.zero_lt_of_lt hfuel))
    have helement : elementTypeFromText P (TypeName.named n).letters = .ok none := by
      unfold elementTypeFromText
      rw [TypeName.letters_named, genericApplication_plain hn.plain]
      rfl
    rw [typeFromLoop, TypeName.letters_named, arrayLength_none (.inl hn.no_bracket)]
    show (funcSignature n.toList >>= _) = _
    rw [funcSignature_plain hn.plain]
    show (elementTypeFromText P (TypeName.named n).letters >>= _) = _
    rw [helement, typeFromName]
    show declaredFromText table (TypeName.named n).letters = _
    cases hb : builtinType n with
    | some s =>
      have hname : String.ofList (TypeName.named n).letters = n := String.ofList_toList
      unfold declaredFromText
      rw [hname, hb]
      rfl
    | none =>
      rw [declaredFromText_eq ht (.named hn) hb]
      dsimp only
      split_ifs <;> rfl
  | frameArray length =>
    obtain ⟨fuel, rfl⟩ := Nat.exists_eq_succ_of_ne_zero (Nat.ne_of_gt (Nat.zero_lt_of_lt hfuel))
    rw [typeFromLoop, arrayLength_frameArray, typeFromName]
    split_ifs <;> rfl
  | @app base args hbase hne hargs ih =>
    obtain ⟨fuel, rfl⟩ := Nat.exists_eq_succ_of_ne_zero (Nat.ne_of_gt (Nat.zero_lt_of_lt hfuel))
    have hn := TypeName.Wellformed.app hbase hne hargs
    have hname : String.ofList (TypeName.app base args).letters = (TypeName.app base args).spell := String.ofList_toList
    have hlast : (TypeName.app base args).letters.getLast? ≠ some ']' := by
      rw [TypeName.letters_app, ← List.cons_append, ← List.append_assoc, List.getLast?_concat]
      decide
    have hsig : funcSignature (TypeName.app base args).letters = .ok none := by
      rw [TypeName.letters_app]
      exact funcSignature_app hbase _
    rw [typeFromLoop, arrayLength_none (.inr hlast)]
    show (funcSignature (TypeName.app base args).letters >>= _) = _
    rw [hsig]
    show (elementTypeFromText P (TypeName.app base args).letters >>= _) = _
    by_cases harray : base = "Array"
    · subst harray
      by_cases hlen : args.length = 1
      · obtain ⟨a, rfl⟩ := List.length_eq_one_iff.mp hlen
        rw [element_one hn, typeFromName, if_pos rfl]
        show (typeFromLoop P table fuel a.letters >>= fun element => elementFromText _ element) = _
        rw [ih a List.mem_cons_self fuel (by have := length_app "Array" (List.mem_singleton_self a); omega)]
        cases typeFromName table a with
        | error e => rfl
        | ok el =>
          show elementFromText _ el = _
          unfold elementFromText
          rw [hname]
          dsimp only
          split_ifs <;> rfl
      · rw [element_several rfl hn hlen, typeFromName_several rfl hlen]
        rfl
    · rw [element_none hn harray]
      show declaredFromText table (TypeName.app base args).letters = _
      rw [declaredFromText_eq ht hn builtinType_app]
      unfold typeFromName
      rw [if_neg harray]
      split_ifs <;> rfl
  | @fn params ret hparams hret ih ihr =>
    obtain ⟨fuel, rfl⟩ := Nat.exists_eq_succ_of_ne_zero (Nat.ne_of_gt (Nat.zero_lt_of_lt hfuel))
    have hn := TypeName.Wellformed.fn hparams hret
    have hname : String.ofList (TypeName.fn params ret).letters = (TypeName.fn params ret).spell := String.ofList_toList
    have hprefix : arrayLengthFromText (TypeName.fn params ret).letters = .ok none := by
      unfold arrayLengthFromText
      rw [if_pos]
      left
      rw [TypeName.letters_fn]
      rfl
    rw [typeFromLoop, hprefix]
    show (funcSignature (TypeName.fn params ret).letters >>= _) = _
    rw [funcSignature_letters hn, typeFromName]
    show ((params.map TypeName.letters).mapM (fun param => do
      paramFromText (TypeName.fn params ret).letters (← typeFromLoop P table fuel param)) >>= _) = _
    rw [mapM_params fun p hp => ih p hp fuel (by have := length_param ret hp; omega)]
    cases paramsFromNames table (.fn params ret) params with
    | error e => rfl
    | ok ps =>
      show (typeFromLoop P table fuel ret.letters >>= fun r => returnFromText _ ps r) = _
      rw [ihr fuel (by have := length_ret params ret; omega)]
      cases typeFromName table ret with
      | error e => rfl
      | ok r =>
        show returnFromText _ ps r = _
        unfold returnFromText
        rw [hname]
        dsimp only
        split_ifs <;> rfl

/-- A name a program can declare a type under, or instantiate one under. -/
inductive TypeName.Declared : TypeName → Prop
  | named {n : String} : builtinType n = none → Declared (.named n)
  | app (base : String) (args : List TypeName) : Declared (.app base args)

/-- The types that can be written when the types of the table are declared. -/
inductive Ty.Writable (t : TypeTable) : Ty → Prop
  | scalar {s : Scalar} : s ≠ .null → Writable t (.scalar s)
  | frameArray {length : ℕ} : 0 < length → Writable t (.frameArray length)
  | struct {name : TypeName} : name.Wellformed → name.Declared → (t.struct? name).isSome = true → Writable t (.struct name)
  | enum {name : TypeName} : name.Wellformed → name.Declared → t.struct? name = none → (t.enum? name).isSome = true →
      Writable t (.enum name)
  | func {params : List Ty} {ret : Ty} : (∀ p ∈ params, Writable t p) →
      (∀ p ∈ params, p ≠ .void ∧ p.isFrameArray = false ∧ p.isFrameRelative = false) → Writable t ret →
      ret.isFrameArray = false → ret.isFrameRelative = false → Writable t (.func params ret)
  | array {element : Ty} : Writable t element → element ≠ .void → element ≠ .float → element.isFrameArray = false →
      Writable t (.array element)

theorem names_eq_map (ts : List Ty) : Ty.names ts = ts.map Ty.name := by
  induction ts with
  | nil => rfl
  | cons t ts ih => rw [Ty.names, ih, List.map_cons]

theorem scalar_nameText (s : Scalar) : NameText s.spell.toList := by
  cases s <;> exact ⟨by decide, by simp [Plain, isSpace, Scalar.spell], by decide⟩

theorem builtinType_spell {s : Scalar} (h : s ≠ .null) : builtinType s.spell = some s := by
  cases s with
  | null => exact absurd rfl h
  | _ => rfl

variable {ty : Ty}

theorem Ty.Writable.wellformed (h : ty.Writable table) : ty.name.Wellformed := by
  induction h with
  | scalar => exact .named (scalar_nameText _)
  | frameArray => exact .frameArray _
  | struct h => exact h
  | enum h => exact h
  | func _ _ _ _ _ ih ihr =>
    rw [Ty.name, names_eq_map]
    refine .fn (fun n hn => ?_) ihr
    obtain ⟨p, hp, rfl⟩ := List.mem_map.mp hn
    exact ih p hp
  | array _ _ _ _ ih =>
    rw [Ty.name]
    exact .app ⟨by decide, by simp [Plain, isSpace], by decide⟩ (by simp) (List.forall_mem_singleton.mpr ih)

theorem params_name {whole : TypeName} {params : List Ty} (h : ∀ p ∈ params, typeFromName table p.name = .ok p)
    (hrules : ∀ p ∈ params, p ≠ .void ∧ p.isFrameArray = false ∧ p.isFrameRelative = false) :
    paramsFromNames table whole (params.map Ty.name) = .ok params := by
  induction params with
  | nil => rw [List.map_nil, paramsFromNames]
  | cons p params ih =>
    obtain ⟨h1, h2, h3⟩ := hrules p List.mem_cons_self
    rw [List.map_cons, paramsFromNames, h p List.mem_cons_self, ih (fun q hq => h q (List.mem_cons_of_mem _ hq)) fun q hq =>
      hrules q (List.mem_cons_of_mem _ hq)]
    dsimp only
    rw [if_neg h1, if_neg (by simp [h2]), if_neg (by simp [h3])]

/-- Nothing is declared as an application of `Array`. -/
def TypeTable.NoArray (t : TypeTable) : Prop :=
  ∀ args, t.struct? (.app "Array" args) = none ∧ t.enum? (.app "Array" args) = none

/-- A type is what its name stands for. -/
theorem typeFromName_name (hno : table.NoArray) (h : ty.Writable table) : typeFromName table ty.name = .ok ty := by
  induction h with
  | scalar h => rw [Ty.name, typeFromName, builtinType_spell h]
  | frameArray h => rw [Ty.name, typeFromName, if_neg (Nat.ne_of_gt h)]
  | @struct name _ hd hs =>
    rw [Ty.name]
    cases hd with
    | named hb =>
      rw [typeFromName, hb]
      exact if_pos hs
    | app base args =>
      have harray : base ≠ "Array" := by
        rintro rfl
        rw [(hno args).1] at hs
        cases hs
      unfold typeFromName
      rw [if_neg harray, if_pos hs]
  | @enum name _ hd hnone he =>
    rw [Ty.name]
    cases hd with
    | named hb =>
      rw [typeFromName, hb]
      dsimp only
      rw [if_neg (by simp [hnone]), if_pos he]
    | app base args =>
      have harray : base ≠ "Array" := by
        rintro rfl
        rw [(hno args).2] at he
        cases he
      unfold typeFromName
      rw [if_neg harray, if_neg (by simp [hnone]), if_pos he]
  | func _ hrules _ h1 h2 ih ihr =>
    rw [Ty.name, names_eq_map, typeFromName, params_name ih hrules]
    dsimp only
    rw [ihr]
    dsimp only
    rw [if_neg (by simp [h1]), if_neg (by simp [h2])]
  | array _ h1 h2 h3 ih =>
    rw [Ty.name, typeFromName, if_pos rfl, ih]
    dsimp only
    rw [if_neg h1, if_neg h2, if_neg (by simp [h3])]

/-- An application of `Array` never stands for something declared. -/
theorem array_not_declared {args : List TypeName} {m : TypeName} :
    typeFromName table (.app "Array" args) ≠ .ok (.struct m) ∧ typeFromName table (.app "Array" args) ≠ .ok (.enum m) := by
  unfold typeFromName
  rw [if_pos rfl]
  split
  · rename_i element
    cases typeFromName table element with
    | error e => simp
    | ok el =>
      dsimp only
      split_ifs <;> simp
  · simp

theorem Glued.length_le {after ts written : List Token} (h : Glued after ts written) : ts.length ≤ 2 * written.length := by
  induction h with
  | done => simp
  | keep _ ih =>
    rw [List.length_cons, List.length_cons]
    omega
  | shift _ ih =>
    rw [List.length_cons, List.length_cons, List.length_cons]
    omega
  | shiftLast =>
    rw [List.length_singleton, List.length_cons]
    omega
  | equalLast =>
    rw [List.length_singleton, List.length_cons]
    omega

/-- `_type_name` at a list of tokens; one that closes two brackets counts for both. -/
def typeNameOf (tokens : List Token) : Except ParseStop (List Char × List Token) := parseTypeName (2 * tokens.length + 1) tokens

theorem typeNameOf_written {after ts written : List Token} (h : Spells n ts) (hends : EndsType after) (hw : Glued after ts written) :
    typeNameOf written = .ok (n.letters, after) := by
  obtain ⟨w, hread, hw⟩ := h.reads (2 * written.length + 1) [] written (Nat.lt_succ_of_le hw.length_le)
    (by rw [List.append_nil]; exact hw) hends
  cases hw
  exact hread

/-- The spellings of types go round: each is made of any tokens that spell the type, stands for
it and for no other; but for this nothing may be declared as an application of `Array`. -/
theorem spellings_round_trip (P : Identifiers) {table : TypeTable} (ht : table.Named) :
    (∀ ty : Ty, ty.Writable table →
      (∀ ts after written, Spells ty.name ts → EndsType after → Glued after ts written →
        typeNameOf written = .ok (ty.name.letters, after)) ∧
      typeFromText P table ty.name.letters = .ok ty ∧
      ∀ ty' : Ty, ty'.Writable table → ty'.name.letters = ty.name.letters → ty' = ty) ↔
    table.NoArray := by
  have htext {ty : Ty} (h : ty.Writable table) : typeFromText P table ty.name.letters = ofName (typeFromName table ty.name) :=
    typeFromLoop_letters ht h.wellformed _ (Nat.lt_succ_self _)
  constructor
  · intro hall args
    have hstruct : table.struct? (.app "Array" args) = none := by
      by_contra hsome
      obtain ⟨i, hi⟩ := Option.ne_none_iff_exists'.mp hsome
      have hname : i.name = .app "Array" args := by simpa using List.find?_some hi
      have hw : (Ty.struct (.app "Array" args)).Writable table :=
        .struct (hname ▸ ht.1 i (List.mem_of_find?_eq_some hi)) (.app _ _) (by rw [hi]; rfl)
      have hread := (hall _ hw).2.1
      rw [htext hw, Ty.name] at hread
      cases hr : typeFromName table (.app "Array" args) with
      | error e =>
        rw [hr] at hread
        cases hread
      | ok ty =>
        rw [hr] at hread
        exact array_not_declared.1 (hr.trans (congrArg _ (Except.ok.inj hread)))
    refine ⟨hstruct, ?_⟩
    by_contra hsome
    obtain ⟨i, hi⟩ := Option.ne_none_iff_exists'.mp hsome
    have hname : i.name = .app "Array" args := by simpa using List.find?_some hi
    have hw : (Ty.enum (.app "Array" args)).Writable table :=
      .enum (hname ▸ ht.2 i (List.mem_of_find?_eq_some hi)) (.app _ _) hstruct (by rw [hi]; rfl)
    have hread := (hall _ hw).2.1
    rw [htext hw, Ty.name] at hread
    cases hr : typeFromName table (.app "Array" args) with
    | error e =>
      rw [hr] at hread
      cases hread
    | ok ty =>
      rw [hr] at hread
      exact array_not_declared.2 (hr.trans (congrArg _ (Except.ok.inj hread)))
  · intro hno ty hw
    have hread {ty : Ty} (h : ty.Writable table) : typeFromText P table ty.name.letters = .ok ty := by
      rw [htext h, typeFromName_name hno h]
      rfl
    refine ⟨fun ts after written hs hends hwritten => typeNameOf_written hs hends hwritten, hread hw, fun ty' hw' heq => ?_⟩
    have hsame := hread hw'
    rw [heq, hread hw] at hsame
    exact (Except.ok.inj hsame).symm

/-- One struct, `Node`. -/
def nodeTable : TypeTable where
  structs := [⟨.named "Node", 0, []⟩]

theorem node_round_trip : typeFromText asciiIdentifiers nodeTable
      (Ty.func [.struct (.named "Node"), .array .int] .void).name.letters =
    .ok (.func [.struct (.named "Node"), .array .int] .void) := by
  have hname : NameText "Node".toList := ⟨by decide, by simp [Plain, isSpace], by decide⟩
  have hnamed : nodeTable.Named := ⟨List.forall_mem_singleton.mpr (.named hname), by simp [nodeTable]⟩
  have hno : nodeTable.NoArray := fun args => ⟨by simp [nodeTable, TypeTable.struct?], by simp [nodeTable, TypeTable.enum?]⟩
  have hnode : (Ty.struct (.named "Node")).Writable nodeTable :=
    .struct (.named hname) (.named (by decide)) (by simp [nodeTable, TypeTable.struct?])
  have harray : (Ty.array .int).Writable nodeTable := .array (.scalar (by decide)) (by decide) (by decide) (by decide)
  have hfn : (Ty.func [.struct (.named "Node"), .array .int] .void).Writable nodeTable := by
    refine .func ?_ (by decide) (.scalar (by decide)) (by decide) (by decide)
    exact List.forall_mem_cons.mpr ⟨hnode, List.forall_mem_singleton.mpr harray⟩
  exact ((spellings_round_trip asciiIdentifiers hnamed).mpr hno _ hfn).2.1

/-- A program that declares a struct `Array<T>` and names `Array<int>`. -/
def arraySource : Program where
  functions := [{
    name := "main", params := [], returnType := none,
    body := [.varDecl {} "a" (some (.app "Array" [.named "int"])) none] }]
  structs := [{ name := "Array", fields := [⟨"x", .named "T", {}⟩], typeParams := ["T"] }]

/-- There the struct `Array<int>` is declared, and its spelling stands for the array type. -/
theorem struct_array_misread : ∃ checked, analyze 4 arraySource = .ok checked ∧
    (Ty.struct (.app "Array" [.named "int"])).Writable checked.types ∧ (Ty.array .int).Writable checked.types ∧
    (Ty.struct (.app "Array" [.named "int"])).name.letters = (Ty.array .int).name.letters ∧
    typeFromText asciiIdentifiers checked.types (Ty.struct (.app "Array" [.named "int"])).name.letters = .ok (.array .int) := by
  have h : ((analyze 4 arraySource).toOption.map fun c => (c.types.struct? (.app "Array" [.named "int"])).isSome) = some true := by
    decide +kernel
  obtain ⟨checked, hc, hs⟩ := Option.map_eq_some_iff.mp h
  have hrun : analyze 4 arraySource = .ok checked := by
    cases hr : analyze 4 arraySource with
    | error e =>
      rw [hr] at hc
      cases hc
    | ok c =>
      rw [hr] at hc
      exact congrArg _ (Option.some.inj hc)
  have hint : (TypeName.named "int").Wellformed := .named (scalar_nameText .int)
  have hname : (TypeName.app "Array" [.named "int"]).Wellformed :=
    .app ⟨by decide, by simp [Plain, isSpace], by decide⟩ (by simp) (List.forall_mem_singleton.mpr hint)
  exact ⟨checked, hrun, .struct hname (.app _ _) hs, .array (.scalar (by decide)) (by decide) (by decide) (by decide), rfl, rfl⟩

end Names

end QuinLang
