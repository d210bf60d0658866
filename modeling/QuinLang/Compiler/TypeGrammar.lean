import QuinLang.Compiler.ParserRuns
import QuinLang.Compiler.TypeSpelling

/-! The grammar of types, in which a closing bracket may be the start of a longer token, and
that the parser reads just what is in it. -/

namespace QuinLang

namespace Parser

open Consuming (loop Takes)

section Cursor

theorem takes_ok {β : Type} {p : Parse β} {n k : ℕ} {ts rest : List Token} {a : β} (h : Takes parsing n k p)
    (hts : parsing.Input ts) (hlen : ts.length ≤ n) (hp : p ts = .ok (a, rest)) :
    parsing.Input rest ∧ rest.length + k ≤ ts.length := by
  rcases h ts hts hlen with ⟨b, rest', hp', hrest, hle⟩ | ⟨e, hp', -⟩
  · rw [hp] at hp'
    cases hp'
    exact ⟨hrest, hle⟩
  · rw [hp] at hp'
    cases hp'

def Heads (types : List TokenType) (ts : List Token) : Prop := ∃ t rest, ts = t :: rest ∧ t.type ∈ types

variable {type : TokenType} {types : List TokenType} {ts rest : List Token} {t : Token}

theorem consume_inv {msg : String} (h : consume type msg ts = .ok (t, rest)) : ts = t :: rest ∧ t.type = type := by
  cases ts with
  | nil => cases h
  | cons u us =>
    unfold consume at h
    dsimp only at h
    split at h
    · rename_i hu
      cases h
      exact ⟨rfl, hu.2⟩
    · cases h

theorem matchToken_true (h : matchToken type ts = .ok (true, rest)) : ∃ t, ts = t :: rest ∧ t.type = type := by
  cases ts with
  | nil => cases h
  | cons u us =>
    unfold matchToken at h
    dsimp only at h
    split at h
    · rename_i hu
      cases h
      exact ⟨u, rfl, hu.2⟩
    · cases h

theorem matchToken_false (h : matchToken type ts = .ok (false, rest)) : rest = ts := by
  cases ts with
  | nil => cases h
  | cons u us =>
    unfold matchToken at h
    dsimp only at h
    split at h <;> cases h
    rfl

theorem matchAny_some (h : matchAny types ts = .ok (some t, rest)) : ts = t :: rest ∧ t.type ∈ types := by
  cases ts with
  | nil => cases h
  | cons u us =>
    unfold matchAny at h
    dsimp only at h
    split at h
    · rename_i hu
      cases h
      exact ⟨rfl, hu.2⟩
    · cases h

theorem matchAny_none (h : matchAny types ts = .ok (none, rest)) : rest = ts := by
  cases ts with
  | nil => cases h
  | cons u us =>
    unfold matchAny at h
    dsimp only at h
    split at h <;> cases h
    rfl

theorem checkToken_same {b : Bool} (h : checkToken type ts = .ok (b, rest)) : rest = ts := by
  cases ts with
  | nil => cases h
  | cons u us =>
    cases h
    rfl

theorem checkToken_false (hne : type ≠ .EOF) (h : checkToken type ts = .ok (false, rest)) : ¬ Heads [type] ts := by
  rintro ⟨u, us, rfl, hu⟩
  have hu : u.type = type := List.mem_singleton.mp hu
  obtain ⟨hdec, -⟩ := Prod.mk.inj (Except.ok.inj h)
  exact of_decide_eq_false hdec ⟨hu ▸ hne, hu⟩

theorem checkNext_same {b : Bool} (h : checkNext type ts = .ok (b, rest)) : rest = ts := by
  unfold checkNext at h
  split at h <;> cases h <;> rfl

/-- The input after a token that does not end it. -/
theorem input_tail (h : parsing.Input (t :: ts)) (ht : t.type = type) (hne : type ≠ .EOF) : parsing.Input ts :=
  parsing_tail h (ht ▸ hne)

theorem checkToken_hit (ht : t.type = type) (hne : type ≠ .EOF) : checkToken type (t :: rest) = .ok (true, t :: rest) := by
  rw [checkToken, decide_eq_true ⟨ht ▸ hne, ht⟩]

theorem checkToken_miss (hts : parsing.Input ts) (h : ¬ Heads [type] ts) : checkToken type ts = .ok (false, ts) := by
  obtain ⟨t, rest, rfl⟩ := parsing_cons hts
  have hne : ¬ (t.type ≠ .EOF ∧ t.type = type) := fun hboth => h ⟨t, rest, rfl, List.mem_singleton.mpr hboth.2⟩
  rw [checkToken, decide_eq_false hne]

theorem matchToken_miss (hts : parsing.Input ts) (h : ¬ Heads [type] ts) : matchToken type ts = .ok (false, ts) := by
  obtain ⟨t, rest, rfl⟩ := parsing_cons hts
  exact matchToken_no (fun ht => h ⟨t, rest, rfl, List.mem_singleton.mpr ht⟩) rest

theorem matchToken_not_heads (hne : type ≠ .EOF) (h : matchToken type ts = .ok (false, rest)) : ¬ Heads [type] ts := by
  rintro ⟨u, us, rfl, hu⟩
  rw [matchToken_ok (List.mem_singleton.mp hu) hne] at h
  cases h

variable {σ α : Type} {turn : σ → Parse (σ ⊕ α)} {s s' : σ} {a : α} {fuel : ℕ}

theorem loop_goes (h : turn s ts = .ok (.inl s', rest)) :
    loop .outOfFuel turn (fuel + 1) s ts = loop .outOfFuel turn fuel s' rest := by
  rw [loop, StateExcept.bind_eq h]

theorem loop_ends (h : turn s ts = .ok (.inr a, rest)) : loop .outOfFuel turn (fuel + 1) s ts = .ok (a, rest) := by
  rw [loop, StateExcept.bind_eq h]
  rfl

end Cursor

section Lists

variable {α : Type}

/-- Something read off the front of some tokens, and what is left of them. -/
structure Reading (α : Type) where
  before : List Token
  value : α
  after : List Token

/-- Readings one after another, a comma between each two. -/
inductive Linked : List (Reading α) → List Token → List Token → Prop
  | last (r : Reading α) : Linked [r] r.before r.after
  | comma {r : Reading α} {rs : List (Reading α)} {comma : Token} {mid rest : List Token} : r.after = comma :: mid →
      comma.type = .COMMA → Linked rs mid rest → Linked (r :: rs) r.before rest

/-- Arguments up to the parenthesis that closes them, and it. -/
def Arguments (args : List (Reading α)) (ts rest : List Token) : Prop :=
  ∃ closing, closing.type = .RIGHT_PAREN ∧ (args = [] ∧ ts = closing :: rest ∨ Linked args ts (closing :: rest))

variable {rs : List (Reading α)} {ts rest after : List Token}

theorem Linked.first (h : Linked rs ts rest) : ∃ r ∈ rs, r.before = ts := by
  cases h with
  | last r => exact ⟨r, List.mem_singleton_self r, rfl⟩
  | @comma r rs _ _ _ _ _ _ => exact ⟨r, List.mem_cons_self, rfl⟩

theorem Linked.leaves (hrs : ∀ r ∈ rs, parsing.Input r.before → parsing.Input r.after ∧ r.after.length < r.before.length)
    (h : Linked rs ts rest) (hts : parsing.Input ts) : parsing.Input rest ∧ rest.length + rs.length ≤ ts.length := by
  induction h with
  | last r =>
    obtain ⟨hrest, hlt⟩ := hrs r (List.mem_singleton_self r) hts
    exact ⟨hrest, hlt⟩
  | @comma r rs c mid rest hafter hc hmore ih =>
    obtain ⟨hmid, hlt⟩ := hrs r List.mem_cons_self hts
    rw [hafter] at hmid hlt
    obtain ⟨hrest, hle⟩ := ih (fun s hs => hrs s (List.mem_cons_of_mem _ hs)) (input_tail hmid hc (by decide))
    exact ⟨hrest, by simp only [List.length_cons] at hlt ⊢; omega⟩

theorem Arguments.leaves {args : List (Reading α)}
    (hargs : ∀ a ∈ args, parsing.Input a.before → parsing.Input a.after ∧ a.after.length < a.before.length)
    (h : Arguments args ts rest) (hts : parsing.Input ts) : parsing.Input rest ∧ rest.length < ts.length := by
  obtain ⟨closing, hc, ⟨-, rfl⟩ | hlinked⟩ := h
  · exact ⟨input_tail hts hc (by decide), Nat.lt_succ_self _⟩
  · obtain ⟨hrest, hle⟩ := hlinked.leaves hargs hts
    exact ⟨input_tail hrest hc (by decide), by simp only [List.length_cons] at hle; omega⟩

variable {item : Parse α} {n fuel : ℕ} {xs ys : List α} {stops : List Token → Prop}

/-- What a list that is read is made of. -/
def ReadBy (item : Parse α) (n : ℕ) (rs : List (Reading α)) : Prop :=
  ∀ r ∈ rs, parsing.Input r.before ∧ r.before.length ≤ n ∧ item r.before = .ok (r.value, r.after)

theorem linked_of_loop (hitem : Takes parsing n 1 item) (hts : parsing.Input ts) (hlen : ts.length ≤ n)
    (h : loop .outOfFuel (commaTurn item) fuel xs ts = .ok (ys, rest)) :
    ∃ rs, ReadBy item n rs ∧ Linked rs ts rest ∧ ys = xs ++ rs.map Reading.value := by
  induction fuel generalizing xs ts with
  | zero => cases h
  | succ fuel ih =>
    rw [loop] at h
    obtain ⟨r, ts₁, hturn, hgo⟩ := StateExcept.bind_ok.mp h
    obtain ⟨i, mid, hi, hturn⟩ := StateExcept.bind_ok.mp hturn
    obtain ⟨b, mid', hb, hturn⟩ := StateExcept.bind_ok.mp hturn
    have hfirst : ReadBy item n [⟨ts, i, mid⟩] := by
      intro s hs
      cases List.mem_singleton.mp hs
      exact ⟨hts, hlen, hi⟩
    obtain ⟨hmid, hle⟩ := takes_ok hitem hts hlen hi
    cases b with
    | true =>
      cases hturn
      obtain ⟨c, rfl, hc⟩ := matchToken_true hb
      obtain ⟨rs, hread, hlinked, rfl⟩ := ih (input_tail hmid hc (by decide)) (by simp only [List.length_cons] at hle; omega) hgo
      refine ⟨⟨ts, i, c :: ts₁⟩ :: rs, List.forall_mem_cons.mpr ⟨hfirst _ (List.mem_singleton_self _), hread⟩,
        .comma rfl hc hlinked, by simp⟩
    | false =>
      cases hturn
      cases hgo
      obtain rfl := matchToken_false hb
      exact ⟨[⟨ts, i, _⟩], hfirst, .last _, rfl⟩

/-- Each reading is the item parser's, wherever it may stop. -/
def Reads (stops : List Token → Prop) (n : ℕ) (item : Parse α) (r : Reading α) : Prop :=
  parsing.Input r.before → r.before.length ≤ n →
    (stops r.after → item r.before = .ok (r.value, r.after)) ∧ parsing.Input r.after ∧ r.after.length < r.before.length

theorem commaLoop_reads (hcommas : ∀ c mid, c.type = .COMMA → stops (c :: mid)) (hrs : ∀ r ∈ rs, Reads stops n item r)
    (h : Linked rs ts after) (hts : parsing.Input ts) (hlen : ts.length ≤ n)
    (hafter : stops after) (hno : ¬ Heads [.COMMA] after) (hfuel : rs.length ≤ fuel) :
    loop .outOfFuel (commaTurn item) fuel xs ts = .ok (xs ++ rs.map Reading.value, after) := by
  induction h generalizing fuel xs with
  | last r =>
    obtain ⟨fuel, rfl⟩ : ∃ fuel', fuel = fuel' + 1 := ⟨fuel - 1, by simp only [List.length_singleton] at hfuel; omega⟩
    obtain ⟨hread, hin, -⟩ := hrs r (List.mem_singleton_self r) hts hlen
    obtain ⟨t, rest, heq⟩ := parsing_cons hin
    have hmatch : matchToken .COMMA r.after = .ok (false, r.after) := by
      rw [heq]
      exact matchToken_no (fun ht => hno ⟨t, rest, heq, List.mem_singleton.mpr ht⟩) rest
    refine loop_ends ?_
    rw [commaTurn, StateExcept.bind_eq (hread hafter), StateExcept.bind_eq hmatch]
    rfl
  | @comma r rs c mid rest hcomma hc hmore ih =>
    obtain ⟨fuel, rfl⟩ : ∃ fuel', fuel = fuel' + 1 := ⟨fuel - 1, by simp only [List.length_cons] at hfuel; omega⟩
    obtain ⟨hread, hin, hlt⟩ := hrs r List.mem_cons_self hts hlen
    rw [hcomma] at hread hin hlt
    have hturn : commaTurn item xs r.before = .ok (.inl (xs ++ [r.value]), mid) := by
      rw [commaTurn, StateExcept.bind_eq (hread (hcommas c mid hc)),
        StateExcept.bind_eq (matchToken_ok hc (by decide) mid)]
      rfl
    rw [loop_goes hturn, ih (fun s hs => hrs s (List.mem_cons_of_mem _ hs)) (input_tail hin hc (by decide))
      (by simp only [List.length_cons] at hlt; omega) hafter hno (by simp only [List.length_cons] at hfuel; omega)]
    simp

end Lists

section Grammar

/-- The names of types that are one token. -/
def Names (t : Token) (name : List Char) : Prop := (t.type, name) ∈ KEYWORD_TYPES ∨ t.type = .IDENTIFIER ∧ name = t.lexeme

/-- A bracket that closes type arguments, be it the first character of a longer token. -/
inductive Closes : List Token → List Token → Prop
  | whole {t : Token} {rest : List Token} : t.type = .GREATER → Closes (t :: rest) rest
  | cut {t : Token} {kind : TokenType} {lexeme : List Char} {rest : List Token} : SPLIT_ON_CLOSE t.type = some (kind, lexeme) →
      Closes (t :: rest) (⟨kind, lexeme, t.line, t.col + 1, none⟩ :: rest)

theorem Closes.read {ts rest : List Token} (h : Closes ts rest) : closeTypeArguments ts = .ok ((), rest) := by
  cases h with
  | whole ht =>
    simp only [closeTypeArguments, ht, SPLIT_ON_CLOSE]
    exact StateExcept.bind_eq (consume_ok ht (by decide) rest)
  | cut hsplit => simp only [closeTypeArguments, hsplit]

/-- The grammar: how the type is spelled that the tokens before `rest` are. -/
inductive Spells : List Token → List Char → List Token → Prop
  | name {t : Token} {name : List Char} {rest : List Token} : Names t name → ¬ Heads [.LEFT_BRACKET] rest →
      ¬ (t.type = .IDENTIFIER ∧ Heads [.LESS] rest) → Spells (t :: rest) name rest
  | frameArray {t opening size closing : Token} {n : ℕ} {rest : List Token} : Names t ['i', 'n', 't'] →
      opening.type = .LEFT_BRACKET → size.type = .NUMBER → size.literal = some (.int n) → closing.type = .RIGHT_BRACKET →
      Spells (t :: opening :: size :: closing :: rest) (['i', 'n', 't', '['] ++ (Nat.toDigits 10 n ++ [']'])) rest
  | generic {t less : Token} {mid closing rest : List Token} {args : List (Reading (List Char))} : t.type = .IDENTIFIER →
      less.type = .LESS → (∀ a ∈ args, Spells a.before a.value a.after) → Linked args mid closing → Closes closing rest →
      Spells (t :: less :: mid) (t.lexeme ++ '<' :: (join (args.map Reading.value) ++ ['>'])) rest
  | procedure {t opening : Token} {mid rest : List Token} {params : List (Reading (List Char))} : t.type = .FN →
      opening.type = .LEFT_PAREN → (∀ p ∈ params, Spells p.before p.value p.after) → Arguments params mid rest →
      ¬ Heads [.COLON] rest →
      Spells (t :: opening :: mid) (FUNC_PREFIX ++ (join (params.map Reading.value) ++ ')' :: ':' :: ['v', 'o', 'i', 'd'])) rest
  | function {t opening colon : Token} {mid after rest : List Token} {params : List (Reading (List Char))} {ret : List Char} :
      t.type = .FN → opening.type = .LEFT_PAREN → (∀ p ∈ params, Spells p.before p.value p.after) →
      Arguments params mid (colon :: after) → colon.type = .COLON → Spells after ret rest →
      Spells (t :: opening :: mid) (FUNC_PREFIX ++ (join (params.map Reading.value) ++ ')' :: ':' :: ret)) rest

/-- Type arguments, up to the bracket that closes them. -/
def Types (ts : List Token) (types : List (List Char)) (rest : List Token) : Prop :=
  ∃ args closing, (∀ a ∈ args, Spells a.before a.value a.after) ∧ Linked args ts closing ∧ Closes closing rest ∧
    types = args.map Reading.value

end Grammar

section Leaves

variable {ts rest : List Token} {name : List Char} {types : List (List Char)}

theorem Closes.leaves (h : Closes ts rest) (hts : parsing.Input ts) : parsing.Input rest ∧ rest.length ≤ ts.length := by
  rcases takes_closeTypeArguments ts hts le_rfl with ⟨u, rest', hread, hrest, hle⟩ | ⟨e, hread, -⟩
  · rw [h.read] at hread
    cases hread
    exact ⟨hrest, hle⟩
  · rw [h.read] at hread
    cases hread

theorem Names.not_eof {t : Token} (h : Names t name) : t.type ≠ .EOF := by
  rintro heof
  rcases h with hmem | ⟨ht, -⟩
  · rw [heof] at hmem
    simp [KEYWORD_TYPES] at hmem
  · rw [heof] at ht
    cases ht

theorem Spells.leaves (h : Spells ts name rest) (hts : parsing.Input ts) : parsing.Input rest ∧ rest.length < ts.length := by
  induction h with
  | name ht => exact ⟨parsing_tail hts ht.not_eof, Nat.lt_succ_self _⟩
  | frameArray ht ho hs _ hc =>
    have hafter := input_tail (input_tail (parsing_tail hts ht.not_eof) ho (by decide)) hs (by decide)
    exact ⟨input_tail hafter hc (by decide), by simp only [List.length_cons]; omega⟩
  | generic ht hl _ hlinked hcloses ih =>
    obtain ⟨hmid, hle⟩ := hlinked.leaves ih (input_tail (input_tail hts ht (by decide)) hl (by decide))
    obtain ⟨hrest, hle'⟩ := hcloses.leaves hmid
    exact ⟨hrest, by simp only [List.length_cons]; omega⟩
  | procedure ht ho _ harguments _ ih =>
    obtain ⟨hrest, hlt⟩ := harguments.leaves ih (input_tail (input_tail hts ht (by decide)) ho (by decide))
    exact ⟨hrest, by simp only [List.length_cons]; omega⟩
  | function ht ho _ harguments hc _ ih ihret =>
    obtain ⟨hmid, hlt⟩ := harguments.leaves ih (input_tail (input_tail hts ht (by decide)) ho (by decide))
    obtain ⟨hrest, hlt'⟩ := ihret (input_tail hmid hc (by decide))
    exact ⟨hrest, by simp only [List.length_cons] at hlt ⊢; omega⟩

theorem Types.leaves (h : Types ts types rest) (hts : parsing.Input ts) : parsing.Input rest ∧ rest.length ≤ ts.length := by
  obtain ⟨args, closing, hargs, hlinked, hcloses, -⟩ := h
  obtain ⟨hmid, hle⟩ := hlinked.leaves (fun a ha => (hargs a ha).leaves) hts
  obtain ⟨hrest, hle'⟩ := hcloses.leaves hmid
  exact ⟨hrest, by omega⟩

end Leaves

section Soundness

variable {n fuel : ℕ} {ts rest : List Token} {base name : List Char} {types : List (List Char)} {item : Parse (List Char)}

/-- The loop over types as the loop over arguments. -/
theorem typeList_ok_iff {r : List (List Char) × List Token} :
    (item >>= fun type => typeList item fuel (types ++ [type])) ts = .ok r ↔ loop .outOfFuel (commaTurn item) fuel types ts = .ok r := by
  induction fuel generalizing types ts with
  | zero =>
    refine ⟨fun h => ?_, fun h => by cases h⟩
    obtain ⟨type, mid, -, hlist⟩ := StateExcept.bind_ok.mp h
    cases hlist
  | succ fuel ih =>
    rw [loop, commaTurn]
    cases hitem : item ts with
    | error e =>
      rw [StateExcept.bind_error hitem, StateExcept.bind_error (StateExcept.bind_error hitem)]
    | ok p =>
      obtain ⟨type, mid⟩ := p
      rw [StateExcept.bind_eq hitem, bind_assoc, StateExcept.bind_eq hitem, typeList, bind_assoc]
      cases hmatch : matchToken .COMMA mid with
      | error e => rw [StateExcept.bind_error hmatch, StateExcept.bind_error hmatch]
      | ok q =>
        obtain ⟨more, mid'⟩ := q
        rw [StateExcept.bind_eq hmatch, StateExcept.bind_eq hmatch]
        cases more with
        | true => exact ih
        | false => exact Iff.rfl

theorem keywordType_inv {entries : List (TokenType × List Char)} {found : Option (List Char)}
    (h : keywordType entries ts = .ok (found, rest)) :
    (found = none ∧ rest = ts) ∨ ∃ t name, ts = t :: rest ∧ found = some name ∧ (t.type, name) ∈ entries := by
  induction entries with
  | nil =>
    cases h
    exact .inl ⟨rfl, rfl⟩
  | cons entry entries ih =>
    obtain ⟨type, word⟩ := entry
    obtain ⟨c, mid, hmatch, hrest⟩ := StateExcept.bind_ok.mp h
    cases c with
    | true =>
      cases hrest
      obtain ⟨t, rfl, ht⟩ := matchToken_true hmatch
      exact .inr ⟨t, word, rfl, rfl, ht ▸ List.mem_cons_self⟩
    | false =>
      obtain rfl := matchToken_false hmatch
      rcases ih hrest with hnone | ⟨t, name, heq, hname, hmem⟩
      · exact .inl hnone
      · exact .inr ⟨t, name, heq, hname, List.mem_cons_of_mem _ hmem⟩

theorem closes_of_read {u : Unit} (h : closeTypeArguments ts = .ok (u, rest)) : Closes ts rest := by
  cases ts with
  | nil => cases h
  | cons t ts =>
    cases hsplit : SPLIT_ON_CLOSE t.type with
    | some cut =>
      simp only [closeTypeArguments, hsplit] at h
      cases h
      exact .cut hsplit
    | none =>
      simp only [closeTypeArguments, hsplit] at h
      obtain ⟨t', mid, hconsume, hend⟩ := StateExcept.bind_ok.mp h
      cases hend
      obtain ⟨heq, ht⟩ := consume_inv hconsume
      cases heq
      exact .whole ht

/-- What follows a name of a type. -/
theorem arraySuffix_inv {t : Token} (ht : Names t base) (hless : ¬ (t.type = .IDENTIFIER ∧ Heads [.LESS] ts))
    (h : arraySuffix base ts = .ok (name, rest)) : Spells (t :: ts) name rest := by
  obtain ⟨sized, mid, hsized, hrest⟩ := StateExcept.bind_ok.mp h
  cases sized with
  | true =>
    have hint : base = ['i', 'n', 't'] ∧ matchToken .LEFT_BRACKET ts = .ok (true, mid) := by
      rw [matchLength] at hsized
      split at hsized
      · exact ⟨‹_›, hsized⟩
      · cases hsized
    obtain ⟨rfl, hmatch⟩ := hint
    obtain ⟨opening, rfl, hopening⟩ := matchToken_true hmatch
    obtain ⟨size, mid₁, hsize, hrest₁⟩ := StateExcept.bind_ok.mp hrest
    obtain ⟨closing, mid₂, hclosing, hrest₂⟩ := StateExcept.bind_ok.mp hrest₁
    obtain ⟨rfl, hnumber⟩ := consume_inv hsize
    obtain ⟨rfl, hbracket⟩ := consume_inv hclosing
    cases hliteral : size.literal with
    | none =>
      simp only [hliteral] at hrest₂
      cases hrest₂
    | some literal =>
      simp only [hliteral] at hrest₂
      cases literal with
      | int n =>
        cases hrest₂
        exact .frameArray ht hopening hnumber hliteral hbracket
      | _ => cases hrest₂
  | false =>
    have hsame : mid = ts := by
      rw [matchLength] at hsized
      split at hsized
      · exact matchToken_false hsized
      · cases hsized
        rfl
    obtain ⟨bracket, mid₁, hcheck, hrest₁⟩ := StateExcept.bind_ok.mp hrest
    obtain rfl := checkToken_same hcheck
    subst hsame
    cases bracket with
    | true =>
      obtain ⟨t', mid₂, -, hrest₂⟩ := StateExcept.bind_ok.mp hrest₁
      cases hrest₂
    | false =>
      cases hrest₁
      exact .name ht (checkToken_false (by decide) hcheck) hless

/-- On inputs of at most `n` tokens, what the parser reads is a type of the grammar. -/
def SoundType (n : ℕ) (item : Parse (List Char)) : Prop :=
  ∀ ts name rest, parsing.Input ts → ts.length ≤ n → item ts = .ok (name, rest) → Spells ts name rest

theorem ReadBy.spells (h : SoundType n item) {rs : List (Reading (List Char))} (hrs : ReadBy item n rs) :
    ∀ r ∈ rs, Spells r.before r.value r.after := fun r hr => h _ _ _ (hrs r hr).1 (hrs r hr).2.1 (hrs r hr).2.2

theorem typeArguments_sound (h : SoundType n item) (htakes : Takes parsing n 1 item) (hts : parsing.Input ts) (hlen : ts.length ≤ n)
    {r : List (List Char) × List Token} (hread : (item >>= fun type => typeList item fuel [type]) ts = .ok r) :
    ∃ args, (∀ a ∈ args, Spells a.before a.value a.after) ∧ Linked args ts r.2 ∧ r.1 = args.map Reading.value := by
  obtain ⟨args, hargs, hlinked, heq⟩ := linked_of_loop htakes hts hlen ((typeList_ok_iff : _ ↔ loop _ _ _ [] _ = _).mp hread)
  exact ⟨args, hargs.spells h, hlinked, heq⟩

theorem functionTypeName_sound (h : SoundType n item) (htakes : Takes parsing n 1 item) {t : Token} (ht : t.type = .FN)
    (hts : parsing.Input ts) (hlen : ts.length ≤ n) (hread : functionTypeName item fuel ts = .ok (name, rest)) :
    Spells (t :: ts) name rest := by
  obtain ⟨opening, mid, ho, hread⟩ := StateExcept.bind_ok.mp hread
  obtain ⟨params, mid₁, hparams, hread⟩ := StateExcept.bind_ok.mp hread
  obtain ⟨closing, mid₂, hc, hread⟩ := StateExcept.bind_ok.mp hread
  obtain ⟨ret, mid₃, hret, hend⟩ := StateExcept.bind_ok.mp hread
  cases hend
  obtain ⟨rfl, hopening⟩ := consume_inv ho
  obtain ⟨rfl, hclosing⟩ := consume_inv hc
  have hmid : parsing.Input mid := input_tail hts hopening (by decide)
  have hlen' : mid.length ≤ n := by simp only [List.length_cons] at hlen; omega
  obtain ⟨args, hargs, harguments, rfl⟩ : ∃ args, (∀ a ∈ args, Spells a.before a.value a.after) ∧ Arguments args mid mid₂ ∧
      params = args.map Reading.value := by
    obtain ⟨closes, mid', hcheck, hparams⟩ := StateExcept.bind_ok.mp hparams
    obtain rfl := checkToken_same hcheck
    cases closes with
    | true =>
      cases hparams
      exact ⟨[], fun r hr => absurd hr List.not_mem_nil, ⟨closing, hclosing, .inl ⟨rfl, rfl⟩⟩, rfl⟩
    | false =>
      obtain ⟨args, hargs, hlinked, heq⟩ := typeArguments_sound h htakes hmid hlen' hparams
      exact ⟨args, hargs, ⟨closing, hclosing, .inr hlinked⟩, heq⟩
  obtain ⟨hin, hlt⟩ := harguments.leaves (fun a ha => (hargs a ha).leaves) hmid
  obtain ⟨returns, mid₄, hmatch, hafter⟩ := StateExcept.bind_ok.mp hret
  cases returns with
  | true =>
    obtain ⟨colon, rfl, hcolon⟩ := matchToken_true hmatch
    exact .function ht hopening hargs harguments hcolon
      (h _ _ _ (input_tail hin hcolon (by decide)) (by simp only [List.length_cons] at hlt; omega) hafter)
  | false =>
    cases hafter
    obtain rfl := matchToken_false hmatch
    exact .procedure ht hopening hargs harguments (matchToken_not_heads (by decide) hmatch)

theorem parseTypeName_sound (n : ℕ) : SoundType n (parseTypeName n) := by
  induction n with
  | zero =>
    intro ts name rest _ _ h
    cases h
  | succ n ih =>
    intro ts name rest hts hlen h
    obtain ⟨fn, mid, hfn, hread⟩ := StateExcept.bind_ok.mp h
    cases fn with
    | true =>
      obtain ⟨t, rfl, ht⟩ := matchToken_true hfn
      exact functionTypeName_sound ih (takes_parseTypeName n) ht (input_tail hts ht (by decide)) (Nat.le_of_succ_le_succ hlen) hread
    | false =>
      obtain rfl := matchToken_false hfn
      obtain ⟨found, mid₁, hkeyword, hrest₁⟩ := StateExcept.bind_ok.mp hread
      rcases keywordType_inv hkeyword with ⟨rfl, rfl⟩ | ⟨t, word, rfl, rfl, hmem⟩
      · obtain ⟨t, mid₂, hconsume, hrest₂⟩ := StateExcept.bind_ok.mp hrest₁
        obtain ⟨rfl, ht⟩ := consume_inv hconsume
        obtain ⟨less, mid₃, hless, hrest₃⟩ := StateExcept.bind_ok.mp hrest₂
        have hmid := input_tail hts ht (by decide)
        cases less with
        | true =>
          obtain ⟨less, rfl, hl⟩ := matchToken_true hless
          obtain ⟨type, mid₄, htype, hrest₄⟩ := StateExcept.bind_ok.mp hrest₃
          obtain ⟨types, mid₅, hlist, hrest₅⟩ := StateExcept.bind_ok.mp hrest₄
          obtain ⟨u, mid₆, hclose, hend⟩ := StateExcept.bind_ok.mp hrest₅
          cases hend
          obtain ⟨args, hargs, hlinked, rfl⟩ := typeArguments_sound ih (takes_parseTypeName n) (input_tail hmid hl (by decide))
            (by simp only [List.length_cons] at hlen; omega) (StateExcept.bind_ok.mpr ⟨_, _, htype, hlist⟩)
          exact .generic ht hl hargs hlinked (closes_of_read hclose)
        | false =>
          obtain rfl := matchToken_false hless
          exact arraySuffix_inv (.inr ⟨ht, rfl⟩) (fun hboth => matchToken_not_heads (by decide) hless hboth.2) hrest₃
      · refine arraySuffix_inv (.inl hmem) (fun hboth => ?_) hrest₁
        rw [hboth.1] at hmem
        simp [KEYWORD_TYPES] at hmem

end Soundness

section Completeness

variable {n fuel : ℕ} {ts rest : List Token} {base name : List Char} {types : List (List Char)} {item : Parse (List Char)}

theorem arraySuffix_reads (hts : parsing.Input ts) (h : ¬ Heads [.LEFT_BRACKET] ts) : arraySuffix base ts = .ok (base, ts) := by
  have hsized : matchLength base ts = .ok (false, ts) := by
    rw [matchLength]
    split
    · exact matchToken_miss hts h
    · rfl
  rw [arraySuffix, StateExcept.bind_eq hsized, if_neg Bool.false_ne_true, StateExcept.bind_eq (checkToken_miss hts h)]
  rfl

/-- A type inside another is read as it is spelled. -/
def ReadsSpelled (n : ℕ) (item : Parse (List Char)) (r : Reading (List Char)) : Prop :=
  Spells r.before r.value r.after ∧ (parsing.Input r.before → r.before.length ≤ n → item r.before = .ok (r.value, r.after))

theorem ReadsSpelled.reads {r : Reading (List Char)} (h : ReadsSpelled n item r) : Reads (fun _ => True) n item r :=
  fun hts hlen => ⟨fun _ => h.2 hts hlen, h.1.leaves hts⟩

theorem Spells.starts (h : Spells ts name rest) : ¬ Heads [.RIGHT_PAREN] ts := by
  rintro ⟨u, us, rfl, hu⟩
  have hu : u.type = .RIGHT_PAREN := List.mem_singleton.mp hu
  have hnames : ∀ {name : List Char}, ¬ Names u name := by
    rintro name (hmem | ⟨ht, -⟩)
    · rw [hu] at hmem
      simp [KEYWORD_TYPES] at hmem
    · rw [hu] at ht
      cases ht
  cases h with
  | name ht => exact hnames ht
  | frameArray ht => exact hnames ht
  | generic ht => rw [hu] at ht; cases ht
  | procedure ht => rw [hu] at ht; cases ht
  | function ht => rw [hu] at ht; cases ht

theorem typeArguments_reads {args : List (Reading (List Char))} (hargs : ∀ a ∈ args, ReadsSpelled n item a)
    (h : Linked args ts rest) (hts : parsing.Input ts) (hlen : ts.length ≤ n) (hfuel : n ≤ fuel) (hno : ¬ Heads [.COMMA] rest) :
    (item >>= fun type => typeList item fuel [type]) ts = .ok (args.map Reading.value, rest) := by
  obtain ⟨-, hcount⟩ := h.leaves (fun a ha => (hargs a ha).1.leaves) hts
  refine (typeList_ok_iff : _ ↔ loop _ _ _ [] _ = _).mpr ?_
  exact commaLoop_reads (fun _ _ _ => trivial) (fun a ha => (hargs a ha).reads) h hts hlen trivial hno (by omega)

theorem paramTypes_reads {params : List (Reading (List Char))} (hparams : ∀ p ∈ params, ReadsSpelled n item p)
    (h : Arguments params ts rest) (hts : parsing.Input ts) (hlen : ts.length ≤ n) (hfuel : n ≤ fuel) :
    ∃ closing, closing.type = .RIGHT_PAREN ∧ paramTypes item fuel ts = .ok (params.map Reading.value, closing :: rest) := by
  obtain ⟨closing, hc, ⟨rfl, rfl⟩ | hlinked⟩ := h
  · refine ⟨closing, hc, ?_⟩
    rw [paramTypes, StateExcept.bind_eq (checkToken_hit hc (by decide))]
    rfl
  · obtain ⟨first, hfirst, hbefore⟩ := hlinked.first
    have hopen : ¬ Heads [.RIGHT_PAREN] ts := hbefore ▸ (hparams first hfirst).1.starts
    refine ⟨closing, hc, ?_⟩
    rw [paramTypes, StateExcept.bind_eq (checkToken_miss hts hopen), if_neg Bool.false_ne_true]
    refine typeArguments_reads hparams hlinked hts hlen hfuel ?_
    rintro ⟨u, us, heq, hu⟩
    cases heq
    rw [hc] at hu
    exact absurd hu (by decide)

theorem functionTypeName_reads {opening : Token} {mid after : List Token} {params : List (Reading (List Char))} {ret : List Char}
    (ho : opening.type = .LEFT_PAREN) (hparams : ∀ p ∈ params, ReadsSpelled n item p) (h : Arguments params mid after)
    (hmid : parsing.Input mid) (hlen : mid.length ≤ n) (hfuel : n ≤ fuel) (hret : returnType item after = .ok (ret, rest)) :
    functionTypeName item fuel (opening :: mid) =
      .ok (FUNC_PREFIX ++ (join (params.map Reading.value) ++ ')' :: ':' :: ret), rest) := by
  obtain ⟨closing, hc, hread⟩ := paramTypes_reads hparams h hmid hlen hfuel
  rw [functionTypeName, StateExcept.bind_eq (consume_ok ho (by decide) mid), StateExcept.bind_eq hread,
    StateExcept.bind_eq (consume_ok hc (by decide) after), StateExcept.bind_eq hret]
  rfl

theorem Closes.not_comma (h : Closes ts rest) : ¬ Heads [.COMMA] ts := by
  rintro ⟨u, us, rfl, hu⟩
  have hu : u.type = .COMMA := List.mem_singleton.mp hu
  cases h with
  | whole ht => rw [hu] at ht; cases ht
  | cut hsplit => rw [hu] at hsplit; cases hsplit

theorem Spells.reads (h : Spells ts name rest) (hts : parsing.Input ts) {fuel : ℕ} (hfuel : ts.length ≤ fuel) :
    parseTypeName fuel ts = .ok (name, rest) := by
  induction h generalizing fuel with
  | @name t name rest ht hbracket hless =>
    obtain ⟨fuel, rfl⟩ : ∃ fuel', fuel = fuel' + 1 := ⟨fuel - 1, by simp only [List.length_cons] at hfuel; omega⟩
    have hrest := parsing_tail hts ht.not_eof
    rcases ht with hmem | ⟨ht, rfl⟩
    · rw [parseTypeName_keyword hmem]
      exact arraySuffix_reads hrest hbracket
    · rw [parseTypeName_ident ht, StateExcept.bind_eq (matchToken_miss hrest fun hl => hless ⟨ht, hl⟩), if_neg Bool.false_ne_true]
      exact arraySuffix_reads hrest hbracket
  | @frameArray t opening size closing n rest ht ho hs hliteral hc =>
    obtain ⟨fuel, rfl⟩ : ∃ fuel', fuel = fuel' + 1 := ⟨fuel - 1, by simp only [List.length_cons] at hfuel; omega⟩
    have hread := arraySuffix_sized ho hs hliteral hc rest
    rw [TypeName.letters_frameArray] at hread
    rcases ht with hmem | ⟨ht, hint⟩
    · rw [parseTypeName_keyword hmem]
      exact hread
    · rw [parseTypeName_ident ht, StateExcept.bind_eq (matchToken_no (by rw [ho]; decide) _), if_neg Bool.false_ne_true, ← hint]
      exact hread
  | @generic t less mid closing rest args ht hl hargs hlinked hcloses ih =>
    obtain ⟨fuel, rfl⟩ : ∃ fuel', fuel = fuel' + 1 := ⟨fuel - 1, by simp only [List.length_cons] at hfuel; omega⟩
    have hmid := input_tail (input_tail hts ht (by decide)) hl (by decide)
    have hlist := typeArguments_reads (fun a ha => (⟨hargs a ha, fun hin hlen => ih a ha hin hlen⟩ : ReadsSpelled fuel (parseTypeName fuel) a)) hlinked hmid
      (by simp only [List.length_cons] at hfuel; omega) le_rfl hcloses.not_comma
    obtain ⟨type, mid₁, htype, hlist⟩ := StateExcept.bind_ok.mp hlist
    rw [parseTypeName_ident ht, StateExcept.bind_eq (matchToken_ok hl (by decide) mid), if_pos rfl, typeArguments,
      StateExcept.bind_eq htype, StateExcept.bind_eq hlist, StateExcept.bind_eq hcloses.read]
    rfl
  | @procedure t opening mid rest params ht ho hparams harguments hcolon ih =>
    obtain ⟨fuel, rfl⟩ : ∃ fuel', fuel = fuel' + 1 := ⟨fuel - 1, by simp only [List.length_cons] at hfuel; omega⟩
    have hmid := input_tail (input_tail hts ht (by decide)) ho (by decide)
    obtain ⟨hrest, -⟩ := harguments.leaves (fun p hp => (hparams p hp).leaves) hmid
    rw [parseTypeName_fn ht]
    refine functionTypeName_reads (n := fuel) ho (fun p hp => ⟨hparams p hp, fun hin hlen => ih p hp hin hlen⟩) harguments hmid
      (by simp only [List.length_cons] at hfuel; omega) le_rfl ?_
    rw [returnType, StateExcept.bind_eq (matchToken_miss hrest hcolon)]
    rfl
  | @function t opening colon mid after rest params ret ht ho hparams harguments hc hret ih ihret =>
    obtain ⟨fuel, rfl⟩ : ∃ fuel', fuel = fuel' + 1 := ⟨fuel - 1, by simp only [List.length_cons] at hfuel; omega⟩
    have hmid := input_tail (input_tail hts ht (by decide)) ho (by decide)
    obtain ⟨hafter, hlt⟩ := harguments.leaves (fun p hp => (hparams p hp).leaves) hmid
    rw [parseTypeName_fn ht]
    refine functionTypeName_reads (n := fuel) ho (fun p hp => ⟨hparams p hp, fun hin hlen => ih p hp hin hlen⟩) harguments hmid
      (by simp only [List.length_cons] at hfuel; omega) le_rfl ?_
    rw [returnType, StateExcept.bind_eq (matchToken_ok hc (by decide) after), if_pos rfl]
    exact ihret (input_tail hafter hc (by decide)) (by simp only [List.length_cons] at hfuel hlt; omega)

/-- The parser reads a type just if the grammar has it, and spells it so. -/
theorem parseTypeName_exact (hts : parsing.Input ts) (hfuel : ts.length ≤ fuel) :
    parseTypeName fuel ts = .ok (name, rest) ↔ Spells ts name rest :=
  ⟨parseTypeName_sound fuel ts name rest hts hfuel, fun h => h.reads hts hfuel⟩

/-- The type arguments that `turbofish` reads. -/
def writtenTypes (fuel : ℕ) : Parse (List (List Char)) := do
  let type ← parseTypeName fuel
  let types ← typeList (parseTypeName fuel) fuel [type]
  closeTypeArguments
  return types

theorem writtenTypes_exact (hts : parsing.Input ts) (hfuel : ts.length ≤ fuel) :
    writtenTypes fuel ts = .ok (types, rest) ↔ Types ts types rest := by
  constructor
  · intro h
    obtain ⟨type, mid, htype, h₁⟩ := StateExcept.bind_ok.mp h
    obtain ⟨types', closing, hlist, h₂⟩ := StateExcept.bind_ok.mp h₁
    obtain ⟨u, rest', hclose, hend⟩ := StateExcept.bind_ok.mp h₂
    cases hend
    obtain ⟨args, hargs, hlinked, rfl⟩ := typeArguments_sound (parseTypeName_sound fuel) (takes_parseTypeName fuel) hts hfuel
      (StateExcept.bind_ok.mpr ⟨_, _, htype, hlist⟩)
    exact ⟨args, closing, hargs, hlinked, closes_of_read hclose, rfl⟩
  · rintro ⟨args, closing, hargs, hlinked, hcloses, rfl⟩
    have hread := typeArguments_reads (fun a ha => ⟨hargs a ha, fun hin hlen => (hargs a ha).reads hin hlen⟩) hlinked hts hfuel
      le_rfl hcloses.not_comma
    obtain ⟨type, mid, htype, hlist⟩ := StateExcept.bind_ok.mp hread
    rw [writtenTypes, StateExcept.bind_eq htype, StateExcept.bind_eq hlist, StateExcept.bind_eq hcloses.read]
    rfl

end Completeness

end Parser

end QuinLang
