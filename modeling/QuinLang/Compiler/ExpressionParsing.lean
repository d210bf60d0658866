import QuinLang.Compiler.ExpressionGrammar
import QuinLang.Compiler.TypeSpelling

/-! What the grammar of expressions derives, the parser reads, where the next token cannot go
on an expression; so the grammar is unambiguous. -/

namespace QuinLang

namespace Parser

open Consuming (loop Takes)

section Stopping

/-- What may follow an expression of level 0. -/
def suffixes : List TokenType := [.LEFT_BRACKET, .DOT, .LEFT_PAREN, .COLON_COLON, .LEFT_BRACE]

/-- What may go on an expression of a level. -/
def goesOn : ℕ → List TokenType
  | 0 | 1 => suffixes
  | k + 2 => operators k ++ goesOn (k + 1)

def Stops (k : ℕ) (ts : List Token) : Prop := ∃ t rest, ts = t :: rest ∧ t.type ∉ goesOn k

/-- No brace, and no `::` but of type arguments, follows a name that is whole. -/
def Plain (ts : List Token) : Prop :=
  ∃ t rest, ts = t :: rest ∧ t.type ≠ .LEFT_BRACE ∧ (t.type = .COLON_COLON → Heads [.LESS] rest)

variable {k : ℕ} {ts rest : List Token} {t : Token}

theorem Stops.below (h : Stops (k + 1) ts) : Stops k ts := by
  obtain ⟨t, rest, rfl, ht⟩ := h
  refine ⟨t, rest, rfl, ?_⟩
  cases k with
  | zero => exact ht
  | succ k => exact fun hmem => ht (List.mem_append_right _ hmem)

theorem Stops.suffix (h : Stops k ts) : Stops 0 ts := by
  induction k with
  | zero => exact h
  | succ k ih => exact ih h.below

theorem Stops.plain (h : Stops 0 ts) : Plain ts := by
  obtain ⟨t, rest, rfl, ht⟩ := h
  refine ⟨t, rest, rfl, fun hbrace => ht ?_, fun hcolons => absurd ?_ ht⟩
  · rw [hbrace]
    decide
  · rw [hcolons]
    decide

theorem plain_of (hbrace : t.type ≠ .LEFT_BRACE) (hcolons : t.type ≠ .COLON_COLON) : Plain (t :: rest) :=
  ⟨t, rest, rfl, hbrace, fun h => absurd h hcolons⟩

theorem operators_of_le (hk : 10 ≤ k) : operators k = [] := List.getD_eq_default _ _ (by simpa [levels] using hk)

theorem stops_operator (h : t.type ∈ operators k) : Stops (k + 1) (t :: rest) := by
  have hlevels : ∀ k < 10, ∀ type ∈ operators k, type ∉ goesOn (k + 1) := by decide
  refine ⟨t, rest, rfl, ?_⟩
  rcases Nat.lt_or_ge k 10 with hlt | hge
  · exact hlevels k hlt _ h
  · rw [operators_of_le hge] at h
    cases h

/-- What may come after an expression inside another. -/
theorem stops_closing (h : t.type ∈ [.RIGHT_PAREN, .RIGHT_BRACKET, .RIGHT_BRACE, .COMMA]) : Stops top (t :: rest) := by
  have hclosing : ∀ type ∈ [TokenType.RIGHT_PAREN, .RIGHT_BRACKET, .RIGHT_BRACE, .COMMA], type ∉ goesOn top := by decide
  exact ⟨t, rest, rfl, hclosing _ h⟩

end Stopping

section Starting

variable {k : ℕ} {ts rest : List Token} {e : Expr}

def atoms : List TokenType := [.FALSE, .TRUE, .NULL, .NUMBER, .FLOAT_NUMBER, .STRING, .IDENTIFIER, .LEFT_PAREN]

/-- What an expression of a level may start with. -/
def starts : ℕ → List TokenType
  | 0 => atoms
  | _ + 1 => atoms ++ [.AT, .BANG, .MINUS, .TILDE]

theorem literalOf_atom {t : Token} {value : Value} (h : literalOf t = some value) : t.type ∈ atoms := by
  obtain ⟨type, lexeme, line, col, literal⟩ := t
  cases type <;> cases h <;> simp [atoms]

theorem Derives.starts (h : Derives k ts e rest) : Heads (starts k) ts := by
  induction h with
  | literal hvalue => exact ⟨_, _, rfl, literalOf_atom hvalue⟩
  | name ht => exact ⟨_, _, rfl, by rw [ht]; decide⟩
  | qualified ht _ _ _ => exact ⟨_, _, rfl, by rw [ht]; decide⟩
  | parens ho _ _ _ => exact ⟨_, _, rfl, by rw [ho]; decide⟩
  | structLit ht _ _ _ => exact ⟨_, _, rfl, by rw [ht]; decide⟩
  | index _ _ _ _ ih _ => exact ih
  | field _ _ _ ih => exact ih
  | call _ _ _ _ ih _ => exact ih
  | method _ _ _ _ ih _ => exact ih
  | genericCall _ _ _ _ _ _ _ ih _ => exact ih
  | genericLit _ _ _ _ _ _ ih _ => exact ih
  | addressOf ht _ _ => exact ⟨_, _, rfl, by rw [ht]; decide⟩
  | unary ht _ _ => exact ⟨_, _, rfl, List.mem_append_right _ (List.mem_cons_of_mem _ ht)⟩
  | binary _ _ _ ih _ => exact ih
  | @tighter k _ _ _ _ ih =>
    obtain ⟨t, ts', rfl, ht⟩ := ih
    refine ⟨t, ts', rfl, ?_⟩
    cases k with
    | zero => exact List.mem_append_left _ ht
    | succ k => exact ht

theorem Derives.not_starts (h : Derives k ts e rest) {type : TokenType} (htype : type ∉ Parser.starts 1) : ¬ Heads [type] ts := by
  rintro ⟨u, us, rfl, hu⟩
  obtain ⟨t, ts', heq, ht⟩ := h.starts
  cases heq
  have hu : u.type = type := List.mem_singleton.mp hu
  refine htype (hu ▸ ?_)
  cases k with
  | zero => exact List.mem_append_left _ ht
  | succ k => exact ht

end Starting

section Cursor

variable {type : TokenType} {types : List TokenType} {ts rest : List Token} {t : Token}

theorem matchAny_hit (ht : t.type ∈ types) (hne : .EOF ∉ types) : matchAny types (t :: rest) = .ok (some t, rest) :=
  if_pos ⟨not_eof_of_mem ht hne, ht⟩

theorem matchAny_miss (ht : t.type ∉ types) : matchAny types (t :: rest) = .ok (none, t :: rest) := if_neg fun h => ht h.2

end Cursor

section Lists

variable {α : Type} {item : Parse α} {n fuel : ℕ} {rs : List (Reading α)} {ts after : List Token} {xs : List α}

theorem bracedLoop_reads (hrs : ∀ r ∈ rs, Reads (Stops top) n item r) (hstarts : ∀ r ∈ rs, ¬ Heads [.RIGHT_BRACE] r.before)
    (h : Braced rs ts after) (hts : parsing.Input ts) (hlen : ts.length ≤ n) (hafter : Heads [.RIGHT_BRACE] after)
    (hfuel : rs.length < fuel) :
    loop .outOfFuel (bracedTurn item) fuel xs ts = .ok (xs ++ rs.map Reading.value, after) := by
  have hcloses : ∀ {fuel : ℕ} {xs : List α}, 0 < fuel → loop .outOfFuel (bracedTurn item) fuel xs after = .ok (xs, after) := by
    intro fuel xs hpos
    obtain ⟨fuel, rfl⟩ : ∃ fuel', fuel = fuel' + 1 := ⟨fuel - 1, by omega⟩
    obtain ⟨t, rest, rfl, ht⟩ := hafter
    refine loop_ends ?_
    rw [bracedTurn, StateExcept.bind_eq (checkToken_hit (List.mem_singleton.mp ht) (by decide))]
    rfl
  induction h generalizing fuel xs with
  | nil => simpa using hcloses (by omega)
  | last r =>
    obtain ⟨fuel, rfl⟩ : ∃ fuel', fuel = fuel' + 1 := ⟨fuel - 1, by omega⟩
    obtain ⟨hread, -, -⟩ := hrs r (List.mem_singleton_self r) hts hlen
    obtain ⟨t, rest, heq, ht⟩ := hafter
    have ht : t.type = .RIGHT_BRACE := List.mem_singleton.mp ht
    have hstop : Stops top r.after := heq ▸ stops_closing (by rw [ht]; decide)
    have hmatch : matchToken .COMMA r.after = .ok (false, r.after) := by
      rw [heq]
      exact matchToken_no (by rw [ht]; decide) rest
    refine loop_ends ?_
    rw [bracedTurn, StateExcept.bind_eq (checkToken_miss hts (hstarts r (List.mem_singleton_self r))), commaTurn]
    rw [if_neg Bool.false_ne_true, StateExcept.bind_eq (hread hstop), StateExcept.bind_eq hmatch]
    rfl
  | @comma r rs c mid rest hcomma hc hmore ih =>
    obtain ⟨fuel, rfl⟩ : ∃ fuel', fuel = fuel' + 1 := ⟨fuel - 1, by omega⟩
    obtain ⟨hread, hin, hlt⟩ := hrs r List.mem_cons_self hts hlen
    rw [hcomma] at hread hin hlt
    have hturn : bracedTurn item xs r.before = .ok (.inl (xs ++ [r.value]), mid) := by
      rw [bracedTurn, StateExcept.bind_eq (checkToken_miss hts (hstarts r List.mem_cons_self)), commaTurn]
      rw [if_neg Bool.false_ne_true, StateExcept.bind_eq (hread (stops_closing (by rw [hc]; decide))),
        StateExcept.bind_eq (matchToken_ok hc (by decide) mid)]
      rfl
    rw [loop_goes hturn, ih (fun s hs => hrs s (List.mem_cons_of_mem _ hs)) (fun s hs => hstarts s (List.mem_cons_of_mem _ hs))
      (input_tail hin hc (by decide)) (by simp only [List.length_cons] at hlt; omega) hafter
      (by simp only [List.length_cons] at hfuel; omega) hcloses]
    simp

end Lists

section Turns

variable {n fuel : ℕ} {E : Parse Expr} {ts mid rest : List Token} {t : Token} {e : Expr}

/-- An expression inside another: it is derived, and read where it stops. -/
def Inner (n : ℕ) (E : Parse Expr) (r : Reading Expr) : Prop :=
  Derives top r.before r.value r.after ∧
    (parsing.Input r.before → r.before.length ≤ n → Stops top r.after → E r.before = .ok (r.value, r.after))

theorem Inner.reads {r : Reading Expr} (h : Inner n E r) : Reads (Stops top) n E r := fun hts hlen => ⟨h.2 hts hlen, h.1.leaves hts⟩

theorem callArguments_reads {args : List (Reading Expr)} (hargs : ∀ a ∈ args, Inner n E a) (h : Arguments args ts rest)
    (hts : parsing.Input ts) (hlen : ts.length ≤ n) (hfuel : n ≤ fuel) :
    callArguments fuel E ts = .ok (args.map Reading.value, rest) := by
  obtain ⟨closing, hc, ⟨rfl, rfl⟩ | hlinked⟩ := h
  · have hnone : arguments fuel E (closing :: rest) = .ok ([], closing :: rest) := by
      rw [arguments, StateExcept.bind_eq (checkToken_hit hc (by decide))]
      rfl
    rw [callArguments, StateExcept.bind_eq hnone, StateExcept.bind_eq (consume_ok hc (by decide) rest)]
    rfl
  · obtain ⟨first, hfirst, hbefore⟩ := hlinked.first
    have hopen : ¬ Heads [.RIGHT_PAREN] ts := hbefore ▸ (hargs first hfirst).1.not_starts (by decide)
    obtain ⟨-, hcount⟩ := hlinked.leaves (fun r hr => (hargs r hr).1.leaves) hts
    have hsome : arguments fuel E ts = .ok (args.map Reading.value, closing :: rest) := by
      rw [arguments, StateExcept.bind_eq (checkToken_miss hts hopen), if_neg Bool.false_ne_true, commaList,
        commaLoop_reads (fun c mid hcomma => stops_closing (by rw [hcomma]; decide)) (fun r hr => (hargs r hr).reads) hlinked hts hlen
          (stops_closing (by rw [hc]; decide)) ?_ (by omega)]
      · rfl
      · rintro ⟨u, us, heq, hu⟩
        cases heq
        rw [hc] at hu
        exact absurd hu (by decide)
    rw [callArguments, StateExcept.bind_eq hsome, StateExcept.bind_eq (consume_ok hc (by decide) rest)]
    rfl

theorem fieldInit_reads {f : Field} (hname : f.name.type = .IDENTIFIER) (hcolon : f.colon.type = .COLON) (h : Inner n E f.value) :
    Reads (Stops top) n (fieldInit E) f.reading := by
  intro hts hlen
  have hin : parsing.Input f.value.before := input_tail (input_tail hts hname (by decide)) hcolon (by decide)
  have hlen' : f.value.before.length ≤ n := by
    simp only [Field.reading, List.length_cons] at hlen
    omega
  obtain ⟨hafter, hlt⟩ := h.1.leaves hin
  refine ⟨fun hstop => ?_, hafter, by simp only [Field.reading, List.length_cons]; omega⟩
  have hvalue := h.2 hin hlen' hstop
  rw [fieldInit, Field.reading, StateExcept.bind_eq (consume_ok hname (by decide) _),
    StateExcept.bind_eq (consume_ok hcolon (by decide) _), StateExcept.bind_eq hvalue]
  rfl

theorem structLiteral_reads {fields : List Field} (hfields : ∀ f ∈ fields, Inner n E f.value) (h : Fields fields ts rest)
    (hts : parsing.Input ts) (hlen : ts.length ≤ n) (hfuel : n ≤ fuel) (name : List Char) (pos : At) :
    structLiteral fuel E name pos ts = .ok (.structLit pos name (Fields.inits fields), rest) := by
  obtain ⟨opening, mid, closing, rfl, ho, hc, hnames, hbraced⟩ := h
  have hin : parsing.Input mid := input_tail hts ho (by decide)
  have hlen' : mid.length < n := by simp only [List.length_cons] at hlen; omega
  have hreads : ∀ r ∈ fields.map Field.reading, Reads (Stops top) n (fieldInit E) r := by
    intro r hr
    obtain ⟨f, hf, rfl⟩ := List.mem_map.mp hr
    exact fieldInit_reads (hnames f hf).1 (hnames f hf).2 (hfields f hf)
  have hstarts : ∀ r ∈ fields.map Field.reading, ¬ Heads [.RIGHT_BRACE] r.before := by
    intro r hr
    obtain ⟨f, hf, rfl⟩ := List.mem_map.mp hr
    rintro ⟨u, us, heq, hu⟩
    cases heq
    rw [(hnames f hf).1] at hu
    exact absurd hu (by decide)
  have hleaves : ∀ r ∈ fields.map Field.reading, parsing.Input r.before →
      parsing.Input r.after ∧ r.after.length < r.before.length := by
    intro r hr hin
    obtain ⟨f, hf, rfl⟩ := List.mem_map.mp hr
    obtain ⟨hafter, hlt⟩ := (hfields f hf).1.leaves
      (input_tail (input_tail hin (hnames f hf).1 (by decide)) (hnames f hf).2 (by decide))
    exact ⟨hafter, by simp only [Field.reading, List.length_cons]; omega⟩
  obtain ⟨-, hcount⟩ := hbraced.leaves hleaves hin
  have hlist : bracedList fuel (fieldInit E) mid = .ok (Fields.inits fields, closing :: rest) := by
    rw [bracedList, bracedLoop_reads hreads hstarts hbraced hin hlen'.le ⟨closing, rest, rfl, by rw [hc]; decide⟩ (by omega)]
    simp [Fields.inits]
  rw [structLiteral, StateExcept.bind_eq (consume_ok ho (by decide) mid), StateExcept.bind_eq hlist,
    StateExcept.bind_eq (consume_ok hc (by decide) rest)]
  rfl

theorem callSuffix_suffix (hp : t.type ≠ .LEFT_PAREN) (callee : List Char) (receiver : Option Expr) :
    callSuffix fuel E e callee receiver (t :: mid) = suffix E e (t :: mid) := by
  rw [callSuffix, StateExcept.bind_eq (matchAny_miss (fun h => hp (List.mem_singleton.mp h)))]

theorem callTurn_suffix (hp : t.type ≠ .LEFT_PAREN) (hc : t.type ≠ .COLON_COLON) :
    callTurn fuel E e (t :: mid) = suffix E e (t :: mid) := by
  cases e with
  | identifier pos name =>
    rw [callTurn, StateExcept.bind_eq (matchToken_no hc mid), if_neg Bool.false_ne_true, callSuffix_suffix hp]
  | fieldAccess pos obj field => rw [callTurn, callSuffix_suffix hp]
  | _ => rfl

theorem callTurn_ends (h : Stops 0 ts) : callTurn fuel E e ts = .ok (.inr e, ts) := by
  obtain ⟨t, rest, rfl, ht⟩ := h
  have hne : ∀ type ∈ suffixes, t.type ≠ type := fun type hmem heq => ht (heq ▸ hmem)
  rw [callTurn_suffix (hne _ (by decide)) (hne _ (by decide)), suffix,
    StateExcept.bind_eq (matchAny_miss (fun h => hne .LEFT_BRACKET (by decide) (List.mem_singleton.mp h)))]
  dsimp only
  rw [StateExcept.bind_eq (matchToken_no (hne .DOT (by decide)) rest)]
  rfl

theorem callTurn_index {i : Expr} {closing : Token} (ht : t.type = .LEFT_BRACKET) (hi : E mid = .ok (i, closing :: rest))
    (hc : closing.type = .RIGHT_BRACKET) : callTurn fuel E e (t :: mid) = .ok (.inl (.index (posOf t) e i), rest) := by
  rw [callTurn_suffix (by rw [ht]; decide) (by rw [ht]; decide), suffix,
    StateExcept.bind_eq (matchAny_hit (List.mem_singleton.mpr ht) (by decide))]
  dsimp only
  rw [StateExcept.bind_eq hi, StateExcept.bind_eq (consume_ok hc (by decide) rest)]
  rfl

theorem callTurn_field {f : Token} (ht : t.type = .DOT) (hf : f.type = .IDENTIFIER) :
    callTurn fuel E e (t :: f :: rest) = .ok (.inl (.fieldAccess (posOf f) e f.lexeme), rest) := by
  rw [callTurn_suffix (by rw [ht]; decide) (by rw [ht]; decide), suffix,
    StateExcept.bind_eq (matchAny_miss (by rw [ht]; decide))]
  dsimp only
  rw [StateExcept.bind_eq (matchToken_ok ht (by decide) _), if_pos rfl, StateExcept.bind_eq (consume_ok hf (by decide) rest)]
  rfl

theorem callSuffix_call {args : List Expr} (ht : t.type = .LEFT_PAREN) (hargs : callArguments fuel E mid = .ok (args, rest))
    (callee : List Char) (receiver : Option Expr) :
    callSuffix fuel E e callee receiver (t :: mid) = .ok (.inl (.call (posOf t) callee args receiver []), rest) := by
  rw [callSuffix, StateExcept.bind_eq (matchAny_hit (List.mem_singleton.mpr ht) (by decide))]
  dsimp only
  rw [StateExcept.bind_eq hargs]
  rfl

theorem callTurn_call {args : List Expr} {pos : At} {name : List Char} (ht : t.type = .LEFT_PAREN)
    (hargs : callArguments fuel E mid = .ok (args, rest)) :
    callTurn fuel E (.identifier pos name) (t :: mid) = .ok (.inl (.call (posOf t) name args none []), rest) := by
  rw [callTurn, StateExcept.bind_eq (matchToken_no (by rw [ht]; decide) mid), if_neg Bool.false_ne_true,
    callSuffix_call ht hargs]

theorem callTurn_method {args : List Expr} {pos : At} {obj : Expr} {field : List Char} (ht : t.type = .LEFT_PAREN)
    (hargs : callArguments fuel E mid = .ok (args, rest)) : callTurn fuel E (.fieldAccess pos obj field) (t :: mid) =
      .ok (.inl (.call (posOf t) field args (some (.fieldAccess pos obj field)) []), rest) := by
  rw [callTurn, callSuffix_call ht hargs]

/-- Type arguments are read before what they are arguments of. -/
theorem turbofish_call {less paren : Token} {types : List (List Char)} {after : List Token} {pos : At} {name : List Char}
    {args : List Expr} (hless : less.type = .LESS) (htypes : writtenTypes fuel mid = .ok (types, paren :: after))
    (hp : paren.type = .LEFT_PAREN) (hargs : callArguments fuel E after = .ok (args, rest)) :
    turbofish fuel E pos name (less :: mid) = .ok (.call (posOf paren) name args none types, rest) := by
  have hbrace : checkToken .LEFT_BRACE (paren :: after) = .ok (false, paren :: after) := by
    rw [checkToken, hp]
    rfl
  obtain ⟨type, mid₁, htype, h₁⟩ := StateExcept.bind_ok.mp htypes
  obtain ⟨types', mid₂, hlist, h₂⟩ := StateExcept.bind_ok.mp h₁
  obtain ⟨u, mid₃, hclose, hend⟩ := StateExcept.bind_ok.mp h₂
  cases hend
  rw [turbofish, StateExcept.bind_eq (consume_ok hless (by decide) mid), StateExcept.bind_eq htype, StateExcept.bind_eq hlist,
    StateExcept.bind_eq hclose, StateExcept.bind_eq hbrace, if_neg Bool.false_ne_true,
    StateExcept.bind_eq (consume_ok hp (by decide) after), StateExcept.bind_eq hargs]
  rfl

theorem turbofish_lit {less : Token} {types : List (List Char)} {after : List Token} {pos : At} {name : List Char}
    (hless : less.type = .LESS) (htypes : writtenTypes fuel mid = .ok (types, after)) (hb : Heads [.LEFT_BRACE] after)
    (hlit : structLiteral fuel E (name ++ '<' :: (join types ++ ['>'])) pos after = .ok (e, rest)) :
    turbofish fuel E pos name (less :: mid) = .ok (e, rest) := by
  obtain ⟨opening, after', rfl, ho⟩ := hb
  obtain ⟨type, mid₁, htype, h₁⟩ := StateExcept.bind_ok.mp htypes
  obtain ⟨types', mid₂, hlist, h₂⟩ := StateExcept.bind_ok.mp h₁
  obtain ⟨u, mid₃, hclose, hend⟩ := StateExcept.bind_ok.mp h₂
  cases hend
  rw [turbofish, StateExcept.bind_eq (consume_ok hless (by decide) mid), StateExcept.bind_eq htype, StateExcept.bind_eq hlist,
    StateExcept.bind_eq hclose, StateExcept.bind_eq (checkToken_hit (List.mem_singleton.mp ho) (by decide)), if_pos rfl, hlit]

theorem callTurn_turbofish {pos : At} {name : List Char} (ht : t.type = .COLON_COLON)
    (h : turbofish fuel E pos name mid = .ok (e, rest)) :
    callTurn fuel E (.identifier pos name) (t :: mid) = .ok (.inl e, rest) := by
  rw [callTurn, StateExcept.bind_eq (matchToken_ok ht (by decide) _), if_pos rfl, StateExcept.bind_eq h]
  rfl

end Turns

section Completeness

variable {n k : ℕ} {ts mid rest : List Token} {t : Token} {e e' : Expr}

/-- The procedure of each level, inside an expression that is read with `n` more tokens. -/
def atLevel (n : ℕ) : ℕ → Parse Expr
  | 0 => call (n + 1) (expression n)
  | 1 => unary (n + 1) (expression n) (n + 1)
  | k + 2 => binaryLevel (n + 1) (operators k) (atLevel n (k + 1))

theorem expression_eq (n : ℕ) : expression (n + 1) = atLevel n top := rfl

/-- The parser comes to what is derived, in the loop of its level where there is one. -/
def Reaches (n : ℕ) (k : ℕ) (ts : List Token) (e : Expr) (rest : List Token) : Prop :=
  match k with
  | 0 => Plain rest → ∃ f, rest.length < f ∧
      atLevel n 0 ts = loop .outOfFuel (callTurn (n + 1) (expression n)) f e rest
  | 1 => Stops 1 rest → ∀ depth, ts.length ≤ depth → unary (n + 1) (expression n) depth ts = .ok (e, rest)
  | k + 2 => Stops (k + 1) rest → ∃ f, rest.length < f ∧
      atLevel n (k + 2) ts = loop .outOfFuel (binaryTurn (operators k) (atLevel n (k + 1))) f e rest

theorem Reaches.reads (h : Reaches n k ts e rest) (hlen : ts.length ≤ n + 1) (hstop : Stops k rest) :
    atLevel n k ts = .ok (e, rest) := by
  match k with
  | 0 =>
    obtain ⟨f, hf, hloop⟩ := h hstop.plain
    obtain ⟨f, rfl⟩ : ∃ f', f = f' + 1 := ⟨f - 1, by omega⟩
    rw [hloop, loop_ends (callTurn_ends hstop)]
  | 1 => exact h hstop _ hlen
  | k + 2 =>
    obtain ⟨f, hf, hloop⟩ := h hstop.below
    obtain ⟨f, rfl⟩ : ∃ f', f = f' + 1 := ⟨f - 1, by omega⟩
    obtain ⟨t, rest, rfl, ht⟩ := hstop
    have hno : t.type ∉ operators k := fun hmem => ht (List.mem_append_left _ hmem)
    rw [hloop]
    refine loop_ends ?_
    rw [binaryTurn, StateExcept.bind_eq (matchAny_miss hno)]
    rfl

/-- An expression inside another is read by the parser of the whole, whatever the fuel. -/
theorem expression_reads (hd : Derives top ts e rest) (hts : parsing.Input ts)
    (h : ∀ n, ts.length ≤ n + 1 → Reaches n top ts e rest) (hlen : ts.length ≤ n) (hstop : Stops top rest) :
    expression n ts = .ok (e, rest) := by
  obtain ⟨-, hlt⟩ := hd.leaves hts
  obtain ⟨n, rfl⟩ : ∃ n', n = n' + 1 := ⟨n - 1, by omega⟩
  rw [expression_eq]
  exact (h n hlen).reads hlen hstop

/-- One more turn of the loop over what may follow an expression of level 0. -/
theorem Reaches.turn (h : Reaches n 0 ts e (t :: mid)) (hplain : Plain (t :: mid))
    (hturn : callTurn (n + 1) (expression n) e (t :: mid) = .ok (.inl e', rest)) (hlt : rest.length ≤ mid.length) :
    Reaches n 0 ts e' rest := by
  intro _
  obtain ⟨f, hf, hloop⟩ := h hplain
  obtain ⟨f, rfl⟩ : ∃ f', f = f' + 1 := ⟨f - 1, by omega⟩
  refine ⟨f, by simp only [List.length_cons] at hf; omega, ?_⟩
  rw [hloop, loop_goes hturn]

theorem reaches_primary (h : primary (n + 1) (expression n) ts = .ok (e, rest)) (hlt : rest.length < n + 1) :
    ∃ f, rest.length < f ∧ atLevel n 0 ts = loop .outOfFuel (callTurn (n + 1) (expression n)) f e rest :=
  ⟨n + 1, hlt, StateExcept.bind_eq h⟩

theorem primaryName_plain {fuel : ℕ} {E : Parse Expr} (hplain : Plain rest) :
    primaryName fuel E t rest = .ok (.identifier (posOf t) t.lexeme, rest) := by
  obtain ⟨u, us, rfl, hbrace, hcolons⟩ := hplain
  have hopen : checkToken .LEFT_BRACE (u :: us) = .ok (false, u :: us) := by
    rw [checkToken, decide_eq_false fun h => hbrace h.2]
  by_cases hu : u.type = .COLON_COLON
  · obtain ⟨v, vs, rfl, hv⟩ := hcolons hu
    have hnext : checkNext .LESS (u :: v :: vs) = .ok (true, u :: v :: vs) := by
      rw [checkNext, decide_eq_true (List.mem_singleton.mp hv)]
    rw [primaryName, StateExcept.bind_eq (checkToken_hit hu (by decide)), StateExcept.bind_eq hnext]
    rw [if_neg (by decide), StateExcept.bind_eq hopen]
    rfl
  · have hmiss : checkToken .COLON_COLON (u :: us) = .ok (false, u :: us) := by
      rw [checkToken, decide_eq_false fun h => hu h.2]
    obtain ⟨b, hnext⟩ : ∃ b, checkNext .LESS (u :: us) = .ok (b, u :: us) := by
      cases us with
      | nil => exact ⟨_, rfl⟩
      | cons v vs => exact ⟨_, rfl⟩
    rw [primaryName, StateExcept.bind_eq hmiss, StateExcept.bind_eq hnext]
    rw [if_neg (by simp), StateExcept.bind_eq hopen]
    rfl

theorem primaryName_qualified {fuel : ℕ} {E : Parse Expr} {colons v : Token} (hc : colons.type = .COLON_COLON)
    (hv : v.type = .IDENTIFIER) (hno : ¬ Heads [.COLON_COLON] rest) (hin : parsing.Input rest) :
    primaryName fuel E t (colons :: v :: rest) = .ok (.identifier (posOf t) (t.lexeme ++ [':', ':'] ++ v.lexeme), rest) := by
  have hnext : checkNext .LESS (colons :: v :: rest) = .ok (false, colons :: v :: rest) := by
    rw [checkNext, hv]
    rfl
  have hname : qualified t (colons :: v :: rest) = .ok (t.lexeme ++ [':', ':'] ++ v.lexeme, rest) := by
    rw [qualified, StateExcept.bind_eq (consume_ok hc (by decide) _), StateExcept.bind_eq (consume_ok hv (by decide) rest),
      StateExcept.bind_eq (checkToken_miss hin hno)]
    rfl
  rw [primaryName, StateExcept.bind_eq (checkToken_hit hc (by decide)), StateExcept.bind_eq hnext]
  rw [if_pos (by decide), StateExcept.bind_eq hname]
  rfl

theorem primaryName_lit {fuel : ℕ} {E : Parse Expr} (hb : Heads [.LEFT_BRACE] ts)
    (hlit : structLiteral fuel E t.lexeme (posOf t) ts = .ok (e, rest)) : primaryName fuel E t ts = .ok (e, rest) := by
  obtain ⟨u, us, rfl, hu⟩ := hb
  have hu : u.type = .LEFT_BRACE := List.mem_singleton.mp hu
  have hmiss : checkToken .COLON_COLON (u :: us) = .ok (false, u :: us) := by
    rw [checkToken, hu]
    rfl
  obtain ⟨b, hnext⟩ : ∃ b, checkNext .LESS (u :: us) = .ok (b, u :: us) := by
    cases us with
    | nil => exact ⟨_, rfl⟩
    | cons v vs => exact ⟨_, rfl⟩
  rw [primaryName, StateExcept.bind_eq hmiss, StateExcept.bind_eq hnext]
  rw [if_neg (by simp), StateExcept.bind_eq (checkToken_hit hu (by decide)), if_pos rfl, hlit]

theorem Fields.opens {fields : List Field} (h : Fields fields ts rest) : Heads [.LEFT_BRACE] ts := by
  obtain ⟨opening, mid, closing, rfl, ho, -⟩ := h
  exact ⟨opening, mid, rfl, List.mem_singleton.mpr ho⟩

theorem unary_call {depth : ℕ} {fuel : ℕ} {E : Parse Expr} (h : Heads atoms ts) : unary fuel E (depth + 1) ts = call fuel E ts := by
  have hno : ∀ type ∈ atoms, type ∉ [TokenType.AT] ∧ type ∉ [TokenType.BANG, .MINUS, .TILDE] := by decide
  obtain ⟨t, rest, rfl, ht⟩ := h
  rw [unary, StateExcept.bind_eq (matchAny_miss (hno _ ht).1)]
  dsimp only
  rw [StateExcept.bind_eq (matchAny_miss (hno _ ht).2)]

theorem Derives.reaches (h : Derives k ts e rest) : parsing.Input ts → ∀ n, ts.length ≤ n + 1 → Reaches n k ts e rest := by
  induction h with
  | literal hvalue =>
    intro hts n hlen _
    exact reaches_primary (primary_literal hvalue) (by simp only [List.length_cons] at hlen; omega)
  | name ht =>
    intro hts n hlen hplain
    exact reaches_primary ((primary_identifier ht).trans (primaryName_plain hplain))
      (by simp only [List.length_cons] at hlen; omega)
  | qualified ht hc hv hno =>
    intro hts n hlen _
    have hin := input_tail (input_tail (input_tail hts ht (by decide)) hc (by decide)) hv (by decide)
    exact reaches_primary ((primary_identifier ht).trans (primaryName_qualified hc hv hno hin))
      (by simp only [List.length_cons] at hlen; omega)
  | @parens opening closing ts rest e ho hd hc ih =>
    intro hts n hlen _
    have hin := input_tail hts ho (by decide)
    have hlen' : ts.length ≤ n := by simp only [List.length_cons] at hlen; omega
    have hread := expression_reads hd hin (ih hin) hlen' (stops_closing (by rw [hc]; decide))
    obtain ⟨-, hlt⟩ := hd.leaves hin
    refine reaches_primary ?_ (by simp only [List.length_cons] at hlt; omega)
    rw [primary_parens ho, StateExcept.bind_eq hread, StateExcept.bind_eq (consume_ok hc (by decide) rest)]
    rfl
  | @structLit t ts rest fields ht hd hfields ih =>
    intro hts n hlen _
    have hin := input_tail hts ht (by decide)
    have hlen' : ts.length ≤ n := by simp only [List.length_cons] at hlen; omega
    have hlit := structLiteral_reads (E := expression n) (fun f hf => ⟨hd f hf, fun hin hle hstop =>
      expression_reads (hd f hf) hin (ih f hf hin) hle hstop⟩) hfields hin hlen' n.le_succ t.lexeme (posOf t)
    obtain ⟨-, hlt⟩ := hfields.leaves (fun f hf => (hd f hf).leaves) hin
    exact reaches_primary ((primary_identifier ht).trans (primaryName_lit hfields.opens hlit)) (by omega)
  | @index ts mid rest e i opening closing hd ho hdi hc ih ihi =>
    intro hts n hlen
    obtain ⟨hmid, hlt⟩ := hd.leaves hts
    have hin := input_tail hmid ho (by decide)
    have hlen' : mid.length ≤ n := by simp only [List.length_cons] at hlt; omega
    have hread := expression_reads hdi hin (ihi hin) hlen' (stops_closing (by rw [hc]; decide))
    obtain ⟨-, hlt'⟩ := hdi.leaves hin
    exact (ih hts n hlen).turn (plain_of (by rw [ho]; decide) (by rw [ho]; decide)) (callTurn_index ho hread hc)
      (by simp only [List.length_cons] at hlt'; omega)
  | field hd hdot hf ih =>
    intro hts n hlen
    exact (ih hts n hlen).turn (plain_of (by rw [hdot]; decide) (by rw [hdot]; decide)) (callTurn_field hdot hf)
      (by simp only [List.length_cons]; omega)
  | @call ts mid rest pos name paren args hd hp hdargs hargs ih ihargs =>
    intro hts n hlen
    obtain ⟨hmid, hlt⟩ := hd.leaves hts
    have hin := input_tail hmid hp (by decide)
    have hlen' : mid.length ≤ n := by simp only [List.length_cons] at hlt; omega
    have hread := callArguments_reads (E := expression n) (fun a ha => ⟨hdargs a ha, fun hin hle hstop =>
      expression_reads (hdargs a ha) hin (ihargs a ha hin) hle hstop⟩) hargs hin hlen' n.le_succ
    obtain ⟨-, hlt'⟩ := hargs.leaves (fun a ha => (hdargs a ha).leaves) hin
    exact (ih hts n hlen).turn (plain_of (by rw [hp]; decide) (by rw [hp]; decide)) (callTurn_call hp hread) hlt'.le
  | @method ts mid rest pos obj field paren args hd hp hdargs hargs ih ihargs =>
    intro hts n hlen
    obtain ⟨hmid, hlt⟩ := hd.leaves hts
    have hin := input_tail hmid hp (by decide)
    have hlen' : mid.length ≤ n := by simp only [List.length_cons] at hlt; omega
    have hread := callArguments_reads (E := expression n) (fun a ha => ⟨hdargs a ha, fun hin hle hstop =>
      expression_reads (hdargs a ha) hin (ihargs a ha hin) hle hstop⟩) hargs hin hlen' n.le_succ
    obtain ⟨-, hlt'⟩ := hargs.leaves (fun a ha => (hdargs a ha).leaves) hin
    exact (ih hts n hlen).turn (plain_of (by rw [hp]; decide) (by rw [hp]; decide)) (callTurn_method hp hread) hlt'.le
  | @genericCall ts mid mid' rest pos name colons less paren types args hd hc hl htypes hp hdargs hargs ih ihargs =>
    intro hts n hlen
    obtain ⟨hmid, hlt⟩ := hd.leaves hts
    have hin := input_tail (input_tail hmid hc (by decide)) hl (by decide)
    have hlen' : mid.length ≤ n := by simp only [List.length_cons] at hlt; omega
    obtain ⟨hafter, hle⟩ := htypes.leaves hin
    have hin' := input_tail hafter hp (by decide)
    have hread := callArguments_reads (E := expression n) (fun a ha => ⟨hdargs a ha, fun hin hle hstop =>
      expression_reads (hdargs a ha) hin (ihargs a ha hin) hle hstop⟩) hargs hin'
      (by simp only [List.length_cons] at hle; omega) n.le_succ
    obtain ⟨-, hlt'⟩ := hargs.leaves (fun a ha => (hdargs a ha).leaves) hin'
    refine (ih hts n hlen).turn ⟨colons, less :: mid, rfl, by rw [hc]; decide, fun _ => ⟨less, mid, rfl, List.mem_singleton.mpr hl⟩⟩
      (callTurn_turbofish hc (turbofish_call hl ((writtenTypes_exact hin (by omega)).mpr htypes) hp hread)) ?_
    simp only [List.length_cons] at hle ⊢
    omega
  | @genericLit ts mid mid' rest pos name colons less types fields hd hc hl htypes hdfields hfields ih ihfields =>
    intro hts n hlen
    obtain ⟨hmid, hlt⟩ := hd.leaves hts
    have hin := input_tail (input_tail hmid hc (by decide)) hl (by decide)
    have hlen' : mid.length ≤ n := by simp only [List.length_cons] at hlt; omega
    obtain ⟨hafter, hle⟩ := htypes.leaves hin
    have hlit := structLiteral_reads (E := expression n) (fun f hf => ⟨hdfields f hf, fun hin hle hstop =>
      expression_reads (hdfields f hf) hin (ihfields f hf hin) hle hstop⟩) hfields hafter (hle.trans hlen') n.le_succ
      (name ++ '<' :: (join types ++ ['>'])) pos
    obtain ⟨-, hlt'⟩ := hfields.leaves (fun f hf => (hdfields f hf).leaves) hafter
    refine (ih hts n hlen).turn ⟨colons, less :: mid, rfl, by rw [hc]; decide, fun _ => ⟨less, mid, rfl, List.mem_singleton.mpr hl⟩⟩
      (callTurn_turbofish hc (turbofish_lit hl ((writtenTypes_exact hin (by omega)).mpr htypes) hfields.opens hlit)) ?_
    simp only [List.length_cons]
    omega
  | @addressOf t ts rest e ht hd ih =>
    intro hts n hlen hstop depth hdepth
    obtain ⟨depth, rfl⟩ : ∃ d, depth = d + 1 := ⟨depth - 1, by simp only [List.length_cons] at hdepth; omega⟩
    simp only [List.length_cons] at hlen hdepth
    have hread := ih (input_tail hts ht (by decide)) n (by omega) hstop depth (by omega)
    rw [Parser.unary, StateExcept.bind_eq (matchAny_hit (List.mem_singleton.mpr ht) (by decide))]
    dsimp only
    rw [StateExcept.bind_eq hread]
    rfl
  | @unary t ts rest e ht hd ih =>
    intro hts n hlen hstop depth hdepth
    obtain ⟨depth, rfl⟩ : ∃ d, depth = d + 1 := ⟨depth - 1, by simp only [List.length_cons] at hdepth; omega⟩
    simp only [List.length_cons] at hlen hdepth
    have hread := ih (parsing_tail hts (not_eof_of_mem ht (by decide))) n (by omega) hstop depth (by omega)
    have hat : t.type ∉ [TokenType.AT] := by
      have hno : ∀ type ∈ [TokenType.BANG, .MINUS, .TILDE], type ∉ [TokenType.AT] := by decide
      exact hno _ ht
    rw [Parser.unary, StateExcept.bind_eq (matchAny_miss hat)]
    dsimp only
    rw [StateExcept.bind_eq (matchAny_hit ht (by decide))]
    dsimp only
    rw [StateExcept.bind_eq hread]
    rfl
  | @binary k ts mid rest l r op hdl hop hdr ihl ihr =>
    intro hts n hlen hstop
    obtain ⟨hmid, hlt⟩ := hdl.leaves hts
    have hin := parsing_tail hmid (not_eof_of_mem hop (operators_not_eof k))
    have hright := (ihr hin n (by simp only [List.length_cons] at hlt; omega)).reads
      (by simp only [List.length_cons] at hlt; omega) hstop
    obtain ⟨-, hlt'⟩ := hdr.leaves hin
    obtain ⟨f, hf, hloop⟩ := ihl hts n hlen (stops_operator hop)
    obtain ⟨f, rfl⟩ : ∃ f', f = f' + 1 := ⟨f - 1, by omega⟩
    refine ⟨f, by simp only [List.length_cons] at hf; omega, ?_⟩
    rw [hloop]
    refine loop_goes ?_
    rw [binaryTurn, StateExcept.bind_eq (matchAny_hit hop (operators_not_eof k))]
    dsimp only
    rw [StateExcept.bind_eq hright]
    rfl
  | @tighter k ts rest e hd ih =>
    intro hts n hlen
    obtain ⟨-, hlt⟩ := hd.leaves hts
    cases k with
    | zero =>
      intro hstop depth hdepth
      obtain ⟨depth, rfl⟩ : ∃ d, depth = d + 1 := ⟨depth - 1, by omega⟩
      rw [unary_call hd.starts]
      exact (ih hts n hlen).reads hlen hstop.below
    | succ k =>
      intro hstop
      exact ⟨n + 1, by omega, StateExcept.bind_eq ((ih hts n hlen).reads hlen hstop)⟩

/-- Where the next token cannot go on an expression, the parser reads an expression off some
tokens exactly if the grammar derives it from them. -/
theorem expression_exact {fuel : ℕ} (hts : parsing.Input ts) (hfuel : ts.length ≤ fuel) (hstop : Stops top rest) :
    expression fuel ts = .ok (e, rest) ↔ Derives top ts e rest := by
  constructor
  · exact expression_sound fuel ts e rest hts hfuel
  · intro h
    exact expression_reads h hts (h.reaches hts) hfuel hstop

/-- The grammar is unambiguous. -/
theorem derives_unique {rest' : List Token} (hts : parsing.Input ts) (h : Derives top ts e rest) (h' : Derives top ts e' rest')
    (hstop : Stops top rest) (hstop' : Stops top rest') : e = e' ∧ rest = rest' := by
  have hread := (expression_exact hts le_rfl hstop).mpr h
  have hread' := (expression_exact hts le_rfl hstop').mpr h'
  rw [hread] at hread'
  exact Prod.mk.inj (Except.ok.inj hread')

/-- The tokens of `a - b - c * d;`. -/
def differenceTokens : List Token :=
  [ ⟨.IDENTIFIER, ['a'], 1, 1, none⟩, ⟨.MINUS, ['-'], 1, 3, none⟩, ⟨.IDENTIFIER, ['b'], 1, 5, none⟩, ⟨.MINUS, ['-'], 1, 7, none⟩
  , ⟨.IDENTIFIER, ['c'], 1, 9, none⟩, ⟨.STAR, ['*'], 1, 11, none⟩, ⟨.IDENTIFIER, ['d'], 1, 13, none⟩
  , ⟨.SEMICOLON, [';'], 1, 14, none⟩, ⟨.EOF, [], 1, 15, none⟩ ]

theorem difference_derived : Derives top differenceTokens
    (.binary ⟨1, 7⟩ (.binary ⟨1, 3⟩ (.identifier ⟨1, 1⟩ ['a']) ['-'] (.identifier ⟨1, 5⟩ ['b'])) ['-']
      (.binary ⟨1, 11⟩ (.identifier ⟨1, 9⟩ ['c']) ['*'] (.identifier ⟨1, 13⟩ ['d'])))
    [⟨.SEMICOLON, [';'], 1, 14, none⟩, ⟨.EOF, [], 1, 15, none⟩] := by
  have hts : parsing.Input differenceTokens := by
    constructor
    · repeat first | exact .last rfl | refine .cons (by decide) ?_
    · simp [Numbered, differenceTokens]
  have hstop : Stops top [⟨.SEMICOLON, [';'], 1, 14, none⟩, ⟨.EOF, [], 1, 15, none⟩] := ⟨_, _, rfl, by decide⟩
  exact (expression_exact hts (by decide : differenceTokens.length ≤ 9) hstop).mp rfl

end Completeness

end Parser

end QuinLang
