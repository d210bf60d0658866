import QuinLang.Compiler.TypeGrammar

/-! The grammar of expressions, and that the parser reads nothing that is not in it. -/

namespace QuinLang

namespace Parser

open Consuming (loop Takes)

section Grammar

variable {α : Type}

/-- Readings one after another or none, a comma between each two and maybe one after the last. -/
inductive Braced : List (Reading α) → List Token → List Token → Prop
  | nil {rest : List Token} : Braced [] rest rest
  | last (r : Reading α) : Braced [r] r.before r.after
  | comma {r : Reading α} {rs : List (Reading α)} {comma : Token} {mid rest : List Token} : r.after = comma :: mid →
      comma.type = .COMMA → Braced rs mid rest → Braced (r :: rs) r.before rest

/-- The value of a field, and the tokens before it. -/
structure Field where
  name : Token
  colon : Token
  value : Reading Expr

def Field.reading (f : Field) : Reading FieldInit :=
  ⟨f.name :: f.colon :: f.value.before, .mk (posOf f.name) f.name.lexeme f.value.value, f.value.after⟩

/-- Fields between braces. -/
def Fields (fields : List Field) (ts rest : List Token) : Prop :=
  ∃ opening mid closing, ts = opening :: mid ∧ opening.type = .LEFT_BRACE ∧ closing.type = .RIGHT_BRACE ∧
    (∀ f ∈ fields, f.name.type = .IDENTIFIER ∧ f.colon.type = .COLON) ∧
    Braced (fields.map Field.reading) mid (closing :: rest)

def Fields.inits (fields : List Field) : List FieldInit := fields.map fun f => f.reading.value

def literalOf (t : Token) : Option Value :=
  match t.type with
  | .FALSE => some (.bool false)
  | .TRUE => some (.bool true)
  | .NULL => some .null
  | .NUMBER | .FLOAT_NUMBER | .STRING => some (.token t.literal)
  | _ => none

/-- The binary operators, tightest first. -/
def levels : List (List TokenType) :=
  [ [.STAR, .SLASH, .PERCENT], [.PLUS, .MINUS], [.SHL, .SHR], [.GREATER, .GREATER_EQUAL, .LESS, .LESS_EQUAL]
  , [.EQUAL_EQUAL, .BANG_EQUAL], [.AMP], [.CARET], [.PIPE], [.AND_AND], [.OR_OR] ]

def operators (k : ℕ) : List TokenType := levels.getD k []

/-- The level of a whole expression. -/
abbrev top : ℕ := 11

/-- The grammar: which expression the tokens before `rest` are. Level 0 is what `()`, `[]` and
`.` may follow, level 1 the unary operators, and level `k + 2` the binary operators of
level `k`, each of which associates to the left. -/
inductive Derives : ℕ → List Token → Expr → List Token → Prop
  | literal {t : Token} {value : Value} {rest : List Token} : literalOf t = some value →
      Derives 0 (t :: rest) (.literal (posOf t) value) rest
  | name {t : Token} {rest : List Token} : t.type = .IDENTIFIER → Derives 0 (t :: rest) (.identifier (posOf t) t.lexeme) rest
  | qualified {t colons v : Token} {rest : List Token} : t.type = .IDENTIFIER → colons.type = .COLON_COLON →
      v.type = .IDENTIFIER → ¬ Heads [.COLON_COLON] rest →
      Derives 0 (t :: colons :: v :: rest) (.identifier (posOf t) (t.lexeme ++ [':', ':'] ++ v.lexeme)) rest
  | parens {opening closing : Token} {ts rest : List Token} {e : Expr} : opening.type = .LEFT_PAREN →
      Derives top ts e (closing :: rest) → closing.type = .RIGHT_PAREN → Derives 0 (opening :: ts) e rest
  | structLit {t : Token} {ts rest : List Token} {fields : List Field} : t.type = .IDENTIFIER →
      (∀ f ∈ fields, Derives top f.value.before f.value.value f.value.after) → Fields fields ts rest →
      Derives 0 (t :: ts) (.structLit (posOf t) t.lexeme (Fields.inits fields)) rest
  | index {ts mid rest : List Token} {e i : Expr} {opening closing : Token} : Derives 0 ts e (opening :: mid) →
      opening.type = .LEFT_BRACKET → Derives top mid i (closing :: rest) → closing.type = .RIGHT_BRACKET →
      Derives 0 ts (.index (posOf opening) e i) rest
  | field {ts rest : List Token} {e : Expr} {dot f : Token} : Derives 0 ts e (dot :: f :: rest) → dot.type = .DOT →
      f.type = .IDENTIFIER → Derives 0 ts (.fieldAccess (posOf f) e f.lexeme) rest
  | call {ts mid rest : List Token} {pos : At} {name : List Char} {paren : Token} {args : List (Reading Expr)} :
      Derives 0 ts (.identifier pos name) (paren :: mid) → paren.type = .LEFT_PAREN →
      (∀ a ∈ args, Derives top a.before a.value a.after) → Arguments args mid rest →
      Derives 0 ts (.call (posOf paren) name (args.map Reading.value) none []) rest
  | method {ts mid rest : List Token} {pos : At} {obj : Expr} {field : List Char} {paren : Token}
      {args : List (Reading Expr)} : Derives 0 ts (.fieldAccess pos obj field) (paren :: mid) → paren.type = .LEFT_PAREN →
      (∀ a ∈ args, Derives top a.before a.value a.after) → Arguments args mid rest →
      Derives 0 ts (.call (posOf paren) field (args.map Reading.value) (some (.fieldAccess pos obj field)) []) rest
  | genericCall {ts mid mid' rest : List Token} {pos : At} {name : List Char} {colons less paren : Token}
      {types : List (List Char)} {args : List (Reading Expr)} : Derives 0 ts (.identifier pos name) (colons :: less :: mid) →
      colons.type = .COLON_COLON → less.type = .LESS → Types mid types (paren :: mid') → paren.type = .LEFT_PAREN →
      (∀ a ∈ args, Derives top a.before a.value a.after) → Arguments args mid' rest →
      Derives 0 ts (.call (posOf paren) name (args.map Reading.value) none types) rest
  | genericLit {ts mid mid' rest : List Token} {pos : At} {name : List Char} {colons less : Token}
      {types : List (List Char)} {fields : List Field} : Derives 0 ts (.identifier pos name) (colons :: less :: mid) →
      colons.type = .COLON_COLON → less.type = .LESS → Types mid types mid' →
      (∀ f ∈ fields, Derives top f.value.before f.value.value f.value.after) → Fields fields mid' rest →
      Derives 0 ts (.structLit pos (name ++ '<' :: (join types ++ ['>'])) (Fields.inits fields)) rest
  | addressOf {t : Token} {ts rest : List Token} {e : Expr} : t.type = .AT → Derives 1 ts e rest →
      Derives 1 (t :: ts) (.addressOf (posOf t) e) rest
  | unary {t : Token} {ts rest : List Token} {e : Expr} : t.type ∈ [.BANG, .MINUS, .TILDE] → Derives 1 ts e rest →
      Derives 1 (t :: ts) (.unary (posOf t) t.lexeme e) rest
  | binary {k : ℕ} {ts mid rest : List Token} {l r : Expr} {op : Token} : Derives (k + 2) ts l (op :: mid) →
      op.type ∈ operators k → Derives (k + 1) mid r rest → Derives (k + 2) ts (.binary (posOf op) l op.lexeme r) rest
  | tighter {k : ℕ} {ts rest : List Token} {e : Expr} : Derives k ts e rest → Derives (k + 1) ts e rest

end Grammar

section Lists

variable {α : Type} {rs : List (Reading α)} {ts rest : List Token}

theorem Braced.leaves (hrs : ∀ r ∈ rs, parsing.Input r.before → parsing.Input r.after ∧ r.after.length < r.before.length)
    (h : Braced rs ts rest) (hts : parsing.Input ts) : parsing.Input rest ∧ rest.length + rs.length ≤ ts.length := by
  induction h with
  | nil => exact ⟨hts, le_rfl⟩
  | last r =>
    obtain ⟨hrest, hlt⟩ := hrs r (List.mem_singleton_self r) hts
    exact ⟨hrest, hlt⟩
  | @comma r rs c mid rest hafter hc hmore ih =>
    obtain ⟨hmid, hlt⟩ := hrs r List.mem_cons_self hts
    rw [hafter] at hmid hlt
    obtain ⟨hrest, hle⟩ := ih (fun s hs => hrs s (List.mem_cons_of_mem _ hs)) (input_tail hmid hc (by decide))
    exact ⟨hrest, by simp only [List.length_cons] at hlt ⊢; omega⟩

variable {item : Parse α} {n fuel : ℕ} {xs ys : List α}

theorem braced_of_loop (hitem : Takes parsing n 1 item) (hts : parsing.Input ts) (hlen : ts.length ≤ n)
    (h : loop .outOfFuel (bracedTurn item) fuel xs ts = .ok (ys, rest)) :
    ∃ rs, ReadBy item n rs ∧ Braced rs ts rest ∧ ys = xs ++ rs.map Reading.value := by
  induction fuel generalizing xs ts with
  | zero => cases h
  | succ fuel ih =>
    rw [loop] at h
    obtain ⟨r, ts₁, hturn, hgo⟩ := StateExcept.bind_ok.mp h
    obtain ⟨closes, ts', hcheck, hturn⟩ := StateExcept.bind_ok.mp hturn
    obtain rfl := checkToken_same hcheck
    cases closes with
    | true =>
      cases hturn
      cases hgo
      exact ⟨[], fun r hr => absurd hr List.not_mem_nil, .nil, by simp⟩
    | false =>
      obtain ⟨i, mid, hi, hturn⟩ := StateExcept.bind_ok.mp hturn
      obtain ⟨b, mid', hb, hturn⟩ := StateExcept.bind_ok.mp hturn
      have hfirst : ReadBy item n [⟨ts', i, mid⟩] := by
        intro s hs
        cases List.mem_singleton.mp hs
        exact ⟨hts, hlen, hi⟩
      obtain ⟨hmid, hle⟩ := takes_ok hitem hts hlen hi
      cases b with
      | true =>
        cases hturn
        obtain ⟨c, rfl, hc⟩ := matchToken_true hb
        obtain ⟨rs, hread, hbraced, rfl⟩ := ih (input_tail hmid hc (by decide)) (by simp only [List.length_cons] at hle; omega) hgo
        exact ⟨⟨ts', i, c :: ts₁⟩ :: rs, List.forall_mem_cons.mpr ⟨hfirst _ (List.mem_singleton_self _), hread⟩,
          .comma rfl hc hbraced, by simp⟩
      | false =>
        cases hturn
        cases hgo
        obtain rfl := matchToken_false hb
        exact ⟨[⟨ts', i, _⟩], hfirst, .last _, rfl⟩

end Lists

section Leaves

variable {ts rest : List Token}

theorem Fields.leaves {fields : List Field}
    (hfields : ∀ f ∈ fields, parsing.Input f.value.before → parsing.Input f.value.after ∧ f.value.after.length < f.value.before.length)
    (h : Fields fields ts rest) (hts : parsing.Input ts) : parsing.Input rest ∧ rest.length < ts.length := by
  obtain ⟨opening, mid, closing, rfl, ho, hc, hnames, hbraced⟩ := h
  have hread : ∀ r ∈ fields.map Field.reading, parsing.Input r.before → parsing.Input r.after ∧ r.after.length < r.before.length := by
    intro r hr hin
    obtain ⟨f, hf, rfl⟩ := List.mem_map.mp hr
    obtain ⟨hname, hcolon⟩ := hnames f hf
    obtain ⟨hafter, hlt⟩ := hfields f hf (input_tail (input_tail hin hname (by decide)) hcolon (by decide))
    exact ⟨hafter, by simp only [Field.reading, List.length_cons]; omega⟩
  obtain ⟨hrest, hle⟩ := hbraced.leaves hread (input_tail hts ho (by decide))
  exact ⟨input_tail hrest hc (by decide), by simp only [List.length_cons] at hle ⊢; omega⟩

theorem literalOf_ne {t : Token} {value : Value} (h : literalOf t = some value) : t.type ≠ .EOF := by
  intro heof
  rw [literalOf, heof] at h
  cases h

theorem not_eof_of_mem {t : Token} {types : List TokenType} (h : t.type ∈ types) (heof : .EOF ∉ types) : t.type ≠ .EOF :=
  fun ht => heof (ht ▸ h)

theorem operators_not_eof (k : ℕ) : .EOF ∉ operators k := by
  rcases Nat.lt_or_ge k 10 with hlt | hge
  · revert k
    decide
  · rw [operators, List.getD_eq_default _ _ (by simpa [levels] using hge)]
    exact List.not_mem_nil

/-- What is derived takes a token, and leaves an input. -/
theorem Derives.leaves {k : ℕ} {e : Expr} (h : Derives k ts e rest) (hts : parsing.Input ts) :
    parsing.Input rest ∧ rest.length < ts.length := by
  induction h with
  | literal hvalue => exact ⟨parsing_tail hts (literalOf_ne hvalue), Nat.lt_succ_self _⟩
  | name ht => exact ⟨input_tail hts ht (by decide), Nat.lt_succ_self _⟩
  | qualified ht hc hv _ =>
    exact ⟨input_tail (input_tail (input_tail hts ht (by decide)) hc (by decide)) hv (by decide),
      by simp only [List.length_cons]; omega⟩
  | parens ho _ hc ih =>
    obtain ⟨hrest, hlt⟩ := ih (input_tail hts ho (by decide))
    exact ⟨input_tail hrest hc (by decide), by simp only [List.length_cons] at hlt ⊢; omega⟩
  | structLit ht _ hfields ih =>
    obtain ⟨hrest, hlt⟩ := hfields.leaves ih (input_tail hts ht (by decide))
    exact ⟨hrest, by simp only [List.length_cons]; omega⟩
  | index _ ho _ hc ih ihi =>
    obtain ⟨hmid, hlt⟩ := ih hts
    obtain ⟨hrest, hlt'⟩ := ihi (input_tail hmid ho (by decide))
    exact ⟨input_tail hrest hc (by decide), by simp only [List.length_cons] at hlt hlt'; omega⟩
  | field _ hd hf ih =>
    obtain ⟨hmid, hlt⟩ := ih hts
    exact ⟨input_tail (input_tail hmid hd (by decide)) hf (by decide), by simp only [List.length_cons] at hlt; omega⟩
  | call _ hp _ hargs ih ihargs =>
    obtain ⟨hmid, hlt⟩ := ih hts
    obtain ⟨hrest, hlt'⟩ := hargs.leaves ihargs (input_tail hmid hp (by decide))
    exact ⟨hrest, by simp only [List.length_cons] at hlt; omega⟩
  | method _ hp _ hargs ih ihargs =>
    obtain ⟨hmid, hlt⟩ := ih hts
    obtain ⟨hrest, hlt'⟩ := hargs.leaves ihargs (input_tail hmid hp (by decide))
    exact ⟨hrest, by simp only [List.length_cons] at hlt; omega⟩
  | genericCall _ hc hl htypes hp _ hargs ih ihargs =>
    obtain ⟨hmid, hlt⟩ := ih hts
    obtain ⟨hmid', hle⟩ := htypes.leaves (input_tail (input_tail hmid hc (by decide)) hl (by decide))
    obtain ⟨hrest, hlt'⟩ := hargs.leaves ihargs (input_tail hmid' hp (by decide))
    exact ⟨hrest, by simp only [List.length_cons] at hlt hle; omega⟩
  | genericLit _ hc hl htypes _ hfields ih ihfields =>
    obtain ⟨hmid, hlt⟩ := ih hts
    obtain ⟨hmid', hle⟩ := htypes.leaves (input_tail (input_tail hmid hc (by decide)) hl (by decide))
    obtain ⟨hrest, hlt'⟩ := hfields.leaves ihfields hmid'
    exact ⟨hrest, by simp only [List.length_cons] at hlt; omega⟩
  | addressOf ht _ ih =>
    obtain ⟨hrest, hlt⟩ := ih (input_tail hts ht (by decide))
    exact ⟨hrest, by simp only [List.length_cons]; omega⟩
  | unary ht _ ih =>
    obtain ⟨hrest, hlt⟩ := ih (parsing_tail hts (not_eof_of_mem ht (by decide)))
    exact ⟨hrest, by simp only [List.length_cons]; omega⟩
  | binary _ hop _ ihl ihr =>
    obtain ⟨hmid, hlt⟩ := ihl hts
    obtain ⟨hrest, hlt'⟩ := ihr (parsing_tail hmid (not_eof_of_mem hop (operators_not_eof _)))
    exact ⟨hrest, by simp only [List.length_cons] at hlt; omega⟩
  | tighter _ ih => exact ih hts

end Leaves

section Soundness

variable {α : Type} {n fuel : ℕ} {E : Parse Expr} {ts mid rest : List Token} {t : Token} {e e' : Expr}

/-- What a loop keeps in each turn it goes on after, it has when it ends. -/
theorem loop_keeps {σ : Type} {turn : σ → Parse (σ ⊕ α)} {Inv : σ → List Token → Prop} {s : σ} {a : α}
    (hstep : ∀ s ts s' ts', Inv s ts → turn s ts = .ok (.inl s', ts') → Inv s' ts') (hs : Inv s ts)
    (h : loop .outOfFuel turn fuel s ts = .ok (a, rest)) : ∃ s' ts', Inv s' ts' ∧ turn s' ts' = .ok (.inr a, rest) := by
  induction fuel generalizing s ts with
  | zero => cases h
  | succ fuel ih =>
    rw [loop] at h
    obtain ⟨r, ts₁, hturn, hgo⟩ := StateExcept.bind_ok.mp h
    cases r with
    | inl s' => exact ih (hstep _ _ _ _ hs hturn) hgo
    | inr b =>
      cases hgo
      exact ⟨s, ts, hs, hturn⟩

theorem primary_literal {value : Value} (h : literalOf t = some value) :
    primary fuel E (t :: rest) = .ok (.literal (posOf t) value, rest) := by
  obtain ⟨type, lexeme, line, col, literal⟩ := t
  cases type <;> cases h <;> rfl

theorem primary_identifier (ht : t.type = .IDENTIFIER) : primary fuel E (t :: rest) = primaryName fuel E t rest := by
  obtain ⟨type, lexeme, line, col, literal⟩ := t
  cases ht
  rfl

theorem primary_parens (ht : t.type = .LEFT_PAREN) : primary fuel E (t :: rest) =
    (do let expr ← E; let _ ← consume .RIGHT_PAREN "Expected ')' after expression"; return expr : Parse Expr) rest := by
  obtain ⟨type, lexeme, line, col, literal⟩ := t
  cases ht
  rfl

theorem primary_starts {r : Expr × List Token} (h : primary fuel E ts = .ok r) :
    ∃ t rest, ts = t :: rest ∧ ((∃ value, literalOf t = some value) ∨ t.type = .IDENTIFIER ∨ t.type = .LEFT_PAREN) := by
  cases ts with
  | nil => cases h
  | cons t rest =>
    refine ⟨t, rest, rfl, ?_⟩
    obtain ⟨type, lexeme, line, col, literal⟩ := t
    cases type <;> first | exact .inl ⟨_, rfl⟩ | exact .inr (.inl rfl) | exact .inr (.inr rfl) | cases h

/-- On inputs of at most `n` tokens, what the parser reads is derived at level `k`. -/
def Sound (n k : ℕ) (p : Parse Expr) : Prop :=
  ∀ ts e rest, parsing.Input ts → ts.length ≤ n → p ts = .ok (e, rest) → Derives k ts e rest

theorem ReadBy.derives (hE : Sound n top E) {rs : List (Reading Expr)} (h : ReadBy E n rs) :
    ∀ r ∈ rs, Derives top r.before r.value r.after := fun r hr => hE _ _ _ (h r hr).1 (h r hr).2.1 (h r hr).2.2

theorem callArguments_sound (hE : Sound n top E) (htakes : Takes parsing n 1 E) (hts : parsing.Input ts) (hlen : ts.length ≤ n)
    {args : List Expr} (h : callArguments fuel E ts = .ok (args, rest)) :
    ∃ rs, (∀ r ∈ rs, Derives top r.before r.value r.after) ∧ Arguments rs ts rest ∧ args = rs.map Reading.value := by
  obtain ⟨args', mid, hargs, hclose⟩ := StateExcept.bind_ok.mp h
  obtain ⟨closing, mid', hc, hend⟩ := StateExcept.bind_ok.mp hclose
  cases hend
  obtain ⟨rfl, hclosing⟩ := consume_inv hc
  obtain ⟨closes, ts', hcheck, hlist⟩ := StateExcept.bind_ok.mp hargs
  obtain rfl := checkToken_same hcheck
  cases closes with
  | true =>
    cases hlist
    exact ⟨[], fun r hr => absurd hr List.not_mem_nil, ⟨closing, hclosing, .inl ⟨rfl, rfl⟩⟩, rfl⟩
  | false =>
    obtain ⟨rs, hread, hlinked, heq⟩ := linked_of_loop htakes hts hlen hlist
    exact ⟨rs, hread.derives hE, ⟨closing, hclosing, .inr hlinked⟩, by simpa using heq⟩

/-- The readings of fields. -/
theorem fields_of_readBy {rs : List (Reading FieldInit)} (h : ReadBy (fieldInit E) n rs) :
    ∃ fields : List Field, rs = fields.map Field.reading ∧ (∀ f ∈ fields, f.name.type = .IDENTIFIER ∧ f.colon.type = .COLON) ∧
      ReadBy E n (fields.map Field.value) := by
  induction rs with
  | nil => exact ⟨[], rfl, fun f hf => absurd hf List.not_mem_nil, fun r hr => absurd hr List.not_mem_nil⟩
  | cons r rs ih =>
    obtain ⟨fields, rfl, hnames, hreads⟩ := ih fun s hs => h s (List.mem_cons_of_mem _ hs)
    obtain ⟨hin, hlen, hread⟩ := h r List.mem_cons_self
    obtain ⟨before, init, after⟩ := r
    obtain ⟨name, mid, hconsume, hrest⟩ := StateExcept.bind_ok.mp hread
    obtain ⟨colon, mid', hconsume', hrest'⟩ := StateExcept.bind_ok.mp hrest
    obtain ⟨value, mid'', hvalue, hend⟩ := StateExcept.bind_ok.mp hrest'
    obtain ⟨rfl, rfl⟩ := Prod.mk.inj (Except.ok.inj hend)
    obtain ⟨hbefore, hname⟩ := consume_inv hconsume
    obtain ⟨rfl, hcolon⟩ := consume_inv hconsume'
    dsimp only at hbefore hin hlen
    subst hbefore
    have hfirst : parsing.Input mid' ∧ mid'.length ≤ n ∧ E mid' = .ok (value, mid'') :=
      ⟨input_tail (input_tail hin hname (by decide)) hcolon (by decide),
        by simp only [List.length_cons] at hlen; omega, hvalue⟩
    exact ⟨⟨name, colon, ⟨mid', value, mid''⟩⟩ :: fields, rfl, List.forall_mem_cons.mpr ⟨⟨hname, hcolon⟩, hnames⟩,
      List.forall_mem_cons.mpr ⟨hfirst, hreads⟩⟩

theorem structLiteral_sound (hE : Sound n top E) (htakes : Takes parsing n 1 E) (hts : parsing.Input ts) (hlen : ts.length ≤ n)
    {name : List Char} {pos : At} (h : structLiteral fuel E name pos ts = .ok (e, rest)) :
    ∃ fields, (∀ f ∈ fields, Derives top f.value.before f.value.value f.value.after) ∧ Fields fields ts rest ∧
      e = .structLit pos name (Fields.inits fields) := by
  obtain ⟨opening, mid, ho, h⟩ := StateExcept.bind_ok.mp h
  obtain ⟨inits, mid', hinits, h⟩ := StateExcept.bind_ok.mp h
  obtain ⟨closing, mid'', hc, hend⟩ := StateExcept.bind_ok.mp h
  cases hend
  obtain ⟨rfl, hopening⟩ := consume_inv ho
  obtain ⟨rfl, hclosing⟩ := consume_inv hc
  obtain ⟨rs, hread, hbraced, rfl⟩ := braced_of_loop (takes_fieldInit htakes) (input_tail hts hopening (by decide))
    (by simp only [List.length_cons] at hlen; omega) hinits
  obtain ⟨fields, rfl, hnames, hreads⟩ := fields_of_readBy hread
  refine ⟨fields, fun f hf => ?_, ⟨opening, mid, closing, rfl, hopening, hclosing, hnames, hbraced⟩, by simp [Fields.inits]⟩
  exact hreads.derives hE _ (List.mem_map_of_mem hf)

theorem primaryName_sound (hE : Sound n top E) (htakes : Takes parsing n 1 E) (hts : parsing.Input ts) (hlen : ts.length ≤ n)
    (ht : t.type = .IDENTIFIER) (h : primaryName fuel E t ts = .ok (e, rest)) : Derives 0 (t :: ts) e rest := by
  obtain ⟨colons, ts₁, hcheck, h₁⟩ := StateExcept.bind_ok.mp h
  obtain rfl := checkToken_same hcheck
  obtain ⟨less, ts₂, hnext, h₂⟩ := StateExcept.bind_ok.mp h₁
  obtain rfl := checkNext_same hnext
  split at h₂
  · obtain ⟨name, mid, hname, hend⟩ := StateExcept.bind_ok.mp h₂
    cases hend
    obtain ⟨c, mid₁, hc, hname₁⟩ := StateExcept.bind_ok.mp hname
    obtain ⟨v, mid₂, hv, hname₂⟩ := StateExcept.bind_ok.mp hname₁
    obtain ⟨rfl, hcolons⟩ := consume_inv hc
    obtain ⟨rfl, hvariant⟩ := consume_inv hv
    obtain ⟨more, mid₃, hmore, hname₃⟩ := StateExcept.bind_ok.mp hname₂
    obtain rfl := checkToken_same hmore
    cases more with
    | true =>
      obtain ⟨tok, mid₄, -, hrefuse⟩ := StateExcept.bind_ok.mp hname₃
      cases hrefuse
    | false =>
      cases hname₃
      exact .qualified ht hcolons hvariant (checkToken_false (by decide) hmore)
  · obtain ⟨brace, ts₃, hbrace, h₃⟩ := StateExcept.bind_ok.mp h₂
    obtain rfl := checkToken_same hbrace
    cases brace with
    | true =>
      obtain ⟨fields, hderives, hfields, rfl⟩ := structLiteral_sound hE htakes hts hlen h₃
      exact .structLit ht hderives hfields
    | false =>
      cases h₃
      exact .name ht

theorem primary_sound (hE : Sound n top E) (htakes : Takes parsing n 1 E) : Sound (n + 1) 0 (primary fuel E) := by
  intro ts e rest hts hlen h
  obtain ⟨t, ts', rfl, ⟨value, hvalue⟩ | hname | hparen⟩ := primary_starts h
  · rw [primary_literal hvalue] at h
    cases h
    exact .literal hvalue
  · rw [primary_identifier hname] at h
    exact primaryName_sound hE htakes (input_tail hts hname (by decide)) (by simp only [List.length_cons] at hlen; omega) hname h
  · rw [primary_parens hparen] at h
    obtain ⟨e', mid, he, h⟩ := StateExcept.bind_ok.mp h
    obtain ⟨closing, mid', hc, hend⟩ := StateExcept.bind_ok.mp h
    cases hend
    obtain ⟨rfl, hclosing⟩ := consume_inv hc
    exact .parens hparen (hE _ _ _ (input_tail hts hparen (by decide)) (by simp only [List.length_cons] at hlen; omega) he) hclosing

/-- What follows an expression at level 0 makes another at level 0, or the loop ends there. -/
def Follows (ts : List Token) (turn : Parse (Expr ⊕ Expr)) (e : Expr) (mid : List Token) : Prop :=
  (∀ e' rest, turn mid = .ok (.inl e', rest) → Derives 0 ts e' rest) ∧
    ∀ e' rest, turn mid = .ok (.inr e', rest) → e' = e ∧ rest = mid

theorem suffix_sound (hE : Sound n top E) (hd : Derives 0 ts e mid) (hmid : parsing.Input mid) (hlen : mid.length ≤ n) :
    Follows ts (suffix E e) e mid := by
  have hcases : ∀ r rest, suffix E e mid = .ok (r, rest) →
      (∃ e', r = .inl e' ∧ Derives 0 ts e' rest) ∨ r = .inr e ∧ rest = mid := by
    intro r rest h
    obtain ⟨bracket, mid₁, hbracket, h₁⟩ := StateExcept.bind_ok.mp h
    cases bracket with
    | some opening =>
      obtain ⟨i, mid₂, hi, h₂⟩ := StateExcept.bind_ok.mp h₁
      obtain ⟨closing, mid₃, hc, hend⟩ := StateExcept.bind_ok.mp h₂
      cases hend
      obtain ⟨rfl, hopening⟩ := matchAny_some hbracket
      obtain ⟨rfl, hclosing⟩ := consume_inv hc
      have hopening : opening.type = .LEFT_BRACKET := List.mem_singleton.mp hopening
      exact .inl ⟨_, rfl, .index hd hopening
        (hE _ _ _ (input_tail hmid hopening (by decide)) (by simp only [List.length_cons] at hlen; omega) hi) hclosing⟩
    | none =>
      obtain rfl := matchAny_none hbracket
      obtain ⟨dot, mid₂, hdot, h₂⟩ := StateExcept.bind_ok.mp h₁
      cases dot with
      | true =>
        obtain ⟨f, mid₃, hf, hend⟩ := StateExcept.bind_ok.mp h₂
        cases hend
        obtain ⟨tok, rfl, htok⟩ := matchToken_true hdot
        obtain ⟨rfl, hfield⟩ := consume_inv hf
        exact .inl ⟨_, rfl, .field hd htok hfield⟩
      | false =>
        cases h₂
        exact .inr ⟨rfl, matchToken_false hdot⟩
  constructor
  · intro e' rest h
    rcases hcases _ _ h with ⟨e'', heq, hd'⟩ | ⟨heq, -⟩
    · cases heq
      exact hd'
    · cases heq
  · intro e' rest h
    rcases hcases _ _ h with ⟨e'', heq, -⟩ | ⟨heq, hrest⟩
    · cases heq
    · cases heq
      exact ⟨rfl, hrest⟩

theorem callSuffix_sound (hE : Sound n top E) (htakes : Takes parsing n 1 E) (hd : Derives 0 ts e mid) (hmid : parsing.Input mid)
    (hlen : mid.length ≤ n) {callee : List Char} {receiver : Option Expr}
    (hcall : ∀ paren mid' rest args, mid = paren :: mid' → paren.type = .LEFT_PAREN →
      (∀ r ∈ args, Derives top r.before r.value r.after) → Arguments args mid' rest →
      Derives 0 ts (.call (posOf paren) callee (args.map Reading.value) receiver []) rest) :
    Follows ts (callSuffix fuel E e callee receiver) e mid := by
  have hcases : ∀ r rest, callSuffix fuel E e callee receiver mid = .ok (r, rest) →
      (∃ e', r = .inl e' ∧ Derives 0 ts e' rest) ∨ suffix E e mid = .ok (r, rest) := by
    intro r rest h
    obtain ⟨paren, mid₁, hparen, h₁⟩ := StateExcept.bind_ok.mp h
    cases paren with
    | some paren =>
      obtain ⟨args, mid₂, hargs, hend⟩ := StateExcept.bind_ok.mp h₁
      cases hend
      obtain ⟨rfl, htype⟩ := matchAny_some hparen
      have htype : paren.type = .LEFT_PAREN := List.mem_singleton.mp htype
      obtain ⟨rs, hrs, harguments, rfl⟩ := callArguments_sound hE htakes (input_tail hmid htype (by decide))
        (by simp only [List.length_cons] at hlen; omega) hargs
      exact .inl ⟨_, rfl, hcall _ _ _ _ rfl htype hrs harguments⟩
    | none =>
      obtain rfl := matchAny_none hparen
      exact .inr h₁
  obtain ⟨hinl, hinr⟩ := suffix_sound hE hd hmid hlen
  constructor
  · intro e' rest h
    rcases hcases _ _ h with ⟨e'', heq, hd'⟩ | hsuffix
    · cases heq
      exact hd'
    · exact hinl _ _ hsuffix
  · intro e' rest h
    rcases hcases _ _ h with ⟨e'', heq, -⟩ | hsuffix
    · cases heq
    · exact hinr _ _ hsuffix

theorem turbofish_sound (hE : Sound n top E) (htakes : Takes parsing n 1 E) (hfuel : n ≤ fuel) {pos : At} {name : List Char}
    {colons : Token} (hd : Derives 0 ts (.identifier pos name) (colons :: mid)) (hcolons : colons.type = .COLON_COLON)
    (hmid : parsing.Input mid) (hlen : mid.length ≤ n) (h : turbofish fuel E pos name mid = .ok (e, rest)) :
    Derives 0 ts e rest := by
  obtain ⟨less, mid₁, hconsume, h₁⟩ := StateExcept.bind_ok.mp h
  obtain ⟨type, mid₂, htype, h₂⟩ := StateExcept.bind_ok.mp h₁
  obtain ⟨types, mid₃, hlist, h₃⟩ := StateExcept.bind_ok.mp h₂
  obtain ⟨u, mid₄, hclose, h₄⟩ := StateExcept.bind_ok.mp h₃
  obtain ⟨rfl, hless⟩ := consume_inv hconsume
  have hin : parsing.Input mid₁ := input_tail hmid hless (by decide)
  have hlen₁ : mid₁.length ≤ n := by simp only [List.length_cons] at hlen; omega
  have hread : writtenTypes fuel mid₁ = .ok (types, mid₄) :=
    StateExcept.bind_ok.mpr ⟨_, _, htype, StateExcept.bind_ok.mpr ⟨_, _, hlist, StateExcept.bind_ok.mpr ⟨_, _, hclose, rfl⟩⟩⟩
  have htypes : Types mid₁ types mid₄ := (writtenTypes_exact hin (hlen₁.trans hfuel)).mp hread
  obtain ⟨hin₄, hle⟩ := htypes.leaves hin
  obtain ⟨brace, mid₅, hbrace, h₅⟩ := StateExcept.bind_ok.mp h₄
  obtain rfl := checkToken_same hbrace
  cases brace with
  | true =>
    obtain ⟨fields, hfields, hbraces, rfl⟩ := structLiteral_sound hE htakes hin₄ (hle.trans hlen₁) h₅
    exact .genericLit hd hcolons hless htypes hfields hbraces
  | false =>
    obtain ⟨paren, mid₆, hconsume', h₆⟩ := StateExcept.bind_ok.mp h₅
    obtain ⟨args, mid₇, hargs, hend⟩ := StateExcept.bind_ok.mp h₆
    cases hend
    obtain ⟨rfl, hparen⟩ := consume_inv hconsume'
    obtain ⟨rs, hrs, harguments, rfl⟩ := callArguments_sound hE htakes (input_tail hin₄ hparen (by decide))
      (by simp only [List.length_cons] at hle; omega) hargs
    exact .genericCall hd hcolons hless htypes hparen hrs harguments

theorem callTurn_sound (hE : Sound n top E) (htakes : Takes parsing n 1 E) (hfuel : n ≤ fuel) (hd : Derives 0 ts e mid)
    (hmid : parsing.Input mid) (hlen : mid.length ≤ n) : Follows ts (callTurn fuel E e) e mid := by
  cases e with
  | identifier pos name =>
    have hsuffix : Follows ts (callSuffix fuel E (.identifier pos name) name none) (.identifier pos name) mid :=
      callSuffix_sound hE htakes hd hmid hlen fun paren mid' rest args heq hparen hargs harguments =>
        .call (heq ▸ hd) hparen hargs harguments
    have hcases : ∀ r rest, callTurn fuel E (.identifier pos name) mid = .ok (r, rest) →
        (∃ e', r = .inl e' ∧ Derives 0 ts e' rest) ∨
          callSuffix fuel E (.identifier pos name) name none mid = .ok (r, rest) := by
      intro r rest h
      obtain ⟨colons, mid₁, hcolons, h₁⟩ := StateExcept.bind_ok.mp h
      cases colons with
      | true =>
        obtain ⟨e', mid₂, hcall, hend⟩ := StateExcept.bind_ok.mp h₁
        cases hend
        obtain ⟨c, rfl, hc⟩ := matchToken_true hcolons
        exact .inl ⟨e', rfl, turbofish_sound hE htakes hfuel hd hc (input_tail hmid hc (by decide))
          (by simp only [List.length_cons] at hlen; omega) hcall⟩
      | false =>
        obtain rfl := matchToken_false hcolons
        exact .inr h₁
    constructor
    · intro e' rest h
      rcases hcases _ _ h with ⟨e'', heq, hd'⟩ | h'
      · cases heq
        exact hd'
      · exact hsuffix.1 _ _ h'
    · intro e' rest h
      rcases hcases _ _ h with ⟨e'', heq, -⟩ | h'
      · cases heq
      · exact hsuffix.2 _ _ h'
  | fieldAccess pos obj field =>
    exact callSuffix_sound hE htakes hd hmid hlen fun paren mid' rest args heq hparen hargs harguments =>
      .method (heq ▸ hd) hparen hargs harguments
  | _ => exact suffix_sound hE hd hmid hlen

theorem call_sound (hE : Sound n top E) (htakes : Takes parsing n 1 E) (hfuel : n ≤ fuel) : Sound (n + 1) 0 (call fuel E) := by
  intro ts e rest hts hlen h
  obtain ⟨e₀, mid, hprimary, hloop⟩ := StateExcept.bind_ok.mp h
  have hfollows : ∀ e mid, Derives 0 ts e mid → Follows ts (callTurn fuel E e) e mid := by
    intro e mid hd
    obtain ⟨hmid, hlt⟩ := hd.leaves hts
    exact callTurn_sound hE htakes hfuel hd hmid (by omega)
  obtain ⟨e', mid', hd, hend⟩ := loop_keeps (fun e mid e' mid' hd hturn => (hfollows e mid hd).1 _ _ hturn)
    (primary_sound hE htakes _ _ _ hts hlen hprimary) hloop
  obtain ⟨rfl, rfl⟩ := (hfollows e' mid' hd).2 _ _ hend
  exact hd

theorem unary_sound (hE : Sound n top E) (htakes : Takes parsing n 1 E) (hfuel : n ≤ fuel) (depth : ℕ) :
    Sound (n + 1) 1 (unary fuel E depth) := by
  induction depth with
  | zero =>
    intro ts e rest hts hlen h
    cases h
  | succ depth ih =>
    intro ts e rest hts hlen h
    rw [unary] at h
    obtain ⟨at', mid₁, hat, h₁⟩ := StateExcept.bind_ok.mp h
    cases at' with
    | some t =>
      obtain ⟨target, mid₂, htarget, hend⟩ := StateExcept.bind_ok.mp h₁
      cases hend
      obtain ⟨rfl, ht⟩ := matchAny_some hat
      have ht : t.type = .AT := List.mem_singleton.mp ht
      exact .addressOf ht (ih _ _ _ (input_tail hts ht (by decide)) (by simp only [List.length_cons] at hlen; omega) htarget)
    | none =>
      obtain rfl := matchAny_none hat
      obtain ⟨op, mid₂, hop, h₂⟩ := StateExcept.bind_ok.mp h₁
      cases op with
      | some t =>
        obtain ⟨right, mid₃, hright, hend⟩ := StateExcept.bind_ok.mp h₂
        cases hend
        obtain ⟨rfl, ht⟩ := matchAny_some hop
        exact .unary ht (ih _ _ _ (parsing_tail hts (not_eof_of_mem ht (by decide)))
          (by simp only [List.length_cons] at hlen; omega) hright)
      | none =>
        obtain rfl := matchAny_none hop
        exact .tighter (call_sound hE htakes hfuel _ _ _ hts hlen h₂)

theorem binaryLevel_sound {k : ℕ} {operand : Parse Expr} (h : Sound n (k + 1) operand) :
    Sound n (k + 2) (binaryLevel fuel (operators k) operand) := by
  intro ts e rest hts hlen hread
  obtain ⟨e₀, mid, hfirst, hloop⟩ := StateExcept.bind_ok.mp hread
  have hcases : ∀ e mid r rest, Derives (k + 2) ts e mid → binaryTurn (operators k) operand e mid = .ok (r, rest) →
      (∃ e', r = .inl e' ∧ Derives (k + 2) ts e' rest) ∨ r = .inr e ∧ rest = mid := by
    intro e mid r rest hd hturn
    obtain ⟨op, mid₁, hop, h₁⟩ := StateExcept.bind_ok.mp hturn
    cases op with
    | some op =>
      obtain ⟨right, mid₂, hright, hend⟩ := StateExcept.bind_ok.mp h₁
      cases hend
      obtain ⟨rfl, htype⟩ := matchAny_some hop
      obtain ⟨hmid, hlt⟩ := hd.leaves hts
      exact .inl ⟨_, rfl, .binary hd htype (h _ _ _ (parsing_tail hmid (not_eof_of_mem htype (operators_not_eof k)))
        (by simp only [List.length_cons] at hlt; omega) hright)⟩
    | none =>
      cases h₁
      exact .inr ⟨rfl, matchAny_none hop⟩
  have hstep : ∀ e mid e' mid', Derives (k + 2) ts e mid → binaryTurn (operators k) operand e mid = .ok (.inl e', mid') →
      Derives (k + 2) ts e' mid' := by
    intro e mid e' mid' hd hturn
    rcases hcases _ _ _ _ hd hturn with ⟨e'', heq, hd'⟩ | ⟨heq, -⟩
    · cases heq
      exact hd'
    · cases heq
  obtain ⟨e', mid', hd, hend⟩ := loop_keeps hstep (.tighter (h _ _ _ hts hlen hfirst)) hloop
  rcases hcases _ _ _ _ hd hend with ⟨e'', heq, -⟩ | ⟨heq, rfl⟩
  · cases heq
  · cases heq
    exact hd

/-- The parser reads nothing that the grammar does not derive. -/
theorem expression_sound (n : ℕ) : Sound n top (expression n) := by
  induction n with
  | zero =>
    intro ts e rest hts hlen h
    cases h
  | succ n ih =>
    have hunary := unary_sound ih (takes_expression n) n.le_succ (n + 1)
    exact binaryLevel_sound (k := 9) (binaryLevel_sound (k := 8) (binaryLevel_sound (k := 7) (binaryLevel_sound (k := 6)
      (binaryLevel_sound (k := 5) (binaryLevel_sound (k := 4) (binaryLevel_sound (k := 3) (binaryLevel_sound (k := 2)
      (binaryLevel_sound (k := 1) (binaryLevel_sound (k := 0) hunary)))))))))

end Soundness

end Parser

end QuinLang
