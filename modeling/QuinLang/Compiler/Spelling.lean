import QuinLang.Compiler.Asm

/-! Type names as text: the compiler hands them about spelled, and takes a spelling apart
where it needs what is in it. On the spellings of type names these operations are those
on the names themselves. -/

namespace QuinLang

section Text

/-- `",".join(ss)`. -/
def join (ss : List (List Char)) : List Char := [','].intercalate ss

/-- `str.isidentifier()`: it takes ASCII letters and no parenthesis. -/
structure Identifiers where
  isidentifier : List Char → Bool
  letters : ∀ s, s ≠ [] → (∀ c ∈ s, c.isAlpha = true) → isidentifier s = true
  no_paren : ∀ s, isidentifier s = true → '(' ∉ s

inductive TypeNameError
  | unknownType (message : String)
  | outOfFuel
  deriving DecidableEq, Repr

def unknownType {α : Type} (message : String) : Except TypeNameError α := .error (.unknownType message)

def FUNC_PREFIX : List Char := ['f', 'n', '(']

/-- The loop of `split_top_level`, at a depth and with the part so far. -/
def splitLoop : List Char → ℤ → List Char → List (List Char)
  | [], _, part => [part]
  | c :: cs, depth, part =>
    if c = '(' ∨ c = '<' then splitLoop cs (depth + 1) (part ++ [c])
    else if c = ')' ∨ c = '>' then splitLoop cs (depth - 1) (part ++ [c])
    else if c = ',' ∧ depth = 0 then part :: splitLoop cs depth []
    else splitLoop cs depth (part ++ [c])

def splitTopLevel (s : List Char) : List (List Char) := (splitLoop s 0 []).map stripSpace

/-- The parenthesis that closes the depth reached: what stands before it and after it. -/
def closeLoop : List Char → ℤ → List Char → Option (List Char × List Char)
  | [], _, _ => none
  | c :: cs, depth, inner =>
    if c = '(' then closeLoop cs (depth + 1) (inner ++ [c])
    else if c = ')' then
      if depth - 1 = 0 then some (inner, cs) else closeLoop cs (depth - 1) (inner ++ [c])
    else closeLoop cs depth (inner ++ [c])

/-- What follows the parenthesis of a function type. -/
def returnName (name : List Char) : List Char → Except TypeNameError (List Char)
  | [] => .ok ['v', 'o', 'i', 'd']
  | ':' :: c :: cs => .ok (c :: cs)
  | _ => unknownType s!"Malformed function type '{String.ofList name}'"

/-- `func_signature_from_name`. -/
def funcSignature (name : List Char) : Except TypeNameError (Option (List (List Char) × List Char)) :=
  if FUNC_PREFIX.isPrefixOf name then
    match closeLoop (name.drop 3) 1 [] with
    | none => unknownType s!"Unbalanced '(' in function type '{String.ofList name}'"
    | some (inner, rest) => do
      let ret ← returnName name rest
      let params := if stripSpace inner = [] then [] else splitTopLevel inner
      if [] ∈ params then unknownType s!"Empty parameter type in function type '{String.ofList name}'"
      else return some (params, ret)
  else .ok none

variable (P : Identifiers)

/-- `generic_application`. -/
def genericApplication (name : List Char) : Except TypeNameError (Option (List Char × List (List Char))) :=
  if name.getLast? ≠ some '>' then .ok none
  else
    let base := name.takeWhile (· ≠ '<')
    if '<' ∉ name ∨ base = [] ∨ P.isidentifier base = false then .ok none
    else
      let args := splitTopLevel ((name.drop (base.length + 1)).dropLast)
      if [] ∈ args then unknownType s!"Empty type argument in '{String.ofList name}'"
      else .ok (some (base, args))

abbrev TextSubst := List (List Char × List Char)

def substituteLoop (subs : TextSubst) : ℕ → List Char → Except TypeNameError (List Char)
  | 0, _ => .error .outOfFuel
  | fuel + 1, name =>
    match subs.lookup name with
    | some type => .ok type
    | none => do
      match ← genericApplication P name with
      | some (base, args) =>
        let inner := join (← args.mapM (substituteLoop subs fuel))
        return base ++ '<' :: (inner ++ ['>'])
      | none =>
        match ← funcSignature name with
        | some (params, ret) =>
          let inner := join (← params.mapM (substituteLoop subs fuel))
          return FUNC_PREFIX ++ (inner ++ ')' :: ':' :: (← substituteLoop subs fuel ret))
        | none => return name

/-- `substitute_type_name`; what a spelling is taken apart into is shorter. -/
def substituteTypeText (name : List Char) (subs : TextSubst) : Except TypeNameError (List Char) :=
  substituteLoop P subs (name.length + 1) name

/-- `all(...)` of a match of each pair, which stops at the first that fails. -/
def unifyPairs (unify : List Char → List Char → TextSubst → Except TypeNameError Bool × TextSubst) :
    List (List Char × List Char) → TextSubst → Except TypeNameError Bool × TextSubst
  | [], subs => (.ok true, subs)
  | (pattern, actual) :: rest, subs =>
    match unify pattern actual subs with
    | (.ok true, subs') => unifyPairs unify rest subs'
    | r => r

variable (params : List (List Char))

/-- Two spellings that are not both applications. -/
def unifySignatures (unify : List Char → List Char → TextSubst → Except TypeNameError Bool × TextSubst)
    (pattern actual : List Char) (subs : TextSubst) : Except TypeNameError Bool × TextSubst :=
  match funcSignature pattern, funcSignature actual with
  | .error e, _ => (.error e, subs)
  | .ok _, .error e => (.error e, subs)
  | .ok none, .ok none => (.ok (pattern == actual), subs)
  | .ok (some (ps, r)), .ok (some (as, s)) =>
    if ps.length ≠ as.length then (.ok false, subs)
    else
      match unifyPairs unify (ps.zip as) subs with
      | (.ok true, subs') => unify r s subs'
      | r => r
  | .ok _, .ok _ => (.ok false, subs)

def unifyLoop : ℕ → List Char → List Char → TextSubst → Except TypeNameError Bool × TextSubst
  | 0, _, _, subs => (.error .outOfFuel, subs)
  | fuel + 1, pattern, actual, subs =>
    if pattern ∈ params then
      match subs.lookup pattern with
      | none => (.ok true, subs ++ [(pattern, actual)])
      | some bound => (.ok (bound == actual), subs)
    else
      match genericApplication P pattern, genericApplication P actual with
      | .error e, _ => (.error e, subs)
      | .ok _, .error e => (.error e, subs)
      | .ok none, .ok none => unifySignatures (unifyLoop fuel) pattern actual subs
      | .ok (some (base, ps)), .ok (some (base', as)) =>
        if base ≠ base' ∨ ps.length ≠ as.length then (.ok false, subs)
        else unifyPairs (unifyLoop fuel) (ps.zip as) subs
      | .ok _, .ok _ => (.ok false, subs)

/-- `unify_type_name`, with the bindings it leaves whether or not it succeeds. -/
def unifyTypeText (pattern actual : List Char) (subs : TextSubst) : Except TypeNameError Bool × TextSubst :=
  unifyLoop P params (pattern.length + 1) pattern actual subs

/-- `int(s)`, of however many digits. -/
def intOf (s : List Char) : Option ℤ :=
  match stripSpace (s.map asciiDigit) with
  | '-' :: digits => (parseDigits 10 true 0 digits).map fun n => -(n : ℤ)
  | '+' :: digits => (parseDigits 10 true 0 digits).map fun n => (n : ℤ)
  | digits => (parseDigits 10 true 0 digits).map fun n => (n : ℤ)

def ARRAY_PREFIX : List Char := ['i', 'n', 't', '[']

/-- `array_length_from_name`. -/
def arrayLengthFromText (name : List Char) : Except TypeNameError (Option ℕ) :=
  if ARRAY_PREFIX.isPrefixOf name = false ∨ name.getLast? ≠ some ']' then .ok none
  else
    let inner := (name.drop 4).dropLast
    match intOf inner with
    | none => unknownType s!"Invalid array length '{String.ofList inner}' in type '{String.ofList name}'"
    | some n =>
      if n ≤ 0 then unknownType s!"Array length must be positive, got {n} in type '{String.ofList name}'"
      else .ok (some n.toNat)

/-- `element_type_from_name`. -/
def elementTypeFromText (name : List Char) : Except TypeNameError (Option (List Char)) := do
  match ← genericApplication P name with
  | none => return none
  | some (base, args) =>
    if base ≠ ['A', 'r', 'r', 'a', 'y'] then return none
    else
      match args with
      | [element] => return some element
      | _ => unknownType s!"'Array' takes one element type, got {args.length} in '{String.ofList name}'"

/-- A parameter of the function type `whole`. -/
def paramFromText (whole : List Char) (ty : Ty) : Except TypeNameError Ty :=
  if ty = .void then unknownType s!"'void' is not a parameter type in '{String.ofList whole}'"
  else if ty.isFrameArray then unknownType s!"An array is not a parameter type in '{String.ofList whole}'"
  else if ty.isFrameRelative then
    unknownType (s!"'ptr' is not a parameter type in '{String.ofList whole}': it indexes the "
      ++ "frame it was taken in, so it names a different slot in the one it is passed to")
  else .ok ty

def returnFromText (whole : List Char) (params : List Ty) (ret : Ty) : Except TypeNameError Ty :=
  if ret.isFrameArray then unknownType s!"An array is not a return type in '{String.ofList whole}'"
  else if ret.isFrameRelative then
    unknownType (s!"'ptr' is not a return type in '{String.ofList whole}': the frame it indexes "
      ++ "is gone by the time the caller has it")
  else .ok (.func params ret)

/-- An element of the array type `whole`. -/
def elementFromText (whole : List Char) (element : Ty) : Except TypeNameError Ty :=
  if element = .void then unknownType s!"'void' is not an element type in '{String.ofList whole}'"
  else if element = .float then
    unknownType (s!"'float' is two words wide and an array counts elements, "
      ++ s!"so '{String.ofList whole}' is not a type")
  else if element.isFrameArray then
    unknownType (s!"An int[N] lives in a frame, not on the heap, so '{String.ofList whole}' "
      ++ "is not a type; use Array<Array<...>> instead")
  else .ok (.array element)

/-- A builtin, or what is declared under the name. -/
def declaredFromText (t : TypeTable) (name : List Char) : Except TypeNameError Ty :=
  match builtinType (String.ofList name) with
  | some s => .ok (.scalar s)
  | none =>
    match t.structs.find? fun i => i.name.spell.toList = name with
    | some i => .ok (.struct i.name)
    | none =>
      match t.enums.find? fun i => i.name.spell.toList = name with
      | some i => .ok (.enum i.name)
      | none => unknownType s!"Unknown type '{String.ofList name}'"

def typeFromLoop (t : TypeTable) : ℕ → List Char → Except TypeNameError Ty
  | 0, _ => .error .outOfFuel
  | fuel + 1, name => do
    match ← arrayLengthFromText name with
    | some n => return .frameArray n
    | none =>
      match ← funcSignature name with
      | some (params, ret) => do
        let params ← params.mapM fun param => do paramFromText name (← typeFromLoop t fuel param)
        returnFromText name params (← typeFromLoop t fuel ret)
      | none =>
        match ← elementTypeFromText P name with
        | some element => do elementFromText name (← typeFromLoop t fuel element)
        | none => declaredFromText t name

/-- `type_from_name`. -/
def typeFromText (t : TypeTable) (name : List Char) : Except TypeNameError Ty := typeFromLoop P t (name.length + 1) name

end Text

namespace TypeName

attribute [local simp] spell

/-- The characters of the spelling. -/
def letters (t : TypeName) : List Char := t.spell.toList

theorem spellList_toList (ts : List TypeName) : (spellList ts).toList = join (ts.map letters) := by
  induction ts with
  | nil => rfl
  | cons t ts ih =>
    cases ts with
    | nil => simp [spellList, join, letters]
    | cons u ts =>
      rw [spellList, String.toList_append, String.toList_append, ih]
      simp [join, letters, List.intercalate]

@[simp] theorem letters_named (n : String) : (named n).letters = n.toList := rfl

@[simp] theorem letters_app (base : String) (args : List TypeName) :
    (app base args).letters = base.toList ++ '<' :: (join (args.map letters) ++ ['>']) := by
  simp [letters, String.toList_append, spellList_toList]

@[simp] theorem letters_fn (params : List TypeName) (ret : TypeName) :
    (fn params ret).letters = FUNC_PREFIX ++ (join (params.map letters) ++ ')' :: ':' :: ret.letters) := by
  simp [letters, String.toList_append, spellList_toList, FUNC_PREFIX]

theorem letters_frameArray (n : ℕ) : (frameArray n).letters = ['i', 'n', 't', '['] ++ (Nat.toDigits 10 n ++ [']']) := by
  simp [letters, String.toList_append]
  rfl

end TypeName

section Pieces

/-- None of the characters that take a spelling apart. -/
def Plain (c : Char) : Prop := c ≠ '(' ∧ c ≠ ')' ∧ c ≠ '<' ∧ c ≠ '>' ∧ c ≠ ',' ∧ isSpace c = false

/-- Text that is passed over as a whole: no comma or closing bracket of it is at the depth
where it starts, and it has no space around it. -/
structure Piece (s : List Char) : Prop where
  split : ∀ rest depth part, 0 ≤ depth → splitLoop (s ++ rest) depth part = splitLoop rest depth (part ++ s)
  close : ∀ rest depth inner, 1 ≤ depth → closeLoop (s ++ rest) depth inner = closeLoop rest depth (inner ++ s)
  head : ∃ c cs, s = c :: cs ∧ isSpace c = false
  last : ∃ cs c, s = cs ++ [c] ∧ isSpace c = false

variable {s t : List Char} {ss : List (List Char)}

theorem Piece.ne_nil (h : Piece s) : s ≠ [] := by
  obtain ⟨c, cs, rfl, -⟩ := h.head
  exact List.cons_ne_nil _ _

theorem Piece.strip_eq (h : Piece s) : stripSpace s = s := by
  obtain ⟨c, cs, hs, hc⟩ := h.head
  obtain ⟨ds, d, hs', hd⟩ := h.last
  have hfront : s.dropWhile isSpace = s := by rw [hs, List.dropWhile_cons_of_neg (by simp [hc])]
  rw [stripSpace, hfront, hs', List.reverse_append, List.reverse_singleton, List.singleton_append,
    List.dropWhile_cons_of_neg (by simp [hd]), List.reverse_cons, List.reverse_reverse]

theorem splitLoop_plain (hs : ∀ c ∈ s, Plain c) (rest : List Char) (depth : ℤ) (part : List Char) :
    splitLoop (s ++ rest) depth part = splitLoop rest depth (part ++ s) := by
  induction s generalizing part with
  | nil => rw [List.append_nil, List.nil_append]
  | cons c s ih =>
    obtain ⟨h1, h2, h3, h4, h5, -⟩ := hs c List.mem_cons_self
    rw [List.cons_append, splitLoop, if_neg (by simp [h1, h3]), if_neg (by simp [h2, h4]), if_neg (by simp [h5]),
      ih (fun d hd => hs d (List.mem_cons_of_mem _ hd)), List.append_assoc]
    rfl

theorem closeLoop_plain (hs : ∀ c ∈ s, c ≠ '(' ∧ c ≠ ')') (rest : List Char) (depth : ℤ) (inner : List Char) :
    closeLoop (s ++ rest) depth inner = closeLoop rest depth (inner ++ s) := by
  induction s generalizing inner with
  | nil => rw [List.append_nil, List.nil_append]
  | cons c s ih =>
    obtain ⟨h1, h2⟩ := hs c List.mem_cons_self
    rw [List.cons_append, closeLoop, if_neg h1, if_neg h2, ih (fun d hd => hs d (List.mem_cons_of_mem _ hd)), List.append_assoc]
    rfl

theorem Piece.of_plain (hs : ∀ c ∈ s, Plain c) (hne : s ≠ []) : Piece s where
  split rest depth part _ := splitLoop_plain hs rest depth part
  close rest depth inner _ := closeLoop_plain (fun c hc => ⟨(hs c hc).1, (hs c hc).2.1⟩) rest depth inner
  head := by
    obtain ⟨c, cs, rfl⟩ := List.exists_cons_of_ne_nil hne
    exact ⟨c, cs, rfl, (hs c List.mem_cons_self).2.2.2.2.2⟩
  last := ⟨s.dropLast, s.getLast hne, (List.dropLast_append_getLast hne).symm, (hs _ (List.getLast_mem hne)).2.2.2.2.2⟩

theorem join_cons (s t : List Char) (ss : List (List Char)) : join (s :: t :: ss) = s ++ ',' :: join (t :: ss) := by
  simp [join, List.intercalate]

theorem join_singleton (s : List Char) : join [s] = s := by simp [join, List.intercalate]

/-- Joined pieces are split where they were joined. -/
theorem splitLoop_join (hs : ∀ s ∈ ss, Piece s) (hne : ss ≠ []) : splitLoop (join ss) 0 [] = ss := by
  induction ss with
  | nil => exact absurd rfl hne
  | cons s ss ih =>
    have hfirst := (hs s List.mem_cons_self).split
    cases ss with
    | nil =>
      have := hfirst [] 0 [] (le_refl _)
      rw [List.append_nil, List.nil_append] at this
      rw [join_singleton, this, splitLoop]
    | cons t ss =>
      rw [join_cons, hfirst _ _ _ (le_refl _), splitLoop, if_neg (by decide), if_neg (by decide), if_pos ⟨rfl, rfl⟩,
        ih (fun u hu => hs u (List.mem_cons_of_mem _ hu)) (List.cons_ne_nil _ _), List.nil_append]

theorem splitTopLevel_join (hs : ∀ s ∈ ss, Piece s) (hne : ss ≠ []) : splitTopLevel (join ss) = ss := by
  rw [splitTopLevel, splitLoop_join hs hne]
  exact (List.map_congr_left fun s hmem => (hs s hmem).strip_eq).trans (List.map_id _)

/-- Inside brackets joined pieces are passed over. -/
theorem splitLoop_inside (hs : ∀ s ∈ ss, Piece s) (rest : List Char) (depth : ℤ) (part : List Char) (hdepth : 1 ≤ depth) :
    splitLoop (join ss ++ rest) depth part = splitLoop rest depth (part ++ join ss) := by
  induction ss generalizing part with
  | nil => simp [join]
  | cons s ss ih =>
    have hfirst := (hs s List.mem_cons_self).split
    cases ss with
    | nil => rw [join_singleton, hfirst _ _ _ (by omega)]
    | cons t ss =>
      rw [join_cons, List.append_assoc, hfirst _ _ _ (by omega), List.cons_append, splitLoop, if_neg (by decide),
        if_neg (by decide), if_neg (fun h => by omega), ih (fun u hu => hs u (List.mem_cons_of_mem _ hu))]
      simp

theorem closeLoop_inside (hs : ∀ s ∈ ss, Piece s) (rest : List Char) (depth : ℤ) (inner : List Char) (hdepth : 1 ≤ depth) :
    closeLoop (join ss ++ rest) depth inner = closeLoop rest depth (inner ++ join ss) := by
  induction ss generalizing inner with
  | nil => simp [join]
  | cons s ss ih =>
    have hfirst := (hs s List.mem_cons_self).close
    cases ss with
    | nil => rw [join_singleton, hfirst _ _ _ hdepth]
    | cons t ss =>
      rw [join_cons, List.append_assoc, hfirst _ _ _ hdepth, List.cons_append, closeLoop, if_neg (by decide),
        if_neg (by decide), ih (fun u hu => hs u (List.mem_cons_of_mem _ hu))]
      simp

theorem Piece.app {base : List Char} (hbase : ∀ c ∈ base, Plain c) (hne : base ≠ []) (hs : ∀ s ∈ ss, Piece s) :
    Piece (base ++ '<' :: (join ss ++ ['>'])) where
  split rest depth part hdepth := by
    rw [List.append_assoc, splitLoop_plain hbase, List.cons_append, splitLoop, if_pos (by decide), List.append_assoc,
      splitLoop_inside hs _ _ _ (by omega), List.singleton_append, splitLoop, if_neg (by decide), if_pos (by decide)]
    simp
  close rest depth inner hdepth := by
    rw [List.append_assoc, closeLoop_plain (fun c hc => ⟨(hbase c hc).1, (hbase c hc).2.1⟩), List.cons_append, closeLoop,
      if_neg (by decide), if_neg (by decide), List.append_assoc, closeLoop_inside hs _ _ _ hdepth, List.singleton_append,
      closeLoop, if_neg (by decide), if_neg (by decide)]
    simp
  head := by
    obtain ⟨c, cs, rfl⟩ := List.exists_cons_of_ne_nil hne
    exact ⟨c, _, rfl, (hbase c List.mem_cons_self).2.2.2.2.2⟩
  last := ⟨base ++ '<' :: join ss, '>', by simp, by decide⟩

theorem Piece.fn (hs : ∀ s ∈ ss, Piece s) (ht : Piece t) : Piece (FUNC_PREFIX ++ (join ss ++ ')' :: ':' :: t)) where
  split rest depth part hdepth := by
    rw [List.append_assoc]
    simp only [FUNC_PREFIX, List.cons_append, List.nil_append, List.append_assoc]
    rw [splitLoop, if_neg (by decide), if_neg (by decide), if_neg (by simp), splitLoop, if_neg (by decide), if_neg (by decide),
      if_neg (by simp), splitLoop, if_pos (by decide), splitLoop_inside hs _ _ _ (by omega), splitLoop, if_neg (by decide),
      if_pos (by decide), splitLoop, if_neg (by decide), if_neg (by decide), if_neg (by simp), ht.split _ _ _ (by omega)]
    simp
  close rest depth inner hdepth := by
    rw [List.append_assoc]
    simp only [FUNC_PREFIX, List.cons_append, List.nil_append, List.append_assoc]
    rw [closeLoop, if_neg (by decide), if_neg (by decide), closeLoop, if_neg (by decide), if_neg (by decide), closeLoop,
      if_pos (by decide), closeLoop_inside hs _ _ _ (by omega), closeLoop, if_neg (by decide), if_pos (by decide),
      if_neg (by omega), closeLoop, if_neg (by decide), if_neg (by decide), ht.close _ _ _ (by omega)]
    simp
  head := ⟨'f', _, rfl, by decide⟩
  last := by
    obtain ⟨cs, c, rfl, hc⟩ := ht.last
    exact ⟨FUNC_PREFIX ++ (join ss ++ ')' :: ':' :: cs), c, by simp, hc⟩

end Pieces

section Names

/-- A name that takes no part in the spelling around it. -/
structure NameText (s : List Char) : Prop where
  ne_nil : s ≠ []
  plain : ∀ c ∈ s, Plain c
  no_bracket : '[' ∉ s

/-- Names are names, and what is applied has arguments. -/
inductive TypeName.Wellformed : TypeName → Prop
  | named {n : String} : NameText n.toList → Wellformed (.named n)
  | frameArray (length : ℕ) : Wellformed (.frameArray length)
  | app {base : String} {args : List TypeName} : NameText base.toList → args ≠ [] → (∀ t ∈ args, Wellformed t) →
      Wellformed (.app base args)
  | fn {params : List TypeName} {ret : TypeName} : (∀ t ∈ params, Wellformed t) → Wellformed ret → Wellformed (.fn params ret)

/-- Only identifiers are applied: no other application is ever instantiated. -/
inductive TypeName.Concrete (P : Identifiers) : TypeName → Prop
  | named (n : String) : Concrete P (.named n)
  | frameArray (length : ℕ) : Concrete P (.frameArray length)
  | app {base : String} {args : List TypeName} : P.isidentifier base.toList = true → (∀ t ∈ args, Concrete P t) →
      Concrete P (.app base args)
  | fn {params : List TypeName} {ret : TypeName} : (∀ t ∈ params, Concrete P t) → Concrete P ret → Concrete P (.fn params ret)

theorem plain_digit {c : Char} (h : c.isDigit = true) : Plain c := by
  simp only [Char.isDigit, Bool.and_eq_true, decide_eq_true_eq, UInt32.le_iff_toNat_le, ge_iff_le] at h
  have hn : c.val.toNat = c.toNat := rfl
  have hne (d : Char) (hd : d.toNat < 48 ∨ 57 < d.toNat) : c ≠ d := by
    rintro rfl
    simp at h
    omega
  refine ⟨hne _ (by decide), hne _ (by decide), hne _ (by decide), hne _ (by decide), hne _ (by decide), ?_⟩
  simp at h
  simp only [isSpace]
  simp
  omega

theorem frameArray_plain (n : ℕ) : ∀ c ∈ (TypeName.frameArray n).letters, Plain c := by
  have hall (cs : List Char) (h : ∀ c ∈ cs, c ∈ ['i', 'n', 't', '[', ']']) : ∀ c ∈ cs, Plain c := by
    intro c hc
    have hmem := h c hc
    simp only [List.mem_cons, List.not_mem_nil, or_false] at hmem
    rcases hmem with rfl | rfl | rfl | rfl | rfl <;> exact ⟨by decide, by decide, by decide, by decide, by decide, by decide⟩
  rw [TypeName.letters_frameArray]
  intro c hc
  rcases List.mem_append.mp hc with hc | hc
  · exact hall ['i', 'n', 't', '['] (by simp) c hc
  · rcases List.mem_append.mp hc with hc | hc
    · exact plain_digit (Nat.isDigit_of_mem_toDigits (by decide) (by decide) hc)
    · exact hall [']'] (by simp) c hc

theorem TypeName.Wellformed.piece {t : TypeName} (h : t.Wellformed) : Piece t.letters := by
  induction h with
  | named h => exact .of_plain h.plain h.ne_nil
  | frameArray n => exact .of_plain (frameArray_plain n) (by rw [TypeName.letters_frameArray]; simp)
  | app hbase _ _ ih =>
    rw [TypeName.letters_app]
    refine .app hbase.plain hbase.ne_nil fun s hs => ?_
    obtain ⟨t, ht, rfl⟩ := List.mem_map.mp hs
    exact ih t ht
  | fn _ _ ih hret =>
    rw [TypeName.letters_fn]
    refine .fn (fun s hs => ?_) hret
    obtain ⟨t, ht, rfl⟩ := List.mem_map.mp hs
    exact ih t ht

theorem pieces_of_wellformed {ts : List TypeName} (h : ∀ t ∈ ts, t.Wellformed) : ∀ s ∈ ts.map TypeName.letters, Piece s := by
  intro s hs
  obtain ⟨t, ht, rfl⟩ := List.mem_map.mp hs
  exact (h t ht).piece

variable {P : Identifiers} {base s t : List Char} {ss : List (List Char)}

theorem nil_notMem_pieces (hs : ∀ s ∈ ss, Piece s) : [] ∉ ss := fun h => (hs _ h).ne_nil rfl

theorem takeWhile_base (hbase : ∀ c ∈ base, Plain c) (rest : List Char) :
    (base ++ '<' :: rest).takeWhile (· ≠ '<') = base := by
  rw [List.takeWhile_append_of_pos fun c hc => by simp [(hbase c hc).2.2.1]]
  simp

-- Derives the equations once, for all the proofs below.
attribute [local simp] genericApplication

theorem genericApplication_app (hbase : NameText base) (hid : P.isidentifier base = true) (hs : ∀ s ∈ ss, Piece s)
    (hne : ss ≠ []) : genericApplication P (base ++ '<' :: (join ss ++ ['>'])) = .ok (some (base, ss)) := by
  have hlast : (base ++ '<' :: (join ss ++ ['>'])).getLast? = some '>' := by simp [List.getLast?_append, List.getLast?_cons]
  have hdrop : ((base ++ '<' :: (join ss ++ ['>'])).drop (base.length + 1)).dropLast = join ss := by
    rw [← List.drop_drop, List.drop_left]
    simp
  unfold genericApplication
  rw [if_neg (by simp [hlast]), takeWhile_base hbase.plain]
  dsimp only
  rw [if_neg (by simp [hbase.ne_nil, hid]), hdrop, splitTopLevel_join hs hne, if_neg (nil_notMem_pieces hs)]

/-- What is applied under another name is not taken apart. -/
theorem genericApplication_unnamed (hbase : NameText base) (hid : P.isidentifier base = false) (rest : List Char) :
    genericApplication P (base ++ '<' :: rest) = .ok none := by
  unfold genericApplication
  split
  · rfl
  · rw [takeWhile_base hbase.plain]
    dsimp only
    rw [if_pos (.inr (.inr hid))]

theorem genericApplication_fn (rest : List Char) : genericApplication P (FUNC_PREFIX ++ rest) = .ok none := by
  unfold genericApplication
  split
  · rfl
  · dsimp only
    rw [if_pos]
    refine .inr (.inr ?_)
    by_contra hid
    refine P.no_paren _ (by simpa using hid) ?_
    simp [FUNC_PREFIX]

theorem genericApplication_plain (hs : ∀ c ∈ s, Plain c) : genericApplication P s = .ok none := by
  unfold genericApplication
  rw [if_pos]
  intro hlast
  exact (hs _ (List.mem_of_getLast? hlast)).2.2.2.1 rfl

theorem strip_eq_nil (h : stripSpace s = []) : ∀ c ∈ s, isSpace c = true := by
  rw [stripSpace, List.reverse_eq_nil_iff, List.dropWhile_eq_nil_iff] at h
  intro c hc
  rw [← List.takeWhile_append_dropWhile (p := isSpace) (l := s)] at hc
  rcases List.mem_append.mp hc with hc | hc
  · exact List.mem_takeWhile_imp hc
  · exact h c (List.mem_reverse.mpr hc)

theorem strip_join_ne_nil (hs : ∀ s ∈ ss, Piece s) (hne : ss ≠ []) : stripSpace (join ss) ≠ [] := by
  obtain ⟨u, us, rfl⟩ := List.exists_cons_of_ne_nil hne
  obtain ⟨c, cs, rfl, hc⟩ := (hs u List.mem_cons_self).head
  intro h
  have hspace := strip_eq_nil h c (by cases us <;> simp [join_cons, join_singleton])
  rw [hc] at hspace
  cases hspace

theorem funcSignature_fn (hs : ∀ s ∈ ss, Piece s) (ht : Piece t) :
    funcSignature (FUNC_PREFIX ++ (join ss ++ ')' :: ':' :: t)) = .ok (some (ss, t)) := by
  have hpre : FUNC_PREFIX.isPrefixOf (FUNC_PREFIX ++ (join ss ++ ')' :: ':' :: t)) = true := by
    simp [List.isPrefixOf_iff_prefix]
  have hclose : closeLoop ((FUNC_PREFIX ++ (join ss ++ ')' :: ':' :: t)).drop 3) 1 [] = some (join ss, ':' :: t) := by
    show closeLoop (join ss ++ ')' :: ':' :: t) 1 [] = _
    rw [closeLoop_inside hs _ _ _ (le_refl _), closeLoop, if_neg (by decide), if_pos rfl, if_pos (by decide), List.nil_append]
  have hret (name : List Char) : returnName name (':' :: t) = .ok t := by
    obtain ⟨c, cs, rfl⟩ := List.exists_cons_of_ne_nil ht.ne_nil
    rfl
  have hparams : (if stripSpace (join ss) = [] then [] else splitTopLevel (join ss)) = ss := by
    by_cases hne : ss = []
    · subst hne
      rfl
    · rw [if_neg (strip_join_ne_nil hs hne), splitTopLevel_join hs hne]
  unfold funcSignature
  rw [if_pos hpre, hclose]
  dsimp only
  rw [hret]
  show (if [] ∈ (if stripSpace (join ss) = [] then [] else splitTopLevel (join ss)) then _ else
    Except.ok (some ((if stripSpace (join ss) = [] then [] else splitTopLevel (join ss)), t))) = _
  rw [hparams, if_neg (nil_notMem_pieces hs)]

theorem funcSignature_none (h : FUNC_PREFIX.isPrefixOf s = false) : funcSignature s = .ok none := if_neg (by simp [h])

theorem funcSignature_plain (hs : ∀ c ∈ s, Plain c) : funcSignature s = .ok none := by
  refine funcSignature_none ?_
  by_contra h
  obtain ⟨rest, rfl⟩ := List.isPrefixOf_iff_prefix.mp (Bool.not_eq_false _ ▸ h)
  exact (hs '(' (by simp [FUNC_PREFIX])).1 rfl

theorem funcSignature_app (hbase : NameText base) (rest : List Char) : funcSignature (base ++ '<' :: rest) = .ok none := by
  refine funcSignature_none ?_
  by_contra h
  obtain ⟨tail, heq⟩ := List.isPrefixOf_iff_prefix.mp (Bool.not_eq_false _ ▸ h)
  have hparen := (hbase.plain · · |>.1)
  obtain ⟨c, cs, rfl⟩ := List.exists_cons_of_ne_nil hbase.ne_nil
  rcases cs with _ | ⟨d, _ | ⟨e, cs⟩⟩
  · simp [FUNC_PREFIX] at heq
  · simp [FUNC_PREFIX] at heq
  · simp only [FUNC_PREFIX, List.cons_append, List.cons.injEq] at heq
    exact hparen e (by simp) heq.2.2.1.symm

end Names

end QuinLang
