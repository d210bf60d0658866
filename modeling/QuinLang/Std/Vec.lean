import QuinLang.Lib.ExceptState
import QuinLang.Runtime.State
import QuinLang.Std.MapRefinement

/-! `std/vec.ql`: vectors behind references. A program that is stopped keeps its vectors as
they are then. -/

namespace QuinLang.Std

open ExceptState

structure Vec (α : Type) where
  data : List α
  len : ℤ
  cap : ℤ
  deriving DecidableEq

/-- What a call does to the vectors, the newest last. -/
abbrev Act (α β : Type) := ExceptT Stop (StateM (List (Vec α))) β

namespace Vec

section Source

variable {α β σ : Type} (room : List (Vec α) → ℕ) (zero : α) (fuel : ℕ)

def ofRun (r : Run β) : Act α β := fun vs => (r, vs)

/-- The vector behind a reference. -/
def deref (v : ℕ) : Act α (Vec α) := fun vs =>
  match vs[v]? with
  | some x => (.ok x, vs)
  | none => (.error (.fault "Null pointer dereference reading a field"), vs)

def store (v : ℕ) (x : Vec α) : Act α Unit := fun vs => (.ok (), vs.set v x)

/-- The heap has no room for as many elements, or never has. -/
def Short (vs : List (Vec α)) (count : ℤ) : Prop := room vs < count ∨ HEAP_SIZE < HEAP_START + HEADER_BYTES + 2 * count

instance (vs : List (Vec α)) (count : ℤ) : Decidable (Short room vs count) := inferInstanceAs (Decidable (_ ∨ _))

/-- `array_new(count)`, on a heap that has room for as many elements. -/
def newArray (count : ℤ) : Act α (List α) := fun vs =>
  if count < 0 then (.error (.fault s!"Cannot build an array of {count} elements"), vs)
  else if Short room vs count then (.error (.fault "Heap out of memory"), vs)
  else (.ok (List.replicate count.toNat zero), vs)

/-- `v.data[i]` -/
def element (v : ℕ) (i : ℤ) : Act α α := do ofRun (arrayGet (← deref v).data i)

/-- `v.data[i] = value` -/
def setElement (v : ℕ) (i : ℤ) (value : α) : Act α Unit := do
  let x ← deref v
  store v { x with data := ← ofRun (arraySet x.data i value) }

/-- `for (let i = i; i < v.len; i = i + 1)`, until a turn returns from the function. -/
def forLen (v : ℕ) (body : ℤ → σ → Act α (σ ⊕ β)) : ℕ → ℤ → σ → Act α (σ ⊕ β)
  | 0, _, _ => throw .outOfFuel
  | fuel + 1, i, s => do
    if i < (← deref v).len then
      match ← body i s with
      | .inl s => forLen v body fuel (wrap16 (i + 1)) s
      | .inr b => return .inr b
    else return .inl s

def vec_new (capacity : ℤ) : Act α ℕ := do
  if capacity ≤ 0 then throw (.panic "vec_new needs a capacity of at least 1")
  else
    let data ← newArray room zero capacity
    fun vs => (.ok vs.length, vs ++ [{ data := data, len := 0, cap := capacity }])

def vec_get (v : ℕ) (index : ℤ) : Act α α := do
  if index < 0 ∨ index ≥ (← deref v).len then throw (.panic "vec_get index out of range") else element v index

def vec_try_get (v : ℕ) (index : ℤ) : Act α (Option α) := do
  if index < 0 ∨ index ≥ (← deref v).len then return none else return some (← element v index)

def vec_set (v : ℕ) (index : ℤ) (value : α) : Act α Unit := do
  if index < 0 ∨ index ≥ (← deref v).len then throw (.panic "vec_set index out of range") else setElement v index value

/-- A turn of the loop of `vec_grow`. -/
def copyTurn (v : ℕ) (i : ℤ) (fresh : List α) : Act α (List α ⊕ Empty) := do
  return .inl (← ofRun (arraySet fresh i (← element v i)))

def vec_grow (v : ℕ) : Act α Unit := do
  let x ← deref v
  let new_cap := wrap16 (x.cap * 2)
  if new_cap ≤ x.cap then throw (.panic "vec capacity overflow")
  else
    match ← forLen v (copyTurn v) fuel 0 (← newArray room zero new_cap) with
    | .inl fresh =>
      let x ← deref v
      store v { x with data := fresh, cap := new_cap }
    | .inr e => nomatch e

def vec_push (v : ℕ) (value : α) : Act α Unit := do
  let x ← deref v
  (if x.len = x.cap then vec_grow room zero fuel v else pure ())
  setElement v (← deref v).len value
  let x ← deref v
  store v { x with len := wrap16 (x.len + 1) }

def vec_of (value : α) : Act α ℕ := do
  let v ← vec_new room zero 1
  vec_push room zero fuel v value
  return v

def vec_pop (v : ℕ) : Act α α := do
  let x ← deref v
  if x.len = 0 then throw (.panic "vec_pop called on an empty vector")
  else
    store v { x with len := wrap16 (x.len - 1) }
    element v (← deref v).len

def vec_last (v : ℕ) : Act α α := do
  let x ← deref v
  if x.len = 0 then throw (.panic "vec_last called on an empty vector") else element v (wrap16 (x.len - 1))

def vec_clear (v : ℕ) : Act α Unit := do
  let x ← deref v
  store v { x with len := 0 }

/-- A turn of the loops of `vec_contains` and `vec_index_of`; `eq` is what `==` means for
the elements. -/
def searchTurn (eq : α → α → Bool) (v : ℕ) (value : α) (i : ℤ) (_ : Unit) : Act α (Unit ⊕ ℤ) := do
  if eq (← element v i) value then return .inr i else return .inl ()

def vec_contains (eq : α → α → Bool) (v : ℕ) (value : α) : Act α Bool := do
  match ← forLen v (searchTurn eq v value) fuel 0 () with
  | .inr _ => return true
  | .inl _ => return false

def vec_index_of (eq : α → α → Bool) (v : ℕ) (value : α) : Act α ℤ := do
  match ← forLen v (searchTurn eq v value) fuel 0 () with
  | .inr i => return i
  | .inl _ => return wrap16 (0 - 1)

/-- The loop of `vec_reverse`. -/
def reverseFrom (v : ℕ) : ℕ → ℤ → ℤ → Act α Unit
  | 0, _, _ => throw .outOfFuel
  | fuel + 1, i, j => do
    if i < j then
      let a ← element v i
      setElement v i (← element v j)
      setElement v j a
      reverseFrom v fuel (wrap16 (i + 1)) (wrap16 (j - 1))
    else return ()

def vec_reverse (v : ℕ) : Act α Unit := do reverseFrom v fuel 0 (wrap16 ((← deref v).len - 1))

/-- A turn of the loops of `vec_map` and `vec_filter`: `f` says what becomes of an element. -/
def pushTurn (f : α → Option α) (v out : ℕ) (i : ℤ) (_ : Unit) : Act α (Unit ⊕ Empty) := do
  match f (← element v i) with
  | some b =>
    vec_push room zero fuel out b
    return .inl ()
  | none => return .inl ()

def pushAll (f : α → Option α) (v : ℕ) : Act α ℕ := do
  let out ← vec_new room zero (wrap16 ((← deref v).len + 1))
  let _ ← forLen v (pushTurn room zero fuel f v out) fuel 0 ()
  return out

def vec_map (v : ℕ) (f : α → α) : Act α ℕ := pushAll room zero fuel (fun a => some (f a)) v

def vec_filter (v : ℕ) (keep : α → Bool) : Act α ℕ := pushAll room zero fuel (fun a => if keep a then some a else none) v

end Source

/-- A vector between two calls. -/
structure Inv (x : Vec α) : Prop where
  len : 0 ≤ x.len
  room : x.len ≤ x.cap
  pos : 1 ≤ x.cap
  cap : x.cap = x.data.length
  fits : x.data.length ≤ 32765

/-- The list a vector stands for. -/
def contents (x : Vec α) : List α := x.data.take x.len.toNat

section Acts

variable {α β γ : Type} {vs vs' : List (Vec α)} {v : ℕ} {x : Vec α}

theorem deref_ok (h : vs[v]? = some x) : deref v vs = (.ok x, vs) := by
  rw [deref, h]

theorem element_ok (h : vs[v]? = some x) {i : ℕ} (hi : i < x.data.length) : element v (i : ℤ) vs = (.ok x.data[i], vs) := by
  rw [element, bind_ok (deref_ok h), ofRun, arrayGet_ok (List.getElem?_eq_getElem hi)]

theorem setElement_ok (h : vs[v]? = some x) {i : ℕ} (hi : i < x.data.length) (a : α) :
    setElement v (i : ℤ) a vs = (.ok (), vs.set v { x with data := x.data.set i a }) := by
  rw [setElement, bind_ok (deref_ok h), arraySet_ok hi]
  rfl

theorem getElem?_set_some (h : vs[v]? = some x) (y : Vec α) : (vs.set v y)[v]? = some y := by
  obtain ⟨hlt, -⟩ := List.getElem?_eq_some_iff.mp h
  rw [List.getElem?_set_self hlt]

theorem set_self (h : vs[v]? = some x) : vs.set v x = vs := by
  obtain ⟨hlt, rfl⟩ := List.getElem?_eq_some_iff.mp h
  exact List.set_getElem_self hlt

theorem Inv.length_contents (hx : x.Inv) : (x.contents.length : ℤ) = x.len := by
  have hroom := hx.room
  have hcap := hx.cap
  have hlen := hx.len
  rw [contents, List.length_take]
  omega

/-- A vector with `n` elements. -/
theorem Inv.exists_len (hx : x.Inv) : ∃ n : ℕ, x.len = n ∧ n ≤ x.data.length ∧ x.contents = x.data.take n ∧ x.contents.length = n := by
  have hroom := hx.room
  have hcap := hx.cap
  have hlen := hx.length_contents
  refine ⟨x.contents.length, hlen.symm, by omega, ?_, rfl⟩
  conv_lhs => rw [contents, ← hlen, Int.toNat_natCast]

end Acts

section Loops

variable {α β σ : Type} {vs : List (Vec α)} {v : ℕ} {x : Vec α} {n : ℕ}

/-- A loop none of whose turns fails or returns from the function. -/
theorem forLen_returns (body : ℤ → σ → Act α (σ ⊕ β)) (fuel : ℕ) (hn : n ≤ 0x7FFF) {P : ℕ → σ → List (Vec α) → Prop}
    (hlen : ∀ i s vs, P i s vs → ∃ x, vs[v]? = some x ∧ x.len = n)
    (hbody : ∀ i s vs, i < n → P i s vs → ∃ s' vs', body i s vs = (.ok (.inl s'), vs') ∧ P (i + 1) s' vs')
    {i : ℕ} {s : σ} (hi : i ≤ n) (hfuel : n - i < fuel) (hs : P i s vs) :
    ∃ s' vs', forLen v body fuel i s vs = (.ok (.inl s'), vs') ∧ P n s' vs' := by
  induction fuel generalizing i s vs with
  | zero => omega
  | succ fuel ih =>
    obtain ⟨x, hx, hxlen⟩ := hlen i s vs hs
    rw [forLen, bind_ok (deref_ok hx), hxlen]
    rcases hi.lt_or_eq with hlt | rfl
    · obtain ⟨s', vs', hturn, hs'⟩ := hbody i s vs hlt hs
      obtain ⟨s'', vs'', hrest, hs''⟩ := ih hlt (by omega) hs'
      refine ⟨s'', vs'', ?_, hs''⟩
      rw [if_pos (by omega), bind_ok hturn, wrap16_succ (by omega)]
      exact hrest
    · refine ⟨s, vs, ?_, hs⟩
      rw [if_neg (lt_irrefl _)]
      rfl

theorem take_succ_set {xs : List α} {i : ℕ} (hi : i < xs.length) (a : α) : (xs.set i a).take (i + 1) = xs.take i ++ [a] := by
  rw [List.take_add_one, List.getElem?_set_self hi, List.take_set_of_le le_rfl]
  rfl

/-- The loop of `vec_grow` copies the elements. -/
theorem copy_ok (h : vs[v]? = some x) (hlen : x.len = n) (hn : n ≤ x.data.length) (hmax : n ≤ 0x7FFF) {fresh : List α}
    (hfresh : n ≤ fresh.length) {fuel : ℕ} (hfuel : n < fuel) :
    ∃ fresh', forLen v (copyTurn v) fuel 0 fresh vs = (.ok (.inl fresh'), vs) ∧ fresh'.length = fresh.length ∧
      fresh'.take n = x.data.take n := by
  obtain ⟨fresh', vs', hrun, rfl, hl, htake⟩ := forLen_returns (copyTurn v) fuel hmax
    (P := fun i (f : List α) ws => ws = vs ∧ f.length = fresh.length ∧ f.take i = x.data.take i)
    (fun i s ws hP => ⟨x, hP.1 ▸ h, hlen⟩) (by
      rintro i f ws hi ⟨rfl, hl, htake⟩
      refine ⟨f.set i x.data[i], ws, ?_, rfl, by rw [List.length_set, hl], ?_⟩
      · rw [copyTurn, bind_ok (element_ok h (by omega)), arraySet_ok (by omega)]
        rfl
      · rw [take_succ_set (by omega), htake, List.take_add_one, List.getElem?_eq_getElem (by omega)]
        rfl)
    (Nat.zero_le n) hfuel ⟨rfl, rfl, rfl⟩
  exact ⟨fresh', hrun, hl, htake⟩

/-- The loop of the searches ends at the first element that is equal. -/
theorem search_ok (h : vs[v]? = some x) (hlen : x.len = n) (hn : n ≤ x.data.length) (hmax : n ≤ 0x7FFF) (eq : α → α → Bool)
    (value : α) {fuel i : ℕ} (hi : i ≤ n) (hfuel : n - i < fuel) :
    forLen v (searchTurn eq v value) fuel i () vs =
      (.ok (match ((x.data.take n).drop i).findIdx? (eq · value) with
        | some k => .inr ((i + k : ℕ) : ℤ)
        | none => .inl ()), vs) := by
  induction fuel generalizing i with
  | zero => omega
  | succ fuel ih =>
    rw [forLen, bind_ok (deref_ok h), hlen]
    rcases hi.lt_or_eq with hlt | rfl
    · have hdrop : (x.data.take n).drop i = x.data[i] :: (x.data.take n).drop (i + 1) := by
        rw [List.drop_eq_getElem_cons (by rw [List.length_take]; omega), List.getElem_take]
      rw [if_pos (by omega), hdrop, List.findIdx?_cons]
      by_cases heq : eq x.data[i] value = true
      · have hturn : searchTurn eq v value i () vs = (.ok (.inr (i : ℤ)), vs) := by
          rw [searchTurn, bind_ok (element_ok h (by omega)), if_pos heq]
          rfl
        rw [bind_ok hturn, if_pos heq]
        rfl
      · have hturn : searchTurn eq v value i () vs = (.ok (.inl ()), vs) := by
          rw [searchTurn, bind_ok (element_ok h (by omega)), if_neg heq]
          rfl
        rw [bind_ok hturn, if_neg heq]
        dsimp only
        rw [wrap16_succ (by omega), ih hlt (by omega)]
        cases ((x.data.take n).drop (i + 1)).findIdx? (eq · value) with
        | none => rfl
        | some k =>
          simp only [Option.map_some]
          congr 4
          omega
    · rw [if_neg (lt_irrefl _), List.drop_of_length_le (by rw [List.length_take]; omega)]
      rfl

theorem swap_ends (A M B : List α) (a b : α) :
    ((A ++ a :: (M ++ b :: B)).set A.length b).set (A.length + M.length + 1) a = A ++ b :: (M ++ a :: B) := by
  rw [List.set_append_right _ _ le_rfl, Nat.sub_self, List.set_cons_zero, List.set_append_right _ _ (by omega)]
  have hindex : A.length + M.length + 1 - A.length = M.length + 1 := by omega
  rw [hindex, List.set_cons_succ, List.set_append_right _ _ le_rfl, Nat.sub_self, List.set_cons_zero]

/-- The loop of `vec_reverse` reverses the elements between its two indices. -/
theorem reverseFrom_ok (M : List α) {A B : List α} (h : vs[v]? = some x) (hmax : x.data.length ≤ 0x7FFF)
    (hdata : x.data = A ++ (M ++ B)) {fuel : ℕ} (hfuel : M.length < fuel) :
    reverseFrom v fuel A.length (A.length + M.length - 1) vs = (.ok (), vs.set v { x with data := A ++ (M.reverse ++ B) }) := by
  induction M using List.bidirectionalRec generalizing A B fuel vs x with
  | nil =>
    obtain ⟨fuel, rfl⟩ := Nat.exists_eq_succ_of_ne_zero (Nat.ne_of_gt hfuel)
    rw [reverseFrom, if_neg (by simp), List.reverse_nil, ← hdata]
    exact congrArg (Prod.mk _) (set_self h).symm
  | singleton a =>
    obtain ⟨fuel, rfl⟩ := Nat.exists_eq_succ_of_ne_zero (Nat.ne_of_gt (Nat.zero_lt_of_lt hfuel))
    rw [reverseFrom, if_neg (by simp), List.reverse_singleton, ← hdata]
    exact congrArg (Prod.mk _) (set_self h).symm
  | cons_append a M b ih =>
    obtain ⟨fuel, rfl⟩ := Nat.exists_eq_succ_of_ne_zero (Nat.ne_of_gt (Nat.zero_lt_of_lt hfuel))
    have hdata' : x.data = A ++ a :: (M ++ b :: B) := by rw [hdata]; simp
    have hsize : x.data.length = A.length + M.length + B.length + 2 := by
      rw [hdata']
      simp only [List.length_append, List.length_cons]
      omega
    have hj : (A.length : ℤ) + (a :: (M ++ [b])).length - 1 = ((A.length + M.length + 1 : ℕ) : ℤ) := by
      simp only [List.length_append, List.length_cons, List.length_nil]
      omega
    have hlow : A.length < x.data.length := by omega
    have hhigh : A.length + M.length + 1 < x.data.length := by omega
    have hleft : x.data[A.length] = a := by simp [hdata']
    have hright : x.data[A.length + M.length + 1] = b := by
      have hindex : A.length + M.length + 1 = A.length + (M.length + 1) := by omega
      simp [hdata', hindex]
    have hmid := getElem?_set_some h { x with data := x.data.set A.length b }
    have hswap : (x.data.set A.length b).set (A.length + M.length + 1) a = (A ++ [b]) ++ (M ++ a :: B) := by
      rw [hdata', swap_ends, List.append_assoc]
      rfl
    have hfuel' : M.length < fuel := by
      simp only [List.length_append, List.length_cons, List.length_nil] at hfuel
      omega
    have hnext := ih (A := A ++ [b]) (B := a :: B)
      (getElem?_set_some (getElem?_set_some h { x with data := x.data.set A.length b })
        { x with data := (x.data.set A.length b).set (A.length + M.length + 1) a })
      (by simpa using hmax) hswap hfuel'
    rw [hj, reverseFrom, if_pos (by omega), bind_ok (element_ok h (by omega)), bind_ok (element_ok h (by omega)), hleft, hright,
      bind_ok (setElement_ok h (by omega) b), bind_ok (setElement_ok hmid (by rw [List.length_set]; omega) a), wrap16_succ (by omega)]
    have hback : wrap16 (((A.length + M.length + 1 : ℕ) : ℤ) - 1) = ((A ++ [b]).length : ℤ) + M.length - 1 := by
      rw [wrap16_of_range (by omega) (by omega)]
      simp only [List.length_append, List.length_singleton]
      omega
    have hup : ((A.length + 1 : ℕ) : ℤ) = ((A ++ [b]).length : ℤ) := by simp
    rw [hback, hup, hnext, List.set_set, List.set_set]
    simp

end Loops

section Operations

variable {α : Type} (room : List (Vec α) → ℕ) (zero : α) (fuel : ℕ) {vs : List (Vec α)} {v : ℕ} {x : Vec α}

theorem newArray_cases (count : ℕ) (vs : List (Vec α)) :
    newArray room zero count vs = (.error (.fault "Heap out of memory"), vs) ∧ Short room vs count ∨
      newArray room zero count vs = (.ok (List.replicate count zero), vs) ∧ count ≤ 32765 := by
  rw [newArray, if_neg (by omega)]
  split
  · next hshort => exact .inl ⟨rfl, hshort⟩
  · next hroom =>
    refine .inr ⟨rfl, ?_⟩
    have hfits : ¬(HEAP_SIZE : ℤ) < HEAP_START + HEADER_BYTES + 2 * count := fun h => hroom (.inr h)
    simp only [HEAP_SIZE, HEAP_START, HEADER_BYTES, NULL_ADDR] at hfits
    omega

theorem vec_new_panics {capacity : ℤ} (h : capacity ≤ 0) :
    vec_new room zero capacity vs = (.error (.panic "vec_new needs a capacity of at least 1"), vs) := by
  rw [vec_new, if_pos h]
  rfl

theorem vec_new_cases (vs : List (Vec α)) {capacity : ℤ} (h : 0 < capacity) :
    vec_new room zero capacity vs = (.error (.fault "Heap out of memory"), vs) ∧ Short room vs capacity ∨
      ∃ x : Vec α, vec_new room zero capacity vs = (.ok vs.length, vs ++ [x]) ∧ x.Inv ∧ x.contents = [] ∧ x.cap = capacity := by
  obtain ⟨count, rfl⟩ := Int.eq_ofNat_of_zero_le h.le
  rw [vec_new, if_neg (by omega)]
  rcases newArray_cases room zero count vs with ⟨hmem, hshort⟩ | ⟨hnew, hfits⟩
  · exact .inl ⟨bind_error hmem, hshort⟩
  · refine .inr ⟨⟨List.replicate count zero, 0, count⟩, ?_, ⟨le_rfl, h.le, h, ?_, ?_⟩, rfl, rfl⟩
    · rw [bind_ok hnew]
    · rw [List.length_replicate]
    · rw [List.length_replicate]
      exact hfits

/-- A vector with an element more. -/
theorem vec_push_room (h : vs[v]? = some x) (hx : x.Inv) (hroom : x.len < x.cap) (value : α) :
    ∃ y : Vec α, vec_push room zero fuel v value vs = (.ok (), vs.set v y) ∧ y.Inv ∧ y.contents = x.contents ++ [value] ∧
      y.cap = x.cap := by
  obtain ⟨n, hn, hle, hcontents, -⟩ := hx.exists_len
  have hcap := hx.cap
  have hfits := hx.fits
  have hset := setElement_ok h (show n < x.data.length by omega) value
  have hself := getElem?_set_some h { x with data := x.data.set n value }
  refine ⟨{ x with data := x.data.set n value, len := wrap16 (x.len + 1) }, ?_, ⟨?_, ?_, hx.pos, ?_, ?_⟩, ?_, rfl⟩
  · have hfull : (if x.len = x.cap then vec_grow room zero fuel v else pure ()) vs = (.ok (), vs) := by
      rw [if_neg hroom.ne]
      rfl
    rw [vec_push, bind_ok (deref_ok h), bind_ok hfull, bind_ok (deref_ok h), hn, bind_ok hset, bind_ok (deref_ok hself), store,
      List.set_set, hn]
  · rw [hn, wrap16_succ (by omega)]
    exact Int.natCast_nonneg _
  · rw [hn, wrap16_succ (by omega)]
    push_cast
    omega
  · rw [List.length_set, hcap]
  · rw [List.length_set]
    exact hfits
  · rw [contents, hn, wrap16_succ (by omega), Int.toNat_natCast, take_succ_set (by omega), hcontents]

/-- A vector with twice the room, if there can be one. -/
theorem vec_grow_cases {fuel : ℕ} (h : vs[v]? = some x) (hx : x.Inv) (hfuel : 32765 < fuel) :
    vec_grow room zero fuel v vs = (.error (.fault "Heap out of memory"), vs) ∧ x.cap < 0x4000 ∧ Short room vs (x.cap * 2) ∨
      vec_grow room zero fuel v vs = (.error (.panic "vec capacity overflow"), vs) ∧ 0x4000 ≤ x.cap ∨
      x.cap < 0x4000 ∧ ∃ y : Vec α, vec_grow room zero fuel v vs = (.ok (), vs.set v y) ∧ y.Inv ∧ y.contents = x.contents ∧
        y.len = x.len ∧ y.cap = x.cap * 2 := by
  obtain ⟨n, hn, hle, hcontents, -⟩ := hx.exists_len
  have hcap := hx.cap
  have hfits := hx.fits
  have hpos := hx.pos
  rw [vec_grow, bind_ok (deref_ok h)]
  rcases lt_or_ge x.cap 0x4000 with hsmall | hlarge
  · have hdouble : wrap16 (x.cap * 2) = ((x.data.length * 2 : ℕ) : ℤ) := by
      rw [wrap16_of_range (by omega) (by omega), hcap]
      push_cast
      rfl
    rw [hdouble, if_neg (by omega)]
    rcases newArray_cases room zero (x.data.length * 2) vs with ⟨hmem, hshort⟩ | ⟨hnew, hfits'⟩
    · exact .inl ⟨bind_error hmem, hsmall, by rw [hcap]; exact_mod_cast hshort⟩
    · obtain ⟨fresh, hcopy, hlen, htake⟩ := copy_ok h hn hle (by omega)
        (show n ≤ (List.replicate (x.data.length * 2) zero).length by rw [List.length_replicate]; omega) (show n < fuel by omega)
      rw [List.length_replicate] at hlen
      refine .inr (.inr ⟨hsmall, { x with data := fresh, cap := ((x.data.length * 2 : ℕ) : ℤ) }, ?_, ⟨hx.len, ?_, ?_, ?_, ?_⟩, ?_, rfl, ?_⟩)
      · rw [bind_ok hnew, bind_ok hcopy]
        exact bind_ok (deref_ok h)
      · change x.len ≤ ((x.data.length * 2 : ℕ) : ℤ)
        omega
      · change (1 : ℤ) ≤ ((x.data.length * 2 : ℕ) : ℤ)
        omega
      · rw [hlen]
      · rw [hlen]
        exact hfits'
      · rw [hcontents, ← htake, contents, hn, Int.toNat_natCast]
      · rw [hcap]
        push_cast
        rfl
  · have hwrap : wrap16 (x.cap * 2) ≤ x.cap := by
      unfold wrap16
      split <;> omega
    rw [if_pos hwrap]
    exact .inr (.inl ⟨rfl, hlarge⟩)

theorem vec_push_cases {fuel : ℕ} (h : vs[v]? = some x) (hx : x.Inv) (hfuel : 32765 < fuel) (value : α) :
    vec_push room zero fuel v value vs = (.error (.fault "Heap out of memory"), vs) ∧ x.len = x.cap ∧ x.cap < 0x4000 ∧
        Short room vs (x.cap * 2) ∨
      vec_push room zero fuel v value vs = (.error (.panic "vec capacity overflow"), vs) ∧ x.len = x.cap ∧ 0x4000 ≤ x.cap ∨
      ¬(x.len = x.cap ∧ 0x4000 ≤ x.cap) ∧ ∃ y : Vec α, vec_push room zero fuel v value vs = (.ok (), vs.set v y) ∧ y.Inv ∧
        y.contents = x.contents ++ [value] ∧ y.cap = if x.len = x.cap then x.cap * 2 else x.cap := by
  by_cases hfull : x.len = x.cap
  · have hpush : vec_push room zero fuel v value vs =
        (vec_grow room zero fuel v >>= fun _ => do
          setElement v (← deref v).len value
          let x ← deref v
          store v { x with len := wrap16 (x.len + 1) }) vs := by
      rw [vec_push, bind_ok (deref_ok h), if_pos hfull]
    rcases vec_grow_cases room zero h hx hfuel with ⟨hmem, hshort⟩ | ⟨hpanic, hlarge⟩ | ⟨hsmall, y, hgrow, hy, hcontents, hlen, hcap⟩
    · rw [hpush]
      exact .inl ⟨bind_error hmem, hfull, hshort⟩
    · rw [hpush]
      exact .inr (.inl ⟨bind_error hpanic, hfull, hlarge⟩)
    · have hpos := hx.pos
      have hself := getElem?_set_some h y
      obtain ⟨z, hz, hzinv, hzcontents, hzcap⟩ := vec_push_room room zero fuel hself hy (by omega) value
      refine .inr (.inr ⟨fun hno => by omega, z, ?_, hzinv, by rw [hzcontents, hcontents], by rw [hzcap, hcap, if_pos hfull]⟩)
      have hroom : ¬y.len = y.cap := by omega
      rw [vec_push, bind_ok (deref_ok hself), if_neg hroom] at hz
      rw [hpush, bind_ok hgrow, ← List.set_set (l := vs) (i := v) (a := y) (b := z), ← hz]
      rfl
  · have hroom := hx.room
    obtain ⟨y, hy, hyinv, hycontents, hycap⟩ := vec_push_room room zero fuel h hx (by omega) value
    exact .inr (.inr ⟨fun hno => hfull hno.1, y, hy, hyinv, hycontents, by rw [hycap, if_neg hfull]⟩)

theorem getElem?_concat (vs : List (Vec α)) (y : Vec α) : (vs ++ [y])[vs.length]? = some y := by
  rw [List.getElem?_append_right le_rfl, Nat.sub_self]
  rfl

theorem set_concat (vs : List (Vec α)) (y z : Vec α) : (vs ++ [y]).set vs.length z = vs ++ [z] := by
  rw [List.set_append_right _ _ le_rfl, Nat.sub_self]
  rfl

/-- The new vector has what becomes of the elements, and the one it is made from stays. -/
theorem pushAll_cases {fuel : ℕ} (h : vs[v]? = some x) (hx : x.Inv) (hfuel : 32765 < fuel) (f : α → Option α) :
    pushAll room zero fuel f v vs = (.error (.fault "Heap out of memory"), vs) ∧ Short room vs (x.len + 1) ∨
      ∃ y : Vec α, pushAll room zero fuel f v vs = (.ok vs.length, vs ++ [y]) ∧ y.Inv ∧ y.contents = x.contents.filterMap f ∧
        y.cap = x.len + 1 := by
  obtain ⟨n, hn, hle, hcontents, -⟩ := hx.exists_len
  have hfits := hx.fits
  rw [pushAll, bind_ok (deref_ok h), hn, wrap16_succ (by omega)]
  rcases vec_new_cases room zero vs (show (0 : ℤ) < ((n + 1 : ℕ) : ℤ) by omega) with ⟨hmem, hshort⟩ | ⟨y, hnew, hy, hempty, hcap⟩
  · exact .inl ⟨bind_error hmem, by exact_mod_cast hshort⟩
  · have hturns : ∃ s ws, forLen v (pushTurn room zero fuel f v vs.length) fuel (0 : ℕ) () (vs ++ [y]) = (.ok (.inl s), ws) ∧
        ∃ z : Vec α, ws = vs ++ [z] ∧ z.Inv ∧ z.cap = ((n + 1 : ℕ) : ℤ) ∧ z.contents = (x.data.take n).filterMap f := by
      refine forLen_returns (pushTurn room zero fuel f v vs.length) fuel (show n ≤ 0x7FFF by omega)
        (P := fun i _ ws => ∃ z : Vec α, ws = vs ++ [z] ∧ z.Inv ∧ z.cap = ((n + 1 : ℕ) : ℤ) ∧ z.contents = (x.data.take i).filterMap f)
        ?_ ?_ (Nat.zero_le n) (by omega) ⟨y, rfl, hy, hcap, hempty⟩
      · rintro i - ws ⟨z, rfl, -⟩
        exact ⟨x, List.getElem?_append_left (List.getElem?_eq_some_iff.mp h).1 ▸ h, hn⟩
      · rintro i - ws hi ⟨z, rfl, hz, hzcap, hzcontents⟩
        have hv : (vs ++ [z])[v]? = some x := List.getElem?_append_left (List.getElem?_eq_some_iff.mp h).1 ▸ h
        have hin : i < x.data.length := by omega
        have hnext : (x.data.take (i + 1)).filterMap f = (x.data.take i).filterMap f ++ (f x.data[i]).toList := by
          rw [List.take_add_one, List.getElem?_eq_getElem (by omega), Option.toList_some, List.filterMap_append]
          cases hfi : f x.data[i] <;> simp [hfi]
        rw [pushTurn, bind_ok (element_ok hv hin)]
        cases hfi : f x.data[i] with
        | none =>
          refine ⟨(), vs ++ [z], rfl, z, rfl, hz, hzcap, ?_⟩
          rw [hnext, hfi, Option.toList_none, List.append_nil, hzcontents]
        | some b =>
          have hshort : z.contents.length ≤ i := by
            rw [hzcontents]
            exact (List.length_filterMap_le _ _).trans (by rw [List.length_take]; omega)
          have hzlen := hz.length_contents
          obtain ⟨w, hpush, hw, hwcontents, hwcap⟩ := vec_push_room room zero fuel (getElem?_concat vs z) hz (by omega) b
          refine ⟨(), vs ++ [w], ?_, w, rfl, hw, hwcap.trans hzcap, ?_⟩
          · exact (bind_ok hpush).trans (by rw [set_concat]; rfl)
          · rw [hnext, hfi, Option.toList_some, hwcontents, hzcontents]
    obtain ⟨s, ws, hrun, z, rfl, hz, hzcap, hzcontents⟩ := hturns
    refine .inr ⟨z, ?_, hz, by rw [hzcontents, hcontents], by rw [hzcap]; push_cast; rfl⟩
    rw [bind_ok hnew]
    exact bind_ok hrun

end Operations

/-- A call of one of the functions, on vectors given by their references. -/
inductive Call (α : Type)
  | new (zero : α) (capacity : ℤ)
  | of (zero value : α)
  | push (zero : α) (v : ℕ) (value : α)
  | pop (v : ℕ)
  | get (v : ℕ) (index : ℤ)
  | try_get (v : ℕ) (index : ℤ)
  | set (v : ℕ) (index : ℤ) (value : α)
  | last (v : ℕ)
  | clear (v : ℕ)
  | contains (eq : α → α → Bool) (v : ℕ) (value : α)
  | index_of (eq : α → α → Bool) (v : ℕ) (value : α)
  | reverse (v : ℕ)
  | map (zero : α) (v : ℕ) (f : α → α)
  | filter (zero : α) (v : ℕ) (keep : α → Bool)

inductive Answer (α : Type)
  | void
  | vec (v : ℕ)
  | value (a : α)
  | option (a : Option α)
  | bool (b : Bool)
  | int (i : ℤ)
  deriving DecidableEq

section Calls

variable {α : Type} (room : List (Vec α) → ℕ) (fuel : ℕ)

def Call.run : Call α → Act α (Answer α)
  | new zero capacity => do return .vec (← vec_new room zero capacity)
  | of zero value => do return .vec (← vec_of room zero fuel value)
  | push zero v value => do
    vec_push room zero fuel v value
    return .void
  | pop v => do return .value (← vec_pop v)
  | get v index => do return .value (← vec_get v index)
  | try_get v index => do return .option (← vec_try_get v index)
  | set v index value => do
    vec_set v index value
    return .void
  | last v => do return .value (← vec_last v)
  | clear v => do
    vec_clear v
    return .void
  | contains eq v value => do return .bool (← vec_contains fuel eq v value)
  | index_of eq v value => do return .int (← vec_index_of fuel eq v value)
  | reverse v => do
    vec_reverse fuel v
    return .void
  | map zero v f => do return .vec (← vec_map room zero fuel v f)
  | filter zero v keep => do return .vec (← vec_filter room zero fuel v keep)

def runCalls : List (Call α) → Act α (List (Answer α))
  | [] => return []
  | call :: calls => do
    let answer ← call.run room fuel
    return answer :: (← runCalls calls)

end Calls

section Meaning

variable {α : Type}

/-- Lists, each with how many elements there is room for. -/
abbrev Lists (α : Type) := List (List α × ℕ)

def lists (vs : List (Vec α)) : Lists α := vs.map fun x => (x.contents, x.cap.toNat)

/-- What the calls do to mathematical lists; `none` where there is no such list or element. -/
def Call.meaning (ls : Lists α) : Call α → Option (Answer α × Lists α)
  | new _ capacity => some (.vec ls.length, ls ++ [([], capacity.toNat)])
  | of _ value => some (.vec ls.length, ls ++ [([value], 1)])
  | push _ v value => do
    let (xs, cap) ← ls[v]?
    return (.void, ls.set v (xs ++ [value], if xs.length = cap then cap * 2 else cap))
  | pop v => do
    let (xs, cap) ← ls[v]?
    return (.value (← xs.getLast?), ls.set v (xs.dropLast, cap))
  | get v index => do
    let (xs, _) ← ls[v]?
    return (.value (← xs[index.toNat]?), ls)
  | try_get v index => do
    let (xs, _) ← ls[v]?
    return (.option (if index < 0 then none else xs[index.toNat]?), ls)
  | set v index value => do
    let (xs, cap) ← ls[v]?
    return (.void, ls.set v (xs.set index.toNat value, cap))
  | last v => do
    let (xs, _) ← ls[v]?
    return (.value (← xs.getLast?), ls)
  | clear v => do
    let (_, cap) ← ls[v]?
    return (.void, ls.set v ([], cap))
  | contains eq v value => do
    let (xs, _) ← ls[v]?
    return (.bool (xs.any (eq · value)), ls)
  | index_of eq v value => do
    let (xs, _) ← ls[v]?
    return (.int (match xs.findIdx? (eq · value) with
      | some i => i
      | none => -1), ls)
  | reverse v => do
    let (xs, cap) ← ls[v]?
    return (.void, ls.set v (xs.reverse, cap))
  | map _ v f => do
    let (xs, _) ← ls[v]?
    return (.vec ls.length, ls ++ [(xs.map f, xs.length + 1)])
  | filter _ v keep => do
    let (xs, _) ← ls[v]?
    return (.vec ls.length, ls ++ [(xs.filter keep, xs.length + 1)])

/-- The vector a call is about. -/
def Call.vec? : Call α → Option ℕ
  | new _ _ | of _ _ => none
  | push _ v _ | pop v | get v _ | try_get v _ | set v _ _ | last v | clear v | contains _ v _ | index_of _ v _ | reverse v
  | map _ v _ | filter _ v _ => some v

/-- An index that no element of the list has. -/
def Call.IndexInvalid (ls : Lists α) : Call α → Prop
  | get v index | set v index _ => ∃ p, ls[v]? = some p ∧ (index < 0 ∨ p.1.length ≤ index)
  | _ => False

/-- An element of an empty list. -/
def Call.VectorEmpty (ls : Lists α) : Call α → Prop
  | pop v | last v => ∃ p, ls[v]? = some p ∧ p.1 = []
  | _ => False

/-- An element more where there is no room and twice the room is over 16 bits. -/
def Call.DoublingOverflows (ls : Lists α) : Call α → Prop
  | push _ v _ => ∃ p, ls[v]? = some p ∧ p.1.length = p.2 ∧ 0x7FFF < p.2 * 2
  | _ => False

/-- A new vector without room for an element. -/
def Call.CapacityInvalid : Call α → Prop
  | new _ capacity => capacity < 1
  | _ => False

def Call.Panics (ls : Lists α) (call : Call α) : Prop :=
  call.IndexInvalid ls ∨ call.VectorEmpty ls ∨ call.DoublingOverflows ls ∨ call.CapacityInvalid

/-- For how many elements a call asks the heap for room, if it asks at all. -/
def Call.asks (ls : Lists α) : Call α → Option ℤ
  | new _ capacity => some capacity
  | of _ _ => some 1
  | push _ v _ => do
    let (xs, cap) ← ls[v]?
    if xs.length = cap then some (cap * 2) else none
  | map _ v _ | filter _ v _ => do
    let (xs, _) ← ls[v]?
    return xs.length + 1
  | _ => none

section Agreement

variable {room : List (Vec α) → ℕ} {fuel : ℕ} {vs : List (Vec α)} {v : ℕ} {x : Vec α}

/-- A call on sound vectors asks for more room than there is and changes nothing, or panics
just where it is to and changes nothing, or answers as on lists and leaves sound vectors. -/
def Call.Agrees (room : List (Vec α) → ℕ) (fuel : ℕ) (vs : List (Vec α)) (call : Call α) : Prop :=
  (call.run room fuel vs = (.error (.fault "Heap out of memory"), vs) ∧ ¬call.Panics (lists vs) ∧
    ∃ count, call.asks (lists vs) = some count ∧ Short room vs count) ∨
  (call.Panics (lists vs) ∧ ∃ message, call.run room fuel vs = (.error (.panic message), vs)) ∨
  ¬call.Panics (lists vs) ∧ ∃ answer vs', call.run room fuel vs = (.ok answer, vs') ∧ (∀ x ∈ vs', x.Inv) ∧
    call.meaning (lists vs) = some (answer, lists vs')

theorem lists_getElem? (h : vs[v]? = some x) : (lists vs)[v]? = some (x.contents, x.cap.toNat) := by
  rw [lists, List.getElem?_map, h]
  rfl

theorem lists_set (vs : List (Vec α)) (v : ℕ) (y : Vec α) : lists (vs.set v y) = (lists vs).set v (y.contents, y.cap.toNat) := by
  rw [lists, List.map_set]
  rfl

theorem lists_concat (vs : List (Vec α)) (y : Vec α) : lists (vs ++ [y]) = lists vs ++ [(y.contents, y.cap.toNat)] := by
  rw [lists, List.map_append]
  rfl

theorem length_lists (vs : List (Vec α)) : (lists vs).length = vs.length := by
  rw [lists, List.length_map]

theorem inv_set (hvs : ∀ x ∈ vs, x.Inv) {y : Vec α} (hy : y.Inv) : ∀ x ∈ vs.set v y, x.Inv := by
  intro z hz
  rcases List.mem_or_eq_of_mem_set hz with hz | rfl
  · exact hvs z hz
  · exact hy

theorem inv_concat (hvs : ∀ x ∈ vs, x.Inv) {y : Vec α} (hy : y.Inv) : ∀ x ∈ vs ++ [y], x.Inv := by
  intro z hz
  rcases List.mem_append.mp hz with hz | hz
  · exact hvs z hz
  · rw [List.mem_singleton.mp hz]
    exact hy

/-- A vector whose length changes within its room. -/
theorem Inv.resize (hx : x.Inv) {k : ℤ} (hk : 0 ≤ k) (hk' : k ≤ x.cap) : Inv { x with len := k } :=
  ⟨hk, hk', hx.pos, hx.cap, hx.fits⟩

/-- A vector whose elements are overwritten. -/
theorem Inv.rewrite (hx : x.Inv) {data : List α} (hdata : data.length = x.data.length) : Inv { x with data := data } :=
  ⟨hx.len, hx.room, hx.pos, hx.cap.trans (by rw [hdata]), hdata.trans_le hx.fits⟩

theorem new_agrees (hvs : ∀ x ∈ vs, x.Inv) (zero : α) (capacity : ℤ) : (Call.new zero capacity).Agrees room fuel vs := by
  rcases le_or_gt capacity 0 with hle | hlt
  · exact .inr (.inl ⟨.inr (.inr (.inr (Int.lt_add_one_of_le hle))), _, bind_error (vec_new_panics room zero hle)⟩)
  · have hno : ¬(Call.new zero capacity).Panics (lists vs) := by
      rintro (h | h | h | h)
      · exact h
      · exact h
      · exact h
      · exact absurd h (not_lt.mpr hlt)
    rcases vec_new_cases room zero vs hlt with ⟨hmem, hshort⟩ | ⟨y, hnew, hy, hcontents, hcap⟩
    · exact .inl ⟨by rw [Call.run, bind_error hmem], hno, capacity, rfl, hshort⟩
    · refine .inr (.inr ⟨hno, .vec vs.length, vs ++ [y], ?_, inv_concat hvs hy, ?_⟩)
      · rw [Call.run, bind_ok hnew]
        rfl
      · rw [Call.meaning, length_lists, lists_concat, hcontents, hcap]

theorem of_agrees (hvs : ∀ x ∈ vs, x.Inv) (zero value : α) : (Call.of zero value).Agrees room fuel vs := by
  have hno : ¬(Call.of zero value).Panics (lists vs) := by rintro (h | h | h | h) <;> exact h
  rcases vec_new_cases room zero vs (show (0 : ℤ) < 1 by decide) with ⟨hmem, hshort⟩ | ⟨y, hnew, hy, hcontents, hcap⟩
  · have hof : vec_of room zero fuel value vs = (.error (.fault "Heap out of memory"), vs) := by rw [vec_of, bind_error hmem]
    exact .inl ⟨by rw [Call.run, bind_error hof], hno, 1, rfl, hshort⟩
  · have hylen := hy.length_contents
    rw [hcontents] at hylen
    obtain ⟨z, hpush, hz, hzcontents, hzcap⟩ := vec_push_room room zero fuel (getElem?_concat vs y) hy
      (by rw [← hylen, hcap]; exact Int.one_pos) value
    have hof : vec_of room zero fuel value vs = (.ok vs.length, vs ++ [z]) := by
      rw [vec_of, bind_ok hnew, bind_ok hpush, set_concat]
      rfl
    refine .inr (.inr ⟨hno, .vec vs.length, vs ++ [z], ?_, inv_concat hvs hz, ?_⟩)
    · rw [Call.run, bind_ok hof]
      rfl
    · rw [Call.meaning, length_lists, lists_concat, hzcontents, hcontents, hzcap, hcap]
      rfl

theorem push_agrees (hvs : ∀ x ∈ vs, x.Inv) (hfuel : 32765 < fuel) (h : vs[v]? = some x) (zero value : α) :
    (Call.push zero v value).Agrees room fuel vs := by
  have hx := hvs x (List.mem_of_getElem? h)
  have hlen := hx.length_contents
  have hpos := hx.pos
  have hls := lists_getElem? h
  have hno : ¬(x.len = x.cap ∧ 0x4000 ≤ x.cap) → ¬(Call.push zero v value).Panics (lists vs) := by
    rintro hroom (h | h | ⟨p, hp, hfull, hlarge⟩ | h)
    · exact h
    · exact h
    · rw [hls] at hp
      cases hp
      exact hroom (by dsimp only at hfull hlarge; omega)
    · exact h
  rcases vec_push_cases room zero h hx hfuel value with ⟨hmem, hfull, hsmall, hshort⟩ | ⟨hpanic, hfull, hlarge⟩ | ⟨hroom, y, hpush, hy, hcontents, hcap⟩
  · refine .inl ⟨by rw [Call.run, bind_error hmem], hno (by omega), _, ?_, hshort⟩
    have hcount : x.contents.length = x.cap.toNat := by omega
    have htwice : ((x.cap.toNat : ℤ)) * 2 = x.cap * 2 := by omega
    rw [Call.asks, hls]
    exact (if_pos hcount).trans (congrArg some htwice)
  · refine .inr (.inl ⟨.inr (.inr (.inl ⟨_, hls, ?_, ?_⟩)), _, by rw [Call.run, bind_error hpanic]⟩)
    · dsimp only
      omega
    · dsimp only
      omega
  · refine .inr (.inr ⟨hno hroom, .void, vs.set v y, by rw [Call.run, bind_ok hpush]; rfl, inv_set hvs hy, ?_⟩)
    have hnew : y.cap.toNat = if x.contents.length = x.cap.toNat then x.cap.toNat * 2 else x.cap.toNat := by
      rw [hcap]
      split <;> split <;> omega
    rw [Call.meaning, hls, lists_set, hcontents, hnew]
    rfl

section Calls

variable (hvs : ∀ x ∈ vs, x.Inv) (h : vs[v]? = some x)

include hvs h

theorem get_agrees (index : ℤ) : (Call.get v index).Agrees room fuel vs := by
  obtain ⟨n, hn, hle, hcontents, hlength⟩ := (hvs x (List.mem_of_getElem? h)).exists_len
  have hls := lists_getElem? h
  by_cases hbad : index < 0 ∨ index ≥ x.len
  · refine .inr (.inl ⟨.inl ⟨_, hls, ?_⟩, "vec_get index out of range", bind_error ?_⟩)
    · dsimp only
      omega
    · rw [vec_get, bind_ok (deref_ok h), if_pos hbad]
      rfl
  · obtain ⟨i, rfl⟩ := Int.eq_ofNat_of_zero_le (show 0 ≤ index by omega)
    have hi : i < x.data.length := by omega
    have hget : vec_get v (i : ℤ) vs = (.ok x.data[i], vs) := by
      rw [vec_get, bind_ok (deref_ok h), if_neg hbad, element_ok h hi]
    have hvalue : x.contents[i]? = some x.data[i] := by
      rw [hcontents, List.getElem?_take_of_lt (by omega), List.getElem?_eq_getElem hi]
    refine .inr (.inr ⟨?_, .value x.data[i], vs, by rw [Call.run, bind_ok hget]; rfl, hvs, ?_⟩)
    · rintro (⟨p, hp, hout⟩ | h | h | h)
      · rw [hls] at hp
        cases hp
        exact hbad (by dsimp only at hout; omega)
      all_goals exact h
    · rw [Call.meaning, hls]
      change (x.contents[i]? >>= fun a => some (Answer.value a, lists vs)) = _
      rw [hvalue]
      rfl

theorem try_get_agrees (index : ℤ) : (Call.try_get v index).Agrees room fuel vs := by
  obtain ⟨n, hn, hle, hcontents, hlength⟩ := (hvs x (List.mem_of_getElem? h)).exists_len
  have hls := lists_getElem? h
  have hget : vec_try_get v index vs = (.ok (if index < 0 then none else x.contents[index.toNat]?), vs) := by
    rw [vec_try_get, bind_ok (deref_ok h)]
    by_cases hneg : index < 0
    · rw [if_pos (.inl hneg), if_pos hneg]
      rfl
    · obtain ⟨i, rfl⟩ := Int.eq_ofNat_of_zero_le (show 0 ≤ index by omega)
      rw [if_neg hneg, Int.toNat_natCast]
      by_cases hin : i < n
      · rw [if_neg (by omega), bind_ok (element_ok h (show i < x.data.length by omega)), hcontents,
          List.getElem?_take_of_lt hin, List.getElem?_eq_getElem (by omega)]
        rfl
      · rw [if_pos (by omega), List.getElem?_eq_none (by omega)]
        rfl
  refine .inr (.inr ⟨?_, .option _, vs, by rw [Call.run, bind_ok hget]; rfl, hvs, by rw [Call.meaning, hls]; rfl⟩)
  rintro (h | h | h | h) <;> exact h

theorem set_agrees (index : ℤ) (value : α) : (Call.set v index value).Agrees room fuel vs := by
  have hx := hvs x (List.mem_of_getElem? h)
  obtain ⟨n, hn, hle, hcontents, hlength⟩ := hx.exists_len
  have hls := lists_getElem? h
  by_cases hbad : index < 0 ∨ index ≥ x.len
  · refine .inr (.inl ⟨.inl ⟨_, hls, ?_⟩, "vec_set index out of range", bind_error ?_⟩)
    · dsimp only
      omega
    · rw [vec_set, bind_ok (deref_ok h), if_pos hbad]
      rfl
  · obtain ⟨i, rfl⟩ := Int.eq_ofNat_of_zero_le (show 0 ≤ index by omega)
    have hset : vec_set v (i : ℤ) value vs = (.ok (), vs.set v { x with data := x.data.set i value }) := by
      rw [vec_set, bind_ok (deref_ok h), if_neg hbad, setElement_ok h (by omega)]
    refine .inr (.inr ⟨?_, .void, _, by rw [Call.run, bind_ok hset]; rfl, inv_set hvs (hx.rewrite List.length_set), ?_⟩)
    · rintro (⟨p, hp, hout⟩ | h | h | h)
      · rw [hls] at hp
        cases hp
        exact hbad (by dsimp only at hout; omega)
      all_goals exact h
    · have hnew : contents { x with data := x.data.set i value } = x.contents.set i value := by
        rw [contents, contents, List.take_set]
      rw [Call.meaning, hls, lists_set, hnew]
      rfl

theorem pop_agrees : (Call.pop v).Agrees room fuel vs := by
  have hx := hvs x (List.mem_of_getElem? h)
  obtain ⟨n, hn, hle, hcontents, hlength⟩ := hx.exists_len
  have hls := lists_getElem? h
  have hfits := hx.fits
  cases n with
  | zero =>
    refine .inr (.inl ⟨.inr (.inl ⟨_, hls, List.eq_nil_of_length_eq_zero hlength⟩), "vec_pop called on an empty vector", bind_error ?_⟩)
    rw [vec_pop, bind_ok (deref_ok h), if_pos (show x.len = 0 from hn)]
    rfl
  | succ k =>
    have hk : wrap16 (((k + 1 : ℕ) : ℤ) - 1) = k := by
      rw [wrap16_of_range (by omega) (by omega)]
      omega
    have hself := getElem?_set_some h { x with len := (k : ℤ) }
    have hpop : vec_pop v vs = (.ok x.data[k], vs.set v { x with len := (k : ℤ) }) := by
      rw [vec_pop, bind_ok (deref_ok h), if_neg (by omega), hn, hk]
      refine (bind_ok rfl).trans ?_
      rw [bind_ok (deref_ok hself)]
      exact element_ok hself hle
    have hconcat : x.contents = x.data.take k ++ [x.data[k]] := by
      rw [hcontents, List.take_add_one, List.getElem?_eq_getElem (by omega)]
      rfl
    refine .inr (.inr ⟨?_, .value x.data[k], _, by rw [Call.run, bind_ok hpop]; rfl, inv_set hvs (hx.resize (by omega) ?_), ?_⟩)
    · rintro (h | ⟨p, hp, hempty⟩ | h | h)
      · exact h
      · rw [hls] at hp
        cases hp
        dsimp only at hempty
        rw [hempty] at hlength
        cases hlength
      all_goals exact h
    · have hroom := hx.room
      omega
    · have hlast : x.contents.getLast? = some x.data[k] := by rw [hconcat, List.getLast?_concat]
      have hrest : x.contents.dropLast = x.data.take k := by rw [hconcat, List.dropLast_concat]
      rw [Call.meaning, hls, lists_set]
      change (x.contents.getLast? >>= fun a => some (Answer.value a, (lists vs).set v (x.contents.dropLast, x.cap.toNat))) = _
      rw [hlast, hrest, contents, Int.toNat_natCast]
      rfl

theorem last_agrees : (Call.last v).Agrees room fuel vs := by
  have hx := hvs x (List.mem_of_getElem? h)
  obtain ⟨n, hn, hle, hcontents, hlength⟩ := hx.exists_len
  have hls := lists_getElem? h
  have hfits := hx.fits
  cases n with
  | zero =>
    refine .inr (.inl ⟨.inr (.inl ⟨_, hls, List.eq_nil_of_length_eq_zero hlength⟩), "vec_last called on an empty vector", bind_error ?_⟩)
    rw [vec_last, bind_ok (deref_ok h), if_pos (show x.len = 0 from hn)]
    rfl
  | succ k =>
    have hk : wrap16 (((k + 1 : ℕ) : ℤ) - 1) = k := by
      rw [wrap16_of_range (by omega) (by omega)]
      omega
    have hread : vec_last v vs = (.ok x.data[k], vs) := by
      rw [vec_last, bind_ok (deref_ok h), if_neg (by omega), hn, hk, element_ok h hle]
    refine .inr (.inr ⟨?_, .value x.data[k], _, by rw [Call.run, bind_ok hread]; rfl, hvs, ?_⟩)
    · rintro (h | ⟨p, hp, hempty⟩ | h | h)
      · exact h
      · rw [hls] at hp
        cases hp
        dsimp only at hempty
        rw [hempty] at hlength
        cases hlength
      all_goals exact h
    · have hlast : x.contents.getLast? = some x.data[k] := by
        rw [hcontents, List.take_add_one, List.getElem?_eq_getElem (by omega), Option.toList_some, List.getLast?_concat]
      rw [Call.meaning, hls]
      change (x.contents.getLast? >>= fun a => some (Answer.value a, lists vs)) = _
      rw [hlast]
      rfl

theorem clear_agrees : (Call.clear v).Agrees room fuel vs := by
  have hx := hvs x (List.mem_of_getElem? h)
  have hroom := hx.room
  have hpos := hx.pos
  have hls := lists_getElem? h
  have hclear : vec_clear v vs = (.ok (), vs.set v { x with len := 0 }) := by
    rw [vec_clear, bind_ok (deref_ok h), store]
  refine .inr (.inr ⟨?_, .void, _, by rw [Call.run, bind_ok hclear]; rfl, inv_set hvs (hx.resize le_rfl (by omega)), ?_⟩)
  · rintro (h | h | h | h) <;> exact h
  · rw [Call.meaning, hls, lists_set]
    rfl

variable (hfuel : 32765 < fuel)

include hfuel

theorem contains_agrees (eq : α → α → Bool) (value : α) : (Call.contains eq v value).Agrees room fuel vs := by
  have hx := hvs x (List.mem_of_getElem? h)
  obtain ⟨n, hn, hle, hcontents, hlength⟩ := hx.exists_len
  have hfits := hx.fits
  have hls := lists_getElem? h
  have hsearch := search_ok h hn hle (by omega) eq value (Nat.zero_le n) (show n - 0 < fuel by omega)
  rw [List.drop_zero, ← hcontents] at hsearch
  have hcall : vec_contains fuel eq v value vs = (.ok (x.contents.any (eq · value)), vs) := by
    refine (bind_ok hsearch).trans ?_
    rw [← List.findIdx?_isSome]
    cases x.contents.findIdx? (eq · value) <;> rfl
  refine .inr (.inr ⟨?_, .bool _, vs, by rw [Call.run, bind_ok hcall]; rfl, hvs, by rw [Call.meaning, hls]; rfl⟩)
  rintro (h | h | h | h) <;> exact h

theorem index_of_agrees (eq : α → α → Bool) (value : α) : (Call.index_of eq v value).Agrees room fuel vs := by
  have hx := hvs x (List.mem_of_getElem? h)
  obtain ⟨n, hn, hle, hcontents, hlength⟩ := hx.exists_len
  have hfits := hx.fits
  have hls := lists_getElem? h
  have hsearch := search_ok h hn hle (by omega) eq value (Nat.zero_le n) (show n - 0 < fuel by omega)
  rw [List.drop_zero, ← hcontents] at hsearch
  have hcall : vec_index_of fuel eq v value vs =
      (.ok (match x.contents.findIdx? (eq · value) with
        | some i => (i : ℤ)
        | none => -1), vs) := by
    refine (bind_ok hsearch).trans ?_
    cases x.contents.findIdx? (eq · value) with
    | none => rfl
    | some i =>
      simp only [Nat.zero_add]
      rfl
  refine .inr (.inr ⟨?_, .int _, vs, by rw [Call.run, bind_ok hcall]; rfl, hvs, by rw [Call.meaning, hls]; rfl⟩)
  rintro (h | h | h | h) <;> exact h

theorem reverse_agrees : (Call.reverse v).Agrees room fuel vs := by
  have hx := hvs x (List.mem_of_getElem? h)
  obtain ⟨n, hn, hle, hcontents, hlength⟩ := hx.exists_len
  have hfits := hx.fits
  have hls := lists_getElem? h
  have hreverse := reverseFrom_ok (x.data.take n) (A := []) h (by omega) (List.take_append_drop n x.data).symm
    (show (x.data.take n).length < fuel by rw [List.length_take]; omega)
  have hstart : wrap16 (x.len - 1) = (([] : List α).length : ℤ) + (x.data.take n).length - 1 := by
    rw [hn, wrap16_of_range (by omega) (by omega), List.length_nil, List.length_take]
    omega
  have hcall : vec_reverse fuel v vs = (.ok (), vs.set v { x with data := (x.data.take n).reverse ++ x.data.drop n }) := by
    rw [vec_reverse, bind_ok (deref_ok h), hstart]
    exact hreverse
  have hsame : ((x.data.take n).reverse ++ x.data.drop n).length = x.data.length := by
    rw [List.length_append, List.length_reverse, ← List.length_append, List.take_append_drop]
  refine .inr (.inr ⟨?_, .void, _, by rw [Call.run, bind_ok hcall]; rfl, inv_set hvs (hx.rewrite hsame), ?_⟩)
  · rintro (h | h | h | h) <;> exact h
  · have hnew : contents { x with data := (x.data.take n).reverse ++ x.data.drop n } = x.contents.reverse := by
      rw [contents, hn, Int.toNat_natCast, hcontents]
      exact List.take_left' (by rw [List.length_reverse, ← hcontents, hlength])
    rw [Call.meaning, hls, lists_set, hnew]
    rfl

theorem pushAll_agrees (zero : α) (f : α → Option α) {call : Call α} (hno : ¬call.Panics (lists vs))
    (hrun : call.run room fuel = (pushAll room zero fuel f v >>= fun out => pure (.vec out)))
    (hasks : call.asks (lists vs) = some ((x.contents.length : ℤ) + 1))
    (hmeaning : call.meaning (lists vs) = some (.vec vs.length, lists vs ++ [(x.contents.filterMap f, x.contents.length + 1)])) :
    call.Agrees room fuel vs := by
  have hx := hvs x (List.mem_of_getElem? h)
  have hlength := hx.length_contents
  rcases pushAll_cases room zero h hx hfuel f with ⟨hmem, hshort⟩ | ⟨y, hok, hy, hcontents, hcap⟩
  · exact .inl ⟨by rw [hrun, bind_error hmem], hno, _, hasks, hlength ▸ hshort⟩
  · refine .inr (.inr ⟨hno, .vec vs.length, vs ++ [y], by rw [hrun, bind_ok hok]; rfl, inv_concat hvs hy, ?_⟩)
    have hroom : y.cap.toNat = x.contents.length + 1 := by omega
    rw [hmeaning, lists_concat, hcontents, hroom]

theorem map_agrees (zero : α) (f : α → α) : (Call.map zero v f).Agrees room fuel vs := by
  refine pushAll_agrees hvs h hfuel zero (fun a => some (f a)) ?_ rfl ?_ ?_
  · rintro (h | h | h | h) <;> exact h
  · rw [Call.asks, lists_getElem? h]
    rfl
  · rw [Call.meaning, lists_getElem? h, List.filterMap_eq_map', length_lists]
    rfl

theorem filter_agrees (zero : α) (keep : α → Bool) : (Call.filter zero v keep).Agrees room fuel vs := by
  refine pushAll_agrees hvs h hfuel zero (fun a => if keep a then some a else none) ?_ rfl ?_ ?_
  · rintro (h | h | h | h) <;> exact h
  · rw [Call.asks, lists_getElem? h]
    rfl
  · have hfilter : x.contents.filterMap (fun a => if keep a then some a else none) = x.contents.filter keep := by
      rw [← List.filterMap_eq_filter]
      rfl
    rw [Call.meaning, lists_getElem? h, length_lists, hfilter]
    rfl

end Calls

theorem call_agrees (hvs : ∀ x ∈ vs, x.Inv) (hfuel : 32765 < fuel) (call : Call α) (hcall : ∀ v, call.vec? = some v → v < vs.length) :
    call.Agrees room fuel vs := by
  have hvec : ∀ v, call.vec? = some v → ∃ x, vs[v]? = some x := fun v hv => ⟨_, List.getElem?_eq_getElem (hcall v hv)⟩
  cases call with
  | new zero capacity => exact new_agrees hvs zero capacity
  | of zero value => exact of_agrees hvs zero value
  | push zero v value =>
    obtain ⟨x, h⟩ := hvec v rfl
    exact push_agrees hvs hfuel h zero value
  | pop v =>
    obtain ⟨x, h⟩ := hvec v rfl
    exact pop_agrees hvs h
  | get v index =>
    obtain ⟨x, h⟩ := hvec v rfl
    exact get_agrees hvs h index
  | try_get v index =>
    obtain ⟨x, h⟩ := hvec v rfl
    exact try_get_agrees hvs h index
  | set v index value =>
    obtain ⟨x, h⟩ := hvec v rfl
    exact set_agrees hvs h index value
  | last v =>
    obtain ⟨x, h⟩ := hvec v rfl
    exact last_agrees hvs h
  | clear v =>
    obtain ⟨x, h⟩ := hvec v rfl
    exact clear_agrees hvs h
  | contains eq v value =>
    obtain ⟨x, h⟩ := hvec v rfl
    exact contains_agrees hvs h hfuel eq value
  | index_of eq v value =>
    obtain ⟨x, h⟩ := hvec v rfl
    exact index_of_agrees hvs h hfuel eq value
  | reverse v =>
    obtain ⟨x, h⟩ := hvec v rfl
    exact reverse_agrees hvs h hfuel
  | map zero v f =>
    obtain ⟨x, h⟩ := hvec v rfl
    exact map_agrees hvs h hfuel zero f
  | filter zero v keep =>
    obtain ⟨x, h⟩ := hvec v rfl
    exact filter_agrees hvs h hfuel zero keep

end Agreement

section Runs

variable {room : List (Vec α) → ℕ} {fuel : ℕ} {vs : List (Vec α)}

def meanings (ls : Lists α) : List (Call α) → Option (List (Answer α) × Lists α)
  | [] => some ([], ls)
  | call :: calls => do
    let (answer, ls) ← call.meaning ls
    let (answers, ls) ← meanings ls calls
    return (answer :: answers, ls)

/-- A call that returns was given a vector that there is. -/
theorem call_given (hfuel : 0 < fuel) {call : Call α} {answer : Answer α} {vs' : List (Vec α)}
    (hrun : call.run room fuel vs = (.ok answer, vs')) {v : ℕ} (hv : call.vec? = some v) : v < vs.length := by
  by_contra hmissing
  have hderef : deref v vs = (.error (.fault "Null pointer dereference reading a field"), vs) := by
    rw [deref, List.getElem?_eq_none (by omega)]
  have hloop : ∀ {σ β : Type} (body : ℤ → σ → Act α (σ ⊕ β)) (i : ℤ) (s : σ),
      forLen v body fuel i s vs = (.error (.fault "Null pointer dereference reading a field"), vs) := by
    intro σ β body i s
    obtain ⟨fuel, rfl⟩ := Nat.exists_eq_succ_of_ne_zero hfuel.ne'
    rw [forLen, bind_error hderef]
  have herror : ∃ e, call.run room fuel vs = (.error e, vs) := by
    cases call with
    | new zero capacity => cases hv
    | of zero value => cases hv
    | push zero v value => cases hv; exact ⟨_, bind_error (bind_error hderef)⟩
    | pop v => cases hv; exact ⟨_, bind_error (bind_error hderef)⟩
    | get v index => cases hv; exact ⟨_, bind_error (bind_error hderef)⟩
    | try_get v index => cases hv; exact ⟨_, bind_error (bind_error hderef)⟩
    | set v index value => cases hv; exact ⟨_, bind_error (bind_error hderef)⟩
    | last v => cases hv; exact ⟨_, bind_error (bind_error hderef)⟩
    | clear v => cases hv; exact ⟨_, bind_error (bind_error hderef)⟩
    | contains eq v value => cases hv; exact ⟨_, bind_error (bind_error (hloop _ _ _))⟩
    | index_of eq v value => cases hv; exact ⟨_, bind_error (bind_error (hloop _ _ _))⟩
    | reverse v => cases hv; exact ⟨_, bind_error (bind_error hderef)⟩
    | map zero v f => cases hv; exact ⟨_, bind_error (bind_error hderef)⟩
    | filter zero v keep => cases hv; exact ⟨_, bind_error (bind_error hderef)⟩
  obtain ⟨e, herror⟩ := herror
  rw [herror] at hrun
  cases hrun

theorem runCalls_sound (hfuel : 32765 < fuel) (calls : List (Call α)) (hvs : ∀ x ∈ vs, x.Inv) {answers : List (Answer α)}
    {vs' : List (Vec α)} (hrun : runCalls room fuel calls vs = (.ok answers, vs')) :
    (∀ x ∈ vs', x.Inv) ∧ meanings (lists vs) calls = some (answers, lists vs') := by
  induction calls generalizing vs answers with
  | nil =>
    cases hrun
    exact ⟨hvs, rfl⟩
  | cons call calls ih =>
    rw [runCalls] at hrun
    obtain ⟨answer, ws, hcall, hrest⟩ := of_bind_ok hrun
    obtain ⟨answers, ws', hcalls, hend⟩ := of_bind_ok hrest
    cases hend
    rcases call_agrees hvs hfuel call (fun v hv => call_given (by omega) hcall hv) with ⟨hmem, -⟩ | ⟨-, m, hpanic⟩ | ⟨-, a, us, hok, hus, hmeaning⟩
    · rw [hcall] at hmem
      cases hmem
    · rw [hcall] at hpanic
      cases hpanic
    · rw [hcall] at hok
      cases hok
      obtain ⟨hinv, hmeanings⟩ := ih hus hcalls
      refine ⟨hinv, ?_⟩
      rw [meanings, hmeaning]
      change (meanings (lists ws) calls >>= fun r => some (answer :: r.1, r.2)) = _
      rw [hmeanings]
      rfl

/-- After any calls, the vectors are sound and stand for the lists that the same calls make,
every answer is that of the lists, and so it goes on with any call of a vector there is. -/
theorem vec_refines_list (hfuel : 32765 < fuel) (calls : List (Call α)) {answers : List (Answer α)}
    (hrun : runCalls room fuel calls [] = (.ok answers, vs)) :
    (∀ x ∈ vs, x.Inv) ∧ meanings [] calls = some (answers, lists vs) ∧
      ∀ call : Call α, (∀ v, call.vec? = some v → v < vs.length) → call.Agrees room fuel vs := by
  obtain ⟨hvs, hmeanings⟩ := runCalls_sound hfuel calls (by simp) hrun
  exact ⟨hvs, hmeanings, fun call hcall => call_agrees hvs hfuel call hcall⟩

/-- A vector that grows twice, and what is made of it. -/
def growingCalls : List (Call ℤ) :=
  [.of 0 5, .push 0 0 6, .push 0 0 7, .reverse 0, .map 0 0 (· * 2), .filter 0 1 (· > 10), .pop 0, .index_of (· == ·) 0 6, .try_get 2 9]

theorem growingCalls_refine : ∃ answers vs, runCalls (fun _ => 32765) 32766 growingCalls [] = (.ok answers, vs) ∧
    (∀ x ∈ vs, x.Inv) ∧ meanings [] growingCalls = some (answers, lists vs) ∧
    ∀ call : Call ℤ, (∀ v, call.vec? = some v → v < vs.length) → call.Agrees (fun _ => 32765) 32766 vs := by
  have hrun : runCalls (fun _ => 32765) 32766 growingCalls [] =
      (.ok [.vec 0, .void, .void, .void, .vec 1, .vec 2, .value 5, .int 1, .option none],
        [⟨[7, 6, 5, 0], 2, 4⟩, ⟨[14, 12, 10, 0], 3, 4⟩, ⟨[14, 12, 0, 0], 2, 4⟩]) := by
    change @Eq (Except Stop (List (Answer ℤ)) × List (Vec ℤ)) _ _
    decide +kernel
  exact ⟨_, _, hrun, vec_refines_list (by decide) growingCalls hrun⟩

/-- `vec_new(0)` panics. -/
theorem vec_new_refuses : ¬ ∀ call : Call ℤ, (∃ message, (call.run (fun _ => 32765) 32766 []).1 = .error (.panic message)) ↔
    call.IndexInvalid [] ∨ call.VectorEmpty [] ∨ call.DoublingOverflows [] := by
  intro h
  rcases (h (.new 0 0)).mp ⟨_, rfl⟩ with h | h | h <;> exact h

end Runs

end Meaning

end Vec

end QuinLang.Std
