import QuinLang.Lib.Loops
import QuinLang.Std.Map

/-! `std/list.ql`: lists of cells behind references. A collection may come with any
allocation and any call, and may move every cell. -/

namespace QuinLang.Std.Chains

open Loops

section Source

/-- The elements of all lists are of one type, as the words of their cells are. -/
structure Cell (α : Type) where
  value : α
  next : ℕ

/-- The variables of the functions. -/
structure Locals where
  head : ℕ
  out : ℕ := 0
  tail : ℕ := 0
  cur : ℕ := 0
  /-- the newest cell, on the operand stack while it is built -/
  node : ℕ := 0

/-- A reference is one more than the place of its cell, and null is 0. -/
structure State (α : Type) where
  cells : List (Cell α)
  vars : Locals
  /-- what else of the program holds references -/
  others : List ℕ

variable {α : Type} (zero : α) (collect : State α → State α)

def cellAt (s : State α) (ref : ℕ) : Run (Cell α) :=
  if ref = 0 then .error (.fault "Null pointer dereference reading a field")
  else
    match s.cells[ref - 1]? with
    | some c => .ok c
    | none => .error (.fault "HEAP_LOAD_FIELD out of range")

/-- `HEAP_STORE_FIELD` -/
def store (s : State α) (ref : ℕ) (write : Cell α → Cell α) : Run (State α) :=
  if ref = 0 then .error (.fault "Null pointer dereference writing a field")
  else
    match s.cells[ref - 1]? with
    | some c => .ok { s with cells := s.cells.set (ref - 1) (write c) }
    | none => .error (.fault "HEAP_STORE_FIELD out of range")

/-- `ref.value = value`. -/
def setValue (s : State α) (ref : ℕ) (value : α) : Run (State α) := store s ref fun c => { c with value := value }

/-- `ref.next = next`. -/
def setNext (s : State α) (ref next : ℕ) : Run (State α) := store s ref fun c => { c with next := next }

/-- `ALLOC_TYPED`: a cell of zeros. -/
def alloc (s : State α) : State α :=
  let s := collect s
  { s with cells := s.cells ++ [⟨zero, 0⟩], vars := { s.vars with node := s.cells.length + 1 } }

/-- `List { value: value, next: next }`. The cell is there before its value is evaluated. -/
def newNode (s : State α) (value : State α → Run (State α × α)) (next : Locals → ℕ) : Run (State α) := do
  let (s, b) ← value (alloc zero collect s)
  let s ← setValue s s.vars.node b
  setNext s s.vars.node (next s.vars)

/-- The result of a function is its `out`. -/
def list_push (s : State α) (value : α) : Run (State α) := do
  let s ← newNode zero collect s (fun s => return (s, value)) Locals.head
  return { s with vars := { s.vars with out := s.vars.node } }

/-- `cur.value` -/
def curValue (s : State α) : Run (State α × α) := do return (s, (← cellAt s s.vars.cur).value)

/-- `cur = cur.next`. -/
def advance (s : State α) : Run (State α) := do return { s with vars := { s.vars with cur := (← cellAt s s.vars.cur).next } }

def reverseTurn (s : State α) : Run (State α ⊕ State α) := do
  if s.vars.cur ≠ 0 then
    let s ← newNode zero collect s curValue Locals.out
    return .inl (← advance { s with vars := { s.vars with out := s.vars.node } })
  else return .inr s

def list_reverse (fuel : ℕ) (s : State α) : Run (State α) :=
  loop .outOfFuel (reverseTurn zero collect) fuel { s with vars := { s.vars with out := 0, cur := s.vars.head } }

/-- What `list_map` and `list_filter` do with a new node. -/
def link (s : State α) : Run (State α) := do
  let s ← if s.vars.out = 0 then pure { s with vars := { s.vars with out := s.vars.node } } else setNext s s.vars.tail s.vars.node
  return { s with vars := { s.vars with tail := s.vars.node } }

/-- `f(cur.value)`: the call of the program's function may collect too. -/
def applyTo {β : Type} (f : α → β) (s : State α) : Run (State α × β) := do
  let (s, x) ← curValue s
  return (collect s, f x)

def mapTurn (f : α → α) (s : State α) : Run (State α ⊕ State α) := do
  if s.vars.cur ≠ 0 then
    let s ← link (← newNode zero collect s (applyTo collect f) fun _ => 0)
    return .inl (← advance s)
  else return .inr s

def filterTurn (keep : α → Bool) (s : State α) : Run (State α ⊕ State α) := do
  if s.vars.cur ≠ 0 then
    let (s, kept) ← applyTo collect keep s
    let s ← if kept then do link (← newNode zero collect s curValue fun _ => 0) else pure s
    return .inl (← advance s)
  else return .inr s

/-- A loop over the list that starts with nothing built. -/
def build (turn : State α → Run (State α ⊕ State α)) (fuel : ℕ) (s : State α) : Run (State α) :=
  loop .outOfFuel turn fuel { s with vars := { s.vars with out := 0, tail := 0, cur := s.vars.head } }

def list_map (fuel : ℕ) (s : State α) (f : α → α) : Run (State α) := build (mapTurn zero collect f) fuel s

def list_filter (fuel : ℕ) (s : State α) (keep : α → Bool) : Run (State α) := build (filterTurn zero collect keep) fuel s

end Source

section Collections

variable {α : Type}

/-- What the program can get at: what it holds, and link by link from there. -/
inductive Reached (s : State α) : ℕ → Prop
  | null : Reached s 0
  | head : Reached s s.vars.head
  | out : Reached s s.vars.out
  | tail : Reached s s.vars.tail
  | cur : Reached s s.vars.cur
  | node : Reached s s.vars.node
  | other {r : ℕ} (h : r ∈ s.others) : Reached s r
  | next {k : ℕ} {c : Cell α} (h : Reached s (k + 1)) (hc : s.cells[k]? = some c) : Reached s c.next

def Locals.map (move : ℕ → ℕ) (v : Locals) : Locals := ⟨move v.head, move v.out, move v.tail, move v.cur, move v.node⟩

/-- Every cell that can be reached is where its references now lead, and no two are one. -/
structure Moved (s s' : State α) (move : ℕ → ℕ) : Prop where
  vars : s'.vars = s.vars.map move
  others : s'.others = s.others.map move
  null : move 0 = 0
  cell : ∀ k c, Reached s (k + 1) → s.cells[k]? = some c →
    ∃ k', move (k + 1) = k' + 1 ∧ s'.cells[k']? = some { c with next := move c.next }
  apart : ∀ a b, Reached s a → Reached s b → move a = move b → a = b

def Collects (collect : State α → State α) : Prop := ∀ s, ∃ move, Moved s (collect s) move

end Collections

section Lists

variable {α : Type} {cells : List (Cell α)} {r : ℕ} {places : List ℕ} {xs : List α}

/-- A list from a reference on: the places of its cells and its elements. -/
inductive Chain (cells : List (Cell α)) : ℕ → List ℕ → List α → Prop
  | nil : Chain cells 0 [] []
  | cons {k next : ℕ} {places : List ℕ} {x : α} {xs : List α} (h : cells[k]? = some ⟨x, next⟩) (t : Chain cells next places xs) :
      Chain cells (k + 1) (k :: places) (x :: xs)

/-- A reference to a list without a cycle. -/
def Holds (cells : List (Cell α)) (r : ℕ) (xs : List α) : Prop := ∃ places, Chain cells r places xs

theorem Chain.lt (h : Chain cells r places xs) : ∀ k ∈ places, k < cells.length := by
  induction h with
  | nil => simp
  | cons hk _ ih => exact List.forall_mem_cons.mpr ⟨(List.getElem?_eq_some_iff.mp hk).1, ih⟩

theorem Chain.append (h : Chain cells r places xs) (c : Cell α) : Chain (cells ++ [c]) r places xs := by
  induction h with
  | nil => exact .nil
  | cons hk _ ih => exact .cons (List.getElem?_append_left (List.getElem?_eq_some_iff.mp hk).1 ▸ hk) ih

/-- A cell that is not on the list may be written. -/
theorem Chain.set (h : Chain cells r places xs) {j : ℕ} (hj : j ∉ places) (c : Cell α) : Chain (cells.set j c) r places xs := by
  induction h with
  | nil => exact .nil
  | cons hk _ ih =>
    obtain ⟨hne, hrest⟩ := not_or.mp (mt List.mem_cons.mpr hj)
    refine .cons ?_ (ih hrest)
    rw [List.getElem?_set_ne hne]
    exact hk

/-- Writing the last link of a list makes it one longer. -/
theorem Chain.link (h : Chain cells r places xs) (hnodup : places.Nodup) {t j : ℕ} {c : Cell α} {y : α}
    (hlast : places.getLast? = some t) (ht : cells[t]? = some c) (hj : cells[j]? = some ⟨y, 0⟩) (hnew : j ∉ places) :
    Chain (cells.set t { c with next := j + 1 }) r (places ++ [j]) (xs ++ [y]) := by
  induction h with
  | nil => cases hlast
  | @cons k next places x xs hk htail ih =>
    obtain ⟨hne, hrest⟩ := not_or.mp (mt List.mem_cons.mpr hnew)
    obtain ⟨hk', hnodup'⟩ := List.nodup_cons.mp hnodup
    cases htail with
    | nil =>
      obtain rfl : k = t := Option.some.inj hlast
      rw [hk] at ht
      cases ht
      have hself : (cells.set k ⟨x, j + 1⟩)[k]? = some ⟨x, j + 1⟩ := List.getElem?_set_self (List.getElem?_eq_some_iff.mp hk).1
      have hthere : (cells.set k ⟨x, j + 1⟩)[j]? = some ⟨y, 0⟩ := by
        rw [List.getElem?_set_ne (Ne.symm hne)]
        exact hj
      exact .cons hself (.cons hthere .nil)
    | @cons k₂ next₂ places₂ x₂ xs₂ hk₂ htail₂ =>
      rw [List.getLast?_cons_cons] at hlast
      have hother : k ≠ t := by
        rintro rfl
        exact hk' (List.mem_of_getLast? hlast)
      refine .cons ?_ (ih hnodup' hlast hrest)
      rw [List.getElem?_set_ne (Ne.symm hother)]
      exact hk

end Lists

section Moving

variable {α : Type} {s s' : State α} {move : ℕ → ℕ} {r : ℕ} {places : List ℕ} {xs : List α}

/-- Where the cell at a place goes. -/
def place (move : ℕ → ℕ) (k : ℕ) : ℕ := move (k + 1) - 1

theorem Chain.reached (h : Chain s.cells r places xs) (hr : Reached s r) : ∀ k ∈ places, Reached s (k + 1) := by
  induction h with
  | nil => simp
  | cons hk _ ih => exact List.forall_mem_cons.mpr ⟨hr, ih (.next hr hk)⟩

theorem Moved.chain (hm : Moved s s' move) (h : Chain s.cells r places xs) (hr : Reached s r) :
    Chain s'.cells (move r) (places.map (place move)) xs := by
  induction h with
  | nil =>
    rw [hm.null]
    exact .nil
  | @cons k next places x xs hk _ ih =>
    obtain ⟨k', hk', hcell⟩ := hm.cell k _ hr hk
    have hplace : place move k = k' := by
      rw [place, hk']
      rfl
    rw [hk', List.map_cons, hplace]
    exact .cons hcell (ih (.next hr hk))

/-- Different cells go to different places. -/
theorem Moved.place_inj (hm : Moved s s' move) {j k : ℕ} (hj : Reached s (j + 1)) (hk : Reached s (k + 1))
    (hj' : j < s.cells.length) (hk' : k < s.cells.length) (h : place move j = place move k) : j = k := by
  obtain ⟨j', hmove, -⟩ := hm.cell j _ hj (List.getElem?_eq_getElem hj')
  obtain ⟨k', hmove', -⟩ := hm.cell k _ hk (List.getElem?_eq_getElem hk')
  have heq : move (j + 1) = move (k + 1) := by
    rw [place, place, hmove, hmove'] at h
    rw [hmove, hmove']
    omega
  exact Nat.succ.inj (hm.apart _ _ hj hk heq)

theorem Moved.holds (hm : Moved s s' move) (h : Holds s.cells r xs) (hr : Reached s r) : Holds s'.cells (move r) xs := by
  obtain ⟨places, h⟩ := h
  exact ⟨_, hm.chain h hr⟩

/-- A list that shares no cell with those at some places. -/
def Old (cells : List (Cell α)) (fresh : List ℕ) (r : ℕ) (xs : List α) : Prop :=
  ∃ places, Chain cells r places xs ∧ ∀ k ∈ places, k ∉ fresh

theorem Old.holds {cells : List (Cell α)} {fresh : List ℕ} (h : Old cells fresh r xs) : Holds cells r xs := by
  obtain ⟨places, h, -⟩ := h
  exact ⟨places, h⟩

theorem Holds.old {cells : List (Cell α)} (h : Holds cells r xs) : Old cells [] r xs := by
  obtain ⟨places, h⟩ := h
  exact ⟨places, h, fun _ _ => List.not_mem_nil⟩

theorem Moved.old (hm : Moved s s' move) {fresh : List ℕ} (hfresh : ∀ k ∈ fresh, Reached s (k + 1) ∧ k < s.cells.length)
    (h : Old s.cells fresh r xs) (hr : Reached s r) : Old s'.cells (fresh.map (place move)) (move r) xs := by
  obtain ⟨places, hchain, hapart⟩ := h
  refine ⟨_, hm.chain hchain hr, fun k hk hk' => ?_⟩
  obtain ⟨i, hi, rfl⟩ := List.mem_map.mp hk
  obtain ⟨j, hj, heq⟩ := List.mem_map.mp hk'
  obtain ⟨hreached, hlt⟩ := hfresh j hj
  obtain rfl := hm.place_inj hreached (hchain.reached hr i hi) hlt (hchain.lt i hi) heq
  exact hapart j hi hj

/-- A write to one of the places, or a new cell, leaves the list. -/
theorem Old.set {cells : List (Cell α)} {fresh : List ℕ} (h : Old cells fresh r xs) {t : ℕ} (ht : t ∈ fresh) (c : Cell α) :
    Old (cells.set t c) fresh r xs := by
  obtain ⟨places, hchain, hapart⟩ := h
  exact ⟨places, hchain.set (fun hmem => hapart t hmem ht) c, hapart⟩

theorem Old.append {cells : List (Cell α)} {fresh : List ℕ} (h : Old cells fresh r xs) (c : Cell α) :
    Old (cells ++ [c]) (fresh ++ [cells.length]) r xs := by
  obtain ⟨places, hchain, hapart⟩ := h
  refine ⟨places, hchain.append c, fun k hk hk' => ?_⟩
  rcases List.mem_append.mp hk' with hmem | hmem
  · exact hapart k hk hmem
  · exact absurd (hchain.lt k hk) (List.mem_singleton.mp hmem ▸ lt_irrefl _)

theorem Holds.append {cells : List (Cell α)} (h : Holds cells r xs) (c : Cell α) : Holds (cells ++ [c]) r xs := by
  obtain ⟨places, hchain⟩ := h
  exact ⟨places, hchain.append c⟩

end Moving

section Storing

variable {α : Type} {s : State α} {places : List ℕ} {xs : List α}

theorem cellAt_ok {k : ℕ} {c : Cell α} (h : s.cells[k]? = some c) : cellAt s (k + 1) = .ok c := by
  rw [cellAt, if_neg (Nat.succ_ne_zero k), Nat.add_sub_cancel, h]

theorem store_ok {k : ℕ} {c : Cell α} (h : s.cells[k]? = some c) (write : Cell α → Cell α) :
    store s (k + 1) write = .ok { s with cells := s.cells.set k (write c) } := by
  rw [store, if_neg (Nat.succ_ne_zero k), Nat.add_sub_cancel, h]

/-- The next element that is left, and what is left after it. -/
theorem Chain.uncons {cells : List (Cell α)} {r : ℕ} {x : α} (h : Chain cells r places (x :: xs)) :
    ∃ k next rest, r = k + 1 ∧ cells[k]? = some ⟨x, next⟩ ∧ places = k :: rest ∧ Chain cells next rest xs := by
  cases h with
  | cons hk htail => exact ⟨_, _, _, rfl, hk, rfl, htail⟩

theorem Chain.eq_zero {cells : List (Cell α)} {r : ℕ} (h : Chain cells r places ([] : List α)) : r = 0 ∧ places = [] := by
  cases h
  exact ⟨rfl, rfl⟩

variable {zero : α} {collect : State α → State α}

/-- A node whose value is evaluated without a collection. -/
theorem newNode_eq {value : State α → Run (State α × α)} {b : α} {next : Locals → ℕ}
    (hvalue : value (alloc zero collect s) = .ok (alloc zero collect s, b)) :
    newNode zero collect s value next = .ok { alloc zero collect s with
      cells := (collect s).cells ++ [⟨b, next (alloc zero collect s).vars⟩] } := by
  have hcell : ∀ c : Cell α, ((collect s).cells ++ [c])[(collect s).cells.length]? = some c := fun c => by
    rw [List.getElem?_append_right le_rfl, Nat.sub_self]
    rfl
  have hset : ∀ c c' : Cell α, ((collect s).cells ++ [c]).set (collect s).cells.length c' = (collect s).cells ++ [c'] := fun c c' => by
    rw [List.set_append_right _ _ le_rfl, Nat.sub_self]
    rfl
  have hfirst := store_ok (s := alloc zero collect s) (hcell ⟨zero, 0⟩) fun c => { c with value := b }
  have hsecond := store_ok (s := { alloc zero collect s with cells := (collect s).cells ++ [⟨b, 0⟩] }) (hcell ⟨b, 0⟩)
    fun c => { c with next := next (alloc zero collect s).vars }
  simp only [alloc, hset] at hfirst hsecond
  rw [newNode, hvalue]
  exact (congrArg (· >>= fun s => setNext s s.vars.node (next s.vars)) hfirst).trans hsecond

end Storing

section Building

variable {α : Type} {zero : α} {collect : State α → State α} {s s' : State α} {move : ℕ → ℕ} {fresh pending : List ℕ}
  {xs rest built : List α} {lists : List (List α)}

/-- In the middle of building a list: the list it is made from, what is left of it and every
other list are as they were, and share no cell with the new one, nor with a node that is not
on it yet. -/
structure Building (s : State α) (fresh pending : List ℕ) (xs : List α) (lists : List (List α)) (rest built : List α) : Prop where
  head : Old s.cells (fresh ++ pending) s.vars.head xs
  others : List.Forall₂ (Old s.cells (fresh ++ pending)) s.others lists
  cur : Old s.cells (fresh ++ pending) s.vars.cur rest
  out : Chain s.cells s.vars.out fresh built
  nodup : (fresh ++ pending).Nodup
  tail : ∀ t, fresh.getLast? = some t → s.vars.tail = t + 1
  node : ∀ n ∈ pending, s.vars.node = n + 1 ∧ n < s.cells.length

theorem Building.reached (h : Building s fresh pending xs lists rest built) :
    ∀ k ∈ fresh ++ pending, Reached s (k + 1) ∧ k < s.cells.length := by
  intro k hk
  rcases List.mem_append.mp hk with hk | hk
  · exact ⟨h.out.reached .out k hk, h.out.lt k hk⟩
  · obtain ⟨hnode, hlt⟩ := h.node k hk
    exact ⟨hnode ▸ .node, hlt⟩

theorem Building.moved (h : Building s fresh pending xs lists rest built) (hm : Moved s s' move) :
    Building s' (fresh.map (place move)) (pending.map (place move)) xs lists rest built := by
  have hfresh := h.reached
  have hplace : ∀ k ∈ fresh ++ pending, move (k + 1) = place move k + 1 ∧ place move k < s'.cells.length := by
    intro k hk
    obtain ⟨k', hk', hcell⟩ := hm.cell k _ (hfresh k hk).1 (List.getElem?_eq_getElem (hfresh k hk).2)
    rw [place, hk']
    exact ⟨rfl, (List.getElem?_eq_some_iff.mp hcell).1⟩
  refine ⟨?_, ?_, ?_, ?_, ?_, fun t ht => ?_, fun n hn => ?_⟩
  · rw [hm.vars, ← List.map_append]
    exact hm.old hfresh h.head .head
  · rw [hm.others, List.forall₂_map_left_iff, ← List.map_append]
    exact List.forall₂_iff_get.mpr ⟨h.others.length_eq, fun i hi hi' =>
      hm.old hfresh (h.others.get hi hi') (.other (List.get_mem _ _))⟩
  · rw [hm.vars, ← List.map_append]
    exact hm.old hfresh h.cur .cur
  · rw [hm.vars]
    exact hm.chain h.out .out
  · rw [← List.map_append]
    refine h.nodup.map_on fun j hj k hk heq => ?_
    exact hm.place_inj (hfresh j hj).1 (hfresh k hk).1 (hfresh j hj).2 (hfresh k hk).2 heq
  · rw [List.getLast?_map, Option.map_eq_some_iff] at ht
    obtain ⟨k, hk, rfl⟩ := ht
    rw [hm.vars, Locals.map, h.tail k hk]
    exact (hplace k (List.mem_append_left _ (List.mem_of_getLast? hk))).1
  · obtain ⟨k, hk, rfl⟩ := List.mem_map.mp hn
    obtain ⟨hmove, hlt⟩ := hplace k (List.mem_append_right _ hk)
    rw [hm.vars, Locals.map, (h.node k hk).1]
    exact ⟨hmove, hlt⟩

theorem Building.collected (h : Building s fresh pending xs lists rest built) (hc : Collects collect) :
    ∃ fresh' pending', pending'.length = pending.length ∧ Building (collect s) fresh' pending' xs lists rest built := by
  obtain ⟨move, hm⟩ := hc s
  exact ⟨_, _, List.length_map .., h.moved hm⟩

/-- A new cell is not on any list. -/
theorem Building.alloc (zero : α) (h : Building s fresh [] xs lists rest built) (hc : Collects collect) :
    ∃ fresh' n, Building (alloc zero collect s) fresh' [n] xs lists rest built := by
  obtain ⟨fresh, pending, hlength, h⟩ := h.collected hc
  obtain rfl := List.length_eq_zero_iff.mp hlength
  obtain ⟨hhead, hothers, hcur, hout, hnodup, htail, -⟩ := h
  rw [List.append_nil] at hhead hothers hcur hnodup
  have hnew : (collect s).cells.length ∉ fresh := fun hmem => absurd (hout.lt _ hmem) (lt_irrefl _)
  refine ⟨fresh, (collect s).cells.length, hhead.append _, hothers.imp fun r xs hr => hr.append _, hcur.append _, hout.append _, ?_,
    htail, fun n hn => ?_⟩
  · exact List.nodup_append.mpr ⟨hnodup, List.nodup_singleton _, fun a ha b hb heq => hnew (List.mem_singleton.mp hb ▸ heq ▸ ha)⟩
  · rw [List.mem_singleton.mp hn]
    exact ⟨rfl, by rw [Chains.alloc, List.length_append]; exact Nat.lt_succ_self _⟩

/-- The node that is not on the list yet may be written. -/
theorem Building.written {n : ℕ} (h : Building s fresh [n] xs lists rest built) (c : Cell α) :
    Building { s with cells := s.cells.set n c } fresh [n] xs lists rest built := by
  have hmem : n ∈ fresh ++ [n] := List.mem_append_right _ (List.mem_singleton_self n)
  have hnew : n ∉ fresh := fun hn => (List.nodup_append.mp h.nodup).2.2 n hn n (List.mem_singleton_self n) rfl
  refine ⟨h.head.set hmem c, h.others.imp fun r xs hr => hr.set hmem c, h.cur.set hmem c, h.out.set hnew c, h.nodup, h.tail,
    fun k hk => ?_⟩
  rw [List.length_set]
  exact h.node k hk

/-- What is left, and what a step to the next cell leaves. -/
theorem Building.curValue {x : α} (h : Building s fresh pending xs lists (x :: rest) built) :
    curValue s = .ok (s, x) ∧ ∃ s', advance s = .ok s' ∧ Building s' fresh pending xs lists rest built := by
  obtain ⟨places, hchain, hapart⟩ := h.cur
  obtain ⟨k, next, places, hcur, hk, rfl, htail⟩ := hchain.uncons
  have hcell : cellAt s s.vars.cur = .ok ⟨x, next⟩ := hcur ▸ cellAt_ok hk
  refine ⟨by rw [Chains.curValue, hcell]; rfl, { s with vars := { s.vars with cur := next } }, by rw [advance, hcell]; rfl, h.head,
    h.others, ⟨places, htail, fun j hj => hapart j (List.mem_cons_of_mem _ hj)⟩, h.out, h.nodup, h.tail, h.node⟩

theorem Building.cur_ne_zero {x : α} (h : Building s fresh pending xs lists (x :: rest) built) : s.vars.cur ≠ 0 := by
  obtain ⟨places, hchain, -⟩ := h.cur
  obtain ⟨k, next, places, hcur, -⟩ := hchain.uncons
  rw [hcur]
  exact Nat.succ_ne_zero k

theorem Building.cur_eq_zero (h : Building s fresh pending xs lists [] built) : s.vars.cur = 0 := by
  obtain ⟨places, hchain, -⟩ := h.cur
  exact hchain.eq_zero.1

/-- However the value comes about, the node holds it and no list is touched. -/
theorem Building.newNode (zero : α) {rest' : List α} (h : Building s fresh [] xs lists rest built) (hc : Collects collect)
    {value : State α → Run (State α × α)} {b : α}
    (hvalue : ∀ t fresh n, Building t fresh [n] xs lists rest built →
      ∃ t' fresh' n', value t = .ok (t', b) ∧ Building t' fresh' [n'] xs lists rest' built) :
    ∃ s' fresh' n, newNode zero collect s value (fun _ => 0) = .ok s' ∧ Building s' fresh' [n] xs lists rest' built ∧
      s'.cells[n]? = some ⟨b, 0⟩ := by
  obtain ⟨fresh₁, n₁, h₁⟩ := h.alloc zero hc
  obtain ⟨t, fresh', n, hrun, ht⟩ := hvalue _ _ _ h₁
  obtain ⟨hnode, hlt⟩ := ht.node n (List.mem_singleton_self n)
  obtain ⟨c, hcell⟩ : ∃ c, t.cells[n]? = some c := ⟨_, List.getElem?_eq_getElem hlt⟩
  have hself : (t.cells.set n { c with value := b })[n]? = some { c with value := b } := List.getElem?_set_self hlt
  have hfirst := store_ok hcell fun c => { c with value := b }
  have hsecond := store_ok (s := { t with cells := t.cells.set n { c with value := b } }) hself fun c => { c with next := 0 }
  refine ⟨_, fresh', n, ?_, (ht.written { c with value := b }).written ⟨b, 0⟩, List.getElem?_set_self (by rw [List.length_set]; exact hlt)⟩
  rw [Chains.newNode, hrun]
  change (setValue t t.vars.node b >>= fun s => setNext s s.vars.node 0) = _
  rw [setValue, hnode, hfirst]
  change setNext _ t.vars.node 0 = _
  rw [hnode]
  exact hsecond

/-- The node becomes the last of the list that is built. -/
theorem Building.link {n : ℕ} {b : α} (h : Building s fresh [n] xs lists rest built) (hn : s.cells[n]? = some ⟨b, 0⟩) :
    ∃ s' fresh', link s = .ok s' ∧ Building s' fresh' [] xs lists rest (built ++ [b]) := by
  have hnode := (h.node n (List.mem_singleton_self n)).1
  have hnew : n ∉ fresh := fun hmem => (List.nodup_append.mp h.nodup).2.2 n hmem n (List.mem_singleton_self n) rfl
  cases hlast : fresh.getLast? with
  | none =>
    obtain rfl := List.getLast?_eq_none_iff.mp hlast
    obtain ⟨hout, rfl⟩ : s.vars.out = 0 ∧ built = [] := by
      have hchain := h.out
      generalize s.vars.out = r at hchain
      cases hchain
      exact ⟨rfl, rfl⟩
    refine ⟨{ s with vars := { s.vars with out := s.vars.node, tail := s.vars.node } }, [n], ?_, h.head, h.others, h.cur,
      hnode ▸ .cons hn .nil, h.nodup, fun k hk => ?_, by simp⟩
    · rw [Chains.link, if_pos hout]
      rfl
    · cases hk
      exact hnode
  | some last =>
    have hmem := List.mem_of_getLast? hlast
    have hlt := h.out.lt _ hmem
    obtain ⟨c, hcell⟩ : ∃ c, s.cells[last]? = some c := ⟨_, List.getElem?_eq_getElem hlt⟩
    have hout : s.vars.out ≠ 0 := by
      intro hnull
      have hchain := h.out
      rw [hnull] at hchain
      cases hchain
      cases hlast
    have hkeep : last ∈ fresh ++ [n] := List.mem_append_left _ hmem
    have hset : setNext s s.vars.tail s.vars.node = .ok { s with cells := s.cells.set last { c with next := n + 1 } } := by
      rw [h.tail last hlast, setNext, store_ok hcell, hnode]
    refine ⟨{ s with cells := s.cells.set last { c with next := n + 1 }, vars := { s.vars with tail := s.vars.node } },
      fresh ++ [n], ?_, ?_, ?_, ?_, h.out.link (List.nodup_append.mp h.nodup).1 hlast hcell hn hnew, ?_, fun k hk => ?_, by simp⟩
    · rw [Chains.link, if_neg hout, hset]
      rfl
    · rw [List.append_nil]
      exact h.head.set hkeep _
    · rw [List.append_nil]
      exact h.others.imp fun r xs hr => hr.set hkeep _
    · rw [List.append_nil]
      exact h.cur.set hkeep _
    · rw [List.append_nil]
      exact h.nodup
    · rw [List.getLast?_concat] at hk
      cases hk
      exact hnode

theorem Building.applyTo {β : Type} {x : α} (h : Building s fresh pending xs lists (x :: rest) built) (hc : Collects collect) (f : α → β) :
    ∃ s' fresh' pending', applyTo collect f s = .ok (s', f x) ∧ pending'.length = pending.length ∧
      Building s' fresh' pending' xs lists (x :: rest) built := by
  obtain ⟨fresh', pending', hlength, h'⟩ := h.collected hc
  exact ⟨collect s, fresh', pending', by rw [Chains.applyTo, h.curValue.1]; rfl, hlength, h'⟩

/-- What a turn of a loop over the list does with its element. -/
def Turns (turn : State α → Run (State α ⊕ State α)) (f : α → Option α) : Prop :=
  (∀ s, s.vars.cur = 0 → turn s = .ok (.inr s)) ∧
    ∀ s fresh xs lists x rest built, Building s fresh [] xs lists (x :: rest) built →
      ∃ s' fresh', turn s = .ok (.inl s') ∧ Building s' fresh' [] xs lists rest (built ++ (f x).toList)

theorem mapTurn_turns (hc : Collects collect) (f : α → α) : Turns (mapTurn zero collect f) fun x => some (f x) := by
  refine ⟨fun s hcur => by rw [mapTurn, if_neg (not_not.mpr hcur)]; rfl, fun s fresh xs lists x rest built h => ?_⟩
  have hvalue : ∀ t fresh n, Building t fresh [n] xs lists (x :: rest) built →
      ∃ t' fresh' n', applyTo collect f t = .ok (t', f x) ∧ Building t' fresh' [n'] xs lists (x :: rest) built := by
    intro t fresh n ht
    obtain ⟨t', fresh', pending', hrun, hlength, ht'⟩ := ht.applyTo hc f
    obtain ⟨n', rfl⟩ := List.length_eq_one_iff.mp hlength
    exact ⟨t', fresh', n', hrun, ht'⟩
  obtain ⟨s₁, fresh₁, n, hnew, h₁, hn⟩ := h.newNode zero hc hvalue
  obtain ⟨s₂, fresh₂, hlink, h₂⟩ := h₁.link hn
  obtain ⟨-, s₃, hadvance, h₃⟩ := h₂.curValue
  exact ⟨s₃, fresh₂, by rw [mapTurn, if_pos h.cur_ne_zero, hnew, ok_bind, hlink, ok_bind, hadvance]; rfl, h₃⟩

theorem filterTurn_turns (hc : Collects collect) (keep : α → Bool) :
    Turns (filterTurn zero collect keep) fun x => if keep x then some x else none := by
  refine ⟨fun s hcur => by rw [filterTurn, if_neg (not_not.mpr hcur)]; rfl, fun s fresh xs lists x rest built h => ?_⟩
  obtain ⟨s₁, fresh₁, pending, hkeep, hlength, h₁⟩ := h.applyTo hc keep
  obtain rfl := List.length_eq_zero_iff.mp hlength
  rw [filterTurn, if_pos h.cur_ne_zero, hkeep, ok_bind]
  dsimp only
  cases keep x with
  | true =>
    have hvalue : ∀ t fresh n, Building t fresh [n] xs lists (x :: rest) built →
        ∃ t' fresh' n', curValue t = .ok (t', x) ∧ Building t' fresh' [n'] xs lists (x :: rest) built :=
      fun t fresh n ht => ⟨t, fresh, n, ht.curValue.1, ht⟩
    obtain ⟨s₂, fresh₂, n, hnew, h₂, hn⟩ := h₁.newNode zero hc hvalue
    obtain ⟨s₃, fresh₃, hlink, h₃⟩ := h₂.link hn
    obtain ⟨-, s₄, hadvance, h₄⟩ := h₃.curValue
    exact ⟨s₄, fresh₃, by rw [if_pos rfl, hnew, ok_bind, hlink, ok_bind, hadvance]; rfl, h₄⟩
  | false =>
    obtain ⟨-, s₂, hadvance, h₂⟩ := h₁.curValue
    refine ⟨s₂, fresh₁, ?_, by rwa [if_neg Bool.false_ne_true, Option.toList_none, List.append_nil]⟩
    rw [if_neg Bool.false_ne_true]
    change (advance s₁ >>= fun s => pure (Sum.inl s)) = _
    rw [hadvance]
    rfl

/-- The induction is on what is left of the list. -/
theorem Turns.loop {turn : State α → Run (State α ⊕ State α)} {f : α → Option α} (hturn : Turns turn f)
    (h : Building s fresh [] xs lists rest built) {fuel : ℕ} (hfuel : rest.length < fuel) :
    ∃ s' fresh', loop .outOfFuel turn fuel s = .ok s' ∧ Building s' fresh' [] xs lists [] (built ++ rest.filterMap f) := by
  induction rest generalizing s fresh built fuel with
  | nil =>
    obtain ⟨fuel, rfl⟩ := Nat.exists_eq_succ_of_ne_zero (Nat.ne_of_gt hfuel)
    refine ⟨s, fresh, by rw [Loops.loop, hturn.1 s h.cur_eq_zero], ?_⟩
    rw [List.filterMap_nil, List.append_nil]
    exact h
  | cons x rest ih =>
    obtain ⟨fuel, rfl⟩ := Nat.exists_eq_succ_of_ne_zero (Nat.ne_of_gt (Nat.zero_lt_of_lt hfuel))
    obtain ⟨s₁, fresh₁, hrun, h₁⟩ := hturn.2 s fresh xs lists x rest built h
    obtain ⟨s₂, fresh₂, hloop, h₂⟩ := ih h₁ (Nat.lt_of_succ_lt_succ hfuel)
    refine ⟨s₂, fresh₂, by rw [Loops.loop, hrun]; exact hloop, ?_⟩
    have hcons : (x :: rest).filterMap f = (f x).toList ++ rest.filterMap f := by
      cases hfx : f x <;> simp [hfx]
    rw [hcons, ← List.append_assoc]
    exact h₂

end Building

section Prepending

variable {α : Type} {zero : α} {collect : State α → State α} {s s' : State α} {move : ℕ → ℕ} {xs rest built : List α}
  {lists : List (List α)}

/-- In the middle of a function that only adds cells in front. -/
structure Prepending (s : State α) (xs : List α) (lists : List (List α)) (rest built : List α) : Prop where
  head : Holds s.cells s.vars.head xs
  others : List.Forall₂ (Holds s.cells) s.others lists
  cur : Holds s.cells s.vars.cur rest
  out : Holds s.cells s.vars.out built

theorem forall₂_moved (hm : Moved s s' move) (h : List.Forall₂ (Holds s.cells) s.others lists) :
    List.Forall₂ (Holds s'.cells) s'.others lists := by
  rw [hm.others, List.forall₂_map_left_iff]
  exact List.forall₂_iff_get.mpr ⟨h.length_eq, fun i hi hi' => hm.holds (h.get hi hi') (.other (List.get_mem _ _))⟩

theorem Prepending.collected (h : Prepending s xs lists rest built) (hc : Collects collect) :
    Prepending (collect s) xs lists rest built := by
  obtain ⟨move, hm⟩ := hc s
  have hvars := hm.vars
  refine ⟨?_, forall₂_moved hm h.others, ?_, ?_⟩
  · rw [hvars]
    exact hm.holds h.head .head
  · rw [hvars]
    exact hm.holds h.cur .cur
  · rw [hvars]
    exact hm.holds h.out .out

theorem Prepending.append (h : Prepending s xs lists rest built) (c : Cell α) (node : ℕ) :
    Prepending { s with cells := s.cells ++ [c], vars := { s.vars with node := node } } xs lists rest built :=
  ⟨h.head.append c, h.others.imp fun _ _ hr => hr.append c, h.cur.append c, h.out.append c⟩

theorem holds_concat {cells : List (Cell α)} {r : ℕ} {ys : List α} (h : Holds cells r ys) (y : α) :
    Holds (cells ++ [⟨y, r⟩]) (cells.length + 1) (y :: ys) := by
  obtain ⟨places, hchain⟩ := h
  refine ⟨cells.length :: places, .cons ?_ (hchain.append _)⟩
  rw [List.getElem?_append_right le_rfl, Nat.sub_self]
  rfl

theorem Prepending.curValue {x : α} (h : Prepending s xs lists (x :: rest) built) :
    s.vars.cur ≠ 0 ∧ curValue s = .ok (s, x) ∧ ∃ s', advance s = .ok s' ∧ Prepending s' xs lists rest built := by
  obtain ⟨places, hchain⟩ := h.cur
  obtain ⟨k, next, places, hcur, hk, rfl, htail⟩ := hchain.uncons
  have hcell : cellAt s s.vars.cur = .ok ⟨x, next⟩ := hcur ▸ cellAt_ok hk
  refine ⟨hcur ▸ Nat.succ_ne_zero k, by rw [Chains.curValue, hcell]; rfl, { s with vars := { s.vars with cur := next } },
    by rw [advance, hcell]; rfl, h.head, h.others, ⟨places, htail⟩, h.out⟩

theorem Prepending.reverseTurn (zero : α) {x : α} (h : Prepending s xs lists (x :: rest) built) (hc : Collects collect) :
    ∃ s', reverseTurn zero collect s = .ok (.inl s') ∧ Prepending s' xs lists rest (x :: built) := by
  have h' := h.collected hc
  have hvalue := (h'.append ⟨zero, 0⟩ ((collect s).cells.length + 1)).curValue.2.1
  have hnode := h'.append ⟨x, (collect s).vars.out⟩ ((collect s).cells.length + 1)
  have hout : Prepending { alloc zero collect s with
      cells := (collect s).cells ++ [⟨x, (collect s).vars.out⟩]
      vars := { (collect s).vars with node := (collect s).cells.length + 1, out := (collect s).cells.length + 1 } }
      xs lists (x :: rest) (x :: built) :=
    ⟨hnode.head, hnode.others, hnode.cur, holds_concat h'.out x⟩
  obtain ⟨-, -, s', hadvance, hdone⟩ := hout.curValue
  refine ⟨s', ?_, hdone⟩
  rw [Chains.reverseTurn, if_pos h.curValue.1, newNode_eq hvalue, ok_bind]
  exact congrArg (· >>= _) hadvance

theorem reverseLoop_ok (hc : Collects collect) (h : Prepending s xs lists rest built) {fuel : ℕ} (hfuel : rest.length < fuel) :
    ∃ s', loop .outOfFuel (reverseTurn zero collect) fuel s = .ok s' ∧ Prepending s' xs lists [] (rest.reverse ++ built) := by
  induction rest generalizing s built fuel with
  | nil =>
    obtain ⟨fuel, rfl⟩ := Nat.exists_eq_succ_of_ne_zero (Nat.ne_of_gt hfuel)
    have hcur : s.vars.cur = 0 := by
      obtain ⟨places, hchain⟩ := h.cur
      exact hchain.eq_zero.1
    have hend : reverseTurn zero collect s = .ok (.inr s) := by
      rw [reverseTurn, if_neg (not_not.mpr hcur)]
      rfl
    exact ⟨s, by rw [loop, hend], h⟩
  | cons x rest ih =>
    obtain ⟨fuel, rfl⟩ := Nat.exists_eq_succ_of_ne_zero (Nat.ne_of_gt (Nat.zero_lt_of_lt hfuel))
    obtain ⟨s₁, hturn, h₁⟩ := h.reverseTurn zero hc
    obtain ⟨s₂, hloop, h₂⟩ := ih h₁ (Nat.lt_of_succ_lt_succ hfuel)
    refine ⟨s₂, by rw [loop, hturn]; exact hloop, ?_⟩
    rw [List.reverse_cons, List.append_assoc]
    exact h₂

end Prepending

section Persistence

variable {α : Type} {zero : α} {collect : State α → State α} {s : State α} {xs : List α} {lists : List (List α)}

/-- A call that returns a list and leaves every list that there was. -/
def Returns (result : Run (State α)) (xs : List α) (lists : List (List α)) (ys : List α) : Prop :=
  ∃ s', result = .ok s' ∧ Holds s'.cells s'.vars.out ys ∧ Holds s'.cells s'.vars.head xs ∧
    List.Forall₂ (Holds s'.cells) s'.others lists

theorem list_push_returns (hc : Collects collect) (hhead : Holds s.cells s.vars.head xs)
    (hothers : List.Forall₂ (Holds s.cells) s.others lists) (value : α) :
    Returns (list_push zero collect s value) xs lists (value :: xs) := by
  obtain ⟨move, hm⟩ := hc s
  have hhead' : Holds (collect s).cells (collect s).vars.head xs := by
    rw [hm.vars]
    exact hm.holds hhead .head
  refine ⟨_, by rw [list_push, newNode_eq rfl]; rfl, holds_concat hhead' value, hhead'.append _, ?_⟩
  exact (forall₂_moved hm hothers).imp fun r xs hr => hr.append _

theorem build_returns {turn : State α → Run (State α ⊕ State α)} {f : α → Option α} (hturn : Turns turn f)
    (hhead : Holds s.cells s.vars.head xs) (hothers : List.Forall₂ (Holds s.cells) s.others lists) {fuel : ℕ} (hfuel : xs.length < fuel) :
    Returns (build turn fuel s) xs lists (xs.filterMap f) := by
  have hstart : Building { s with vars := { s.vars with out := 0, tail := 0, cur := s.vars.head } } [] [] xs lists xs [] :=
    ⟨hhead.old, hothers.imp fun r xs hr => hr.old, hhead.old, .nil, List.nodup_nil, fun t ht => by simp at ht, by simp⟩
  obtain ⟨s', fresh, hloop, h⟩ := hturn.loop hstart hfuel
  exact ⟨s', hloop, ⟨fresh, h.out⟩, h.head.holds, h.others.imp fun r xs hr => hr.holds⟩

theorem list_reverse_returns (hc : Collects collect) (hhead : Holds s.cells s.vars.head xs)
    (hothers : List.Forall₂ (Holds s.cells) s.others lists) {fuel : ℕ} (hfuel : xs.length < fuel) :
    Returns (list_reverse zero collect fuel s) xs lists xs.reverse := by
  have hstart : Prepending { s with vars := { s.vars with out := 0, cur := s.vars.head } } xs lists xs [] :=
    ⟨hhead, hothers, hhead, [], .nil⟩
  obtain ⟨s', hloop, h⟩ := reverseLoop_ok hc hstart hfuel
  rw [List.append_nil] at h
  exact ⟨s', hloop, h.out, h.head, h.others⟩

/-- The functions return the lists they are to, whatever the collector moves, and every list
the program has keeps its elements, whatever cells they share. -/
theorem lists_persistent (hc : Collects collect) (hhead : Holds s.cells s.vars.head xs)
    (hothers : List.Forall₂ (Holds s.cells) s.others lists) {fuel : ℕ} (hfuel : xs.length < fuel) :
    (∀ value, Returns (list_push zero collect s value) xs lists (value :: xs)) ∧
      (∀ f, Returns (list_map zero collect fuel s f) xs lists (xs.map f)) ∧
      (∀ keep, Returns (list_filter zero collect fuel s keep) xs lists (xs.filter keep)) ∧
      Returns (list_reverse zero collect fuel s) xs lists xs.reverse := by
  refine ⟨list_push_returns hc hhead hothers, fun f => ?_, fun keep => ?_, list_reverse_returns hc hhead hothers hfuel⟩
  · rw [← List.filterMap_eq_map]
    exact build_returns (mapTurn_turns hc f) hhead hothers hfuel
  · have hfilter : xs.filter keep = xs.filterMap fun a => if keep a then some a else none := by
      rw [← List.filterMap_eq_filter]
      rfl
    rw [hfilter]
    exact build_returns (filterTurn_turns hc keep) hhead hothers hfuel

/-- A collector that moves every cell up by one. -/
def moveUp (s : State ℕ) : State ℕ :=
  let up r := if r = 0 then 0 else r + 1
  { cells := ⟨0, 0⟩ :: s.cells.map fun c => { c with next := up c.next }
    vars := s.vars.map up
    others := s.others.map up }

theorem moveUp_collects : Collects moveUp := by
  intro s
  refine ⟨fun r => if r = 0 then 0 else r + 1, rfl, rfl, rfl, fun k c _ hk => ⟨k + 1, rfl, ?_⟩, fun a b _ _ h => ?_⟩
  · change (s.cells.map fun c => _)[k]? = _
    rw [List.getElem?_map, hk]
    rfl
  · split_ifs at h <;> omega

/-- Two lists, `1 2 3` and `9 2 3`, that share their last two cells. -/
def sharing : State ℕ := { cells := [⟨3, 0⟩, ⟨2, 1⟩, ⟨1, 2⟩, ⟨9, 2⟩], vars := { head := 3 }, others := [4] }

theorem sharing_persistent :
    (∀ value, Returns (list_push 0 moveUp sharing value) [1, 2, 3] [[9, 2, 3]] (value :: [1, 2, 3])) ∧
      (∀ f, Returns (list_map 0 moveUp 4 sharing f) [1, 2, 3] [[9, 2, 3]] ([1, 2, 3].map f)) ∧
      (∀ keep, Returns (list_filter 0 moveUp 4 sharing keep) [1, 2, 3] [[9, 2, 3]] ([1, 2, 3].filter keep)) ∧
      Returns (list_reverse 0 moveUp 4 sharing) [1, 2, 3] [[9, 2, 3]] [3, 2, 1] := by
  have hshared : Chain sharing.cells 2 [1, 0] [2, 3] := .cons rfl (.cons rfl .nil)
  exact lists_persistent moveUp_collects ⟨_, .cons rfl hshared⟩ (.cons ⟨_, .cons rfl hshared⟩ .nil) (by decide)

end Persistence

end QuinLang.Std.Chains
