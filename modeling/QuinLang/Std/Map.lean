import QuinLang.Compiler.Builtins

/-! `std/map.ql`. Ints are 16-bit, an array access is checked, and a loop or a call runs
on fuel; `zeroK` and `zeroV` are what a fresh array holds. -/

namespace QuinLang.Std

/-- How a call can end other than by returning. -/
inductive Stop
  | panic (message : String)
  | fault (message : String)
  | outOfFuel
  deriving DecidableEq, Repr

abbrev Run := Except Stop

/-- `a & b`. -/
def and16 (a b : ℤ) : ℤ := wrap16 ((a % 65536).toNat &&& (b % 65536).toNat : ℕ)

def map_empty_slot : ℤ := 0
def map_used_slot : ℤ := 1
def map_dead_slot : ℤ := 2

structure Map (K V : Type) where
  keys : List K
  values : List V
  state : List ℤ
  hash : K → ℤ
  len : ℤ
  /-- tombstones, which count toward the load -/
  dead : ℤ
  mask : ℤ

section Arrays

variable {α : Type}

def indexFault {β : Type} (count : ℕ) (index : ℤ) : Run β :=
  .error (.fault s!"Array index out of bounds: index={index}, length={count}")

def arrayGet (xs : List α) (index : ℤ) : Run α :=
  if index < 0 then indexFault xs.length index
  else
    match xs[index.toNat]? with
    | some x => .ok x
    | none => indexFault xs.length index

def arraySet (xs : List α) (index : ℤ) (x : α) : Run (List α) :=
  if index < 0 ∨ index ≥ xs.length then indexFault xs.length index else .ok (xs.set index.toNat x)

def array_new (zero : α) (count : ℤ) : Run (List α) :=
  if count < 0 then .error (.fault s!"Cannot build an array of {count} elements")
  else .ok (List.replicate count.toNat zero)

/-- `for (let i = i; i < bound; i = i + 1)`. -/
def forUpTo {σ : Type} (bound : ℤ) (body : ℤ → σ → Run σ) : ℕ → ℤ → σ → Run σ
  | 0, _, _ => .error .outOfFuel
  | fuel + 1, i, s =>
    if i < bound then
      match body i s with
      | .error e => .error e
      | .ok s => forUpTo bound body fuel (wrap16 (i + 1)) s
    else .ok s

end Arrays

/-- The loop of `map_round_up`. -/
def roundUpFrom (n : ℤ) : ℕ → ℤ → Run ℤ
  | 0, _ => .error .outOfFuel
  | fuel + 1, size =>
    if size < n then
      let doubled := wrap16 (size * 2)
      if doubled ≤ size then .error (.panic "map capacity is too large") else roundUpFrom n fuel doubled
    else .ok size

def map_round_up (fuel : ℕ) (n : ℤ) : Run ℤ := roundUpFrom n fuel 8

section Map

variable {K V : Type} [BEq K] (zeroK : K) (zeroV : V)

def map_new (fuel : ℕ) (capacity : ℤ) (hash : K → ℤ) : Run (Map K V) := do
  let slots ← map_round_up fuel capacity
  return {
    keys := ← array_new zeroK slots
    values := ← array_new zeroV slots
    state := ← array_new 0 slots
    hash := hash
    len := 0
    dead := 0
    mask := wrap16 (slots - 1) }

/-- `m.state[i] == map_used_slot() && m.keys[i] == key`. -/
def holds (m : Map K V) (key : K) (i : ℤ) : Run Bool := do
  if (← arrayGet m.state i) = map_used_slot then return (← arrayGet m.keys i) == key else return false

/-- The loop of `map_slot_of`. -/
def slotFrom (m : Map K V) (key : K) : ℕ → ℤ → Run ℤ
  | 0, _ => .error .outOfFuel
  | fuel + 1, i => do
    if (← arrayGet m.state i) ≠ map_empty_slot then
      if ← holds m key i then return i else slotFrom m key fuel (and16 (wrap16 (i + 1)) m.mask)
    else return wrap16 (0 - 1)

/-- The slot a key occupies, or -1. -/
def map_slot_of (fuel : ℕ) (m : Map K V) (key : K) : Run ℤ :=
  slotFrom m key fuel (and16 (m.hash key) m.mask)

def map_has (fuel : ℕ) (m : Map K V) (key : K) : Run Bool := do return (← map_slot_of fuel m key) ≥ 0

def map_get (fuel : ℕ) (m : Map K V) (key : K) : Run (Option V) := do
  let i ← map_slot_of fuel m key
  if i < 0 then return none else return some (← arrayGet m.values i)

/-- The loop of `map_set`: whether it met the key, where it stopped, and the first
tombstone on the way, if any. -/
def setFrom (m : Map K V) (key : K) : ℕ → ℤ → ℤ → Run (Bool × ℤ × ℤ)
  | 0, _, _ => .error .outOfFuel
  | fuel + 1, i, reuse => do
    if (← arrayGet m.state i) ≠ map_empty_slot then
      if ← holds m key i then return (true, i, reuse)
      else
        let reuse := if (← arrayGet m.state i) = map_dead_slot ∧ reuse < 0 then i else reuse
        setFrom m key fuel (and16 (wrap16 (i + 1)) m.mask) reuse
    else return (false, i, reuse)

/-- `map_set` once there is room. -/
def insertInto (fuel : ℕ) (m : Map K V) (key : K) (value : V) : Run (Map K V) := do
  let (found, i, reuse) ← setFrom m key fuel (and16 (m.hash key) m.mask) (wrap16 (0 - 1))
  if found then return { m with values := ← arraySet m.values i value }
  else
    let (i, dead) := if reuse ≥ 0 then (reuse, wrap16 (m.dead - 1)) else (i, m.dead)
    return { m with
      dead := dead
      keys := ← arraySet m.keys i key
      values := ← arraySet m.values i value
      state := ← arraySet m.state i map_used_slot
      len := wrap16 (m.len + 1) }

/-- Whether one more entry would be too many. -/
def full (m : Map K V) : Bool := wrap16 (wrap16 (wrap16 (m.len + m.dead) + 1) * 4) > wrap16 (wrap16 (m.mask + 1) * 3)

mutual
def map_grow : ℕ → Map K V → Run (Map K V)
  | 0, _ => .error .outOfFuel
  | fuel + 1, m => do
    let slots := wrap16 (wrap16 (m.mask + 1) * 2)
    if slots ≤ m.mask then throw (.panic "map capacity overflow")
    let fresh := { m with
      keys := ← array_new zeroK slots
      values := ← array_new zeroV slots
      state := ← array_new 0 slots
      mask := wrap16 (slots - 1)
      len := 0
      dead := 0 }
    forUpTo m.state.length (fun i fresh => do
      if (← arrayGet m.state i) = map_used_slot then
        map_set fuel fresh (← arrayGet m.keys i) (← arrayGet m.values i)
      else return fresh) fuel 0 fresh

def map_set : ℕ → Map K V → K → V → Run (Map K V)
  | 0, _, _, _ => .error .outOfFuel
  | fuel + 1, m, key, value => do
    let m ← if full m then map_grow fuel m else pure m
    insertInto fuel m key value
end

def map_remove (fuel : ℕ) (m : Map K V) (key : K) : Run (Bool × Map K V) := do
  let i ← map_slot_of fuel m key
  if i < 0 then return (false, m)
  else
    return (true, { m with
      state := ← arraySet m.state i map_dead_slot
      len := wrap16 (m.len - 1)
      dead := wrap16 (m.dead + 1) })

def map_clear (fuel : ℕ) (m : Map K V) : Run (Map K V) := do
  let state ← forUpTo m.state.length (fun i state => arraySet state i map_empty_slot) fuel 0 m.state
  return { m with state := state, len := 0, dead := 0 }

def map_keys (fuel : ℕ) (m : Map K V) : Run (List K) := do
  let out ← array_new zeroK m.len
  let filled ← forUpTo m.state.length (fun i (acc : List K × ℤ) => do
    if (← arrayGet m.state i) = map_used_slot then
      return (← arraySet acc.1 acc.2 (← arrayGet m.keys i), wrap16 (acc.2 + 1))
    else return acc) fuel 0 (out, 0)
  return filled.1

end Map

end QuinLang.Std
