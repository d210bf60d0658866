import QuinLang.Lib.Loops
import QuinLang.Std.Map

/-! `std/string.ql` and `std/parse.ql`: searching, splitting, replacing and reading
integers. A string is a run of bytes, and the heap is taken to suffice. -/

namespace QuinLang.Std

open Loops (loop)

section Builtins

/-- A string of the machine: its length is a positive 16-bit int. -/
structure Str where
  bytes : List UInt8
  short : bytes.length ≤ 0x7FFF
  deriving DecidableEq

def newString (bytes : List UInt8) : Run Str :=
  if h : bytes.length ≤ 0x7FFF then .ok ⟨bytes, h⟩
  else .error (.fault s!"String of {bytes.length} characters is too long")

def str_len (s : Str) : ℤ := s.bytes.length

def charFault {β : Type} (index : ℤ) (s : Str) : Run β :=
  .error (.fault s!"str_char_at index out of range: index={index}, length={s.bytes.length}")

def str_char_at (s : Str) (index : ℤ) : Run ℤ :=
  if index < 0 then charFault index s
  else
    match s.bytes[index.toNat]? with
    | some b => .ok b.toNat
    | none => charFault index s

/-- `a + b` on strings. -/
def concat (a b : Str) : Run Str := newString (a.bytes ++ b.bytes)

def str_slice (s : Str) (start stop : ℤ) : Run Str :=
  if start < 0 ∨ stop > str_len s ∨ start > stop then
    .error (.fault s!"str_slice range out of bounds: start={start}, end={stop}, length={s.bytes.length}")
  else newString ((s.bytes.take stop.toNat).drop start.toNat)

def char_to_str (code : ℤ) : Run Str :=
  if code < 0 ∨ code > 255 then .error (.fault s!"char_to_str expects a code in 0..255, got {code}")
  else newString [UInt8.ofNat code.toNat]

def emptyString : Str := ⟨[], Nat.zero_le _⟩

end Builtins

section Search

variable (fuel : ℕ)

/-- A turn of the loop that compares `needle` with what `s` holds from `base` on. -/
def matchTurn (s needle : Str) (base i : ℤ) : Run (ℤ ⊕ Bool) := do
  if i < str_len needle then
    if (← str_char_at s (wrap16 (base + i))) ≠ (← str_char_at needle i) then return .inr false
    else return .inl (wrap16 (i + 1))
  else return .inr true

def matchesAt (s needle : Str) (base : ℤ) : Run Bool := loop .outOfFuel (matchTurn s needle base) fuel 0

/-- Here the index is `i` itself. -/
def str_starts_with (s pre : Str) : Run Bool :=
  if str_len pre > str_len s then return false else matchesAt fuel s pre 0

def str_ends_with (s suffix : Str) : Run Bool :=
  let base := wrap16 (str_len s - str_len suffix)
  if base < 0 then return false else matchesAt fuel s suffix base

/-- A turn of a search: `next` is where it goes on, unless it is `past` the end. -/
def searchTurn (s needle : Str) (past : ℤ → Bool) (next : ℤ → ℤ) (start : ℤ) : Run (ℤ ⊕ ℤ) := do
  if past start then return .inr (wrap16 (0 - 1))
  else if ← matchesAt fuel s needle start then return .inr start
  else return .inl (next start)

/-- The index where the needle first occurs, or -1. -/
def str_index_of (s needle : Str) : Run ℤ :=
  let limit := wrap16 (str_len s - str_len needle)
  loop .outOfFuel (searchTurn fuel s needle (fun start => limit < start) fun start => wrap16 (start + 1)) fuel 0

def str_last_index_of (s needle : Str) : Run ℤ :=
  loop .outOfFuel (searchTurn fuel s needle (fun start => start < 0) fun start => wrap16 (start - 1)) fuel
    (wrap16 (str_len s - str_len needle))

def str_contains (s needle : Str) : Run Bool := do return (← str_index_of fuel s needle) ≥ 0

end Search

section Splitting

variable (fuel : ℕ)

def countTurn (s : Str) (sep i n : ℤ) : Run ℤ := do
  if (← str_char_at s i) = sep then return wrap16 (n + 1) else return n

def str_count_separators (s : Str) (sep : ℤ) : Run ℤ := forUpTo (str_len s) (countTurn s sep) fuel 0 0

/-- The pieces so far in the array, how many there are, and where the next one starts. -/
structure Splitting where
  out : List Str
  piece : ℤ
  start : ℤ

/-- `out[piece] = str_slice(s, start, stop)`. -/
def Splitting.put (p : Splitting) (s : Str) (stop : ℤ) : Run (List Str) := do
  arraySet p.out p.piece (← str_slice s p.start stop)

def splitTurn (s : Str) (sep i : ℤ) (p : Splitting) : Run Splitting := do
  if (← str_char_at s i) = sep then
    let out ← p.put s i
    return ⟨out, wrap16 (p.piece + 1), wrap16 (i + 1)⟩
  else return p

def str_split (s : Str) (sep : ℤ) : Run (List Str) := do
  let count ← str_count_separators fuel s sep
  let out ← array_new emptyString (wrap16 (count + 1))
  let p ← forUpTo (str_len s) (splitTurn s sep) fuel 0 ⟨out, 0, 0⟩
  p.put s (str_len s)

def joinTurn (parts : List Str) (sep : Str) (i : ℤ) (out : Str) : Run Str := do
  let out ← if i > 0 then concat out sep else pure out
  concat out (← arrayGet parts i)

def str_join (parts : List Str) (sep : Str) : Run Str := forUpTo parts.length (joinTurn parts sep) fuel 0 emptyString

def str_lines (s : Str) : Run (List Str) := do
  if str_len s = 0 then array_new emptyString 0
  else
    let last ← str_char_at s (wrap16 (str_len s - 1))
    let text ← if str_len s > 0 ∧ last = 10 then str_slice s 0 (wrap16 (str_len s - 1)) else pure s
    str_split fuel text 10

end Splitting

section Replacing

variable (fuel : ℕ)

/-- A turn of the loop of `str_replace`: what is built so far, and the index. -/
def replaceTurn (s find replace : Str) (p : Str × ℤ) : Run ((Str × ℤ) ⊕ Str) := do
  if p.2 < str_len s then
    if ← str_starts_with fuel (← str_slice s p.2 (str_len s)) find then
      return .inl (← concat p.1 replace, wrap16 (p.2 + str_len find))
    else return .inl (← concat p.1 (← char_to_str (← str_char_at s p.2)), wrap16 (p.2 + 1))
  else return .inr p.1

def str_replace (s find replace : Str) : Run Str :=
  if str_len find = 0 then .error (.panic "str_replace needs something to find")
  else loop .outOfFuel (replaceTurn fuel s find replace) fuel (emptyString, 0)

end Replacing

section Parsing

variable (fuel : ℕ)

def is_digit (code : ℤ) : Bool := code ≥ 48 && code ≤ 57

/-- Whether the first character is a minus, and where the digits start. -/
def signed (first : ℤ) : Bool × ℤ := if first = 45 then (true, 1) else if first = 43 then (false, 1) else (false, 0)

/-- A turn of the loop of `str_parse_int`: the index, and the value so far. -/
def strDigitTurn (s : Str) (p : ℤ × ℤ) : Run ((ℤ × ℤ) ⊕ ℤ) := do
  if p.1 < str_len s then
    let code ← str_char_at s p.1
    if !is_digit code then throw (.panic "str_parse_int found a character that is not a digit")
    else return .inl (wrap16 (p.1 + 1), wrap16 (wrap16 (p.2 * 10) + wrap16 (code - 48)))
  else return .inr p.2

def str_parse_int (s : Str) : Run ℤ := do
  if str_len s = 0 then throw (.panic "str_parse_int called on an empty string")
  else
    let sign := signed (← str_char_at s 0)
    if sign.2 = str_len s then throw (.panic "str_parse_int found a sign with no digits")
    else
      let value ← loop .outOfFuel (strDigitTurn s) fuel (sign.2, 0)
      return if sign.1 then wrap16 (0 - value) else value

def parse_int_limit : ℤ := 32767

/-- `"-32768"`. -/
def smallest : List UInt8 := [45, 51, 50, 55, 54, 56]

/-- A turn of the loop of `parse_int`, which ends it when the value would not fit. -/
def digitTurn (s : Str) (p : ℤ × ℤ) : Run ((ℤ × ℤ) ⊕ Option ℤ) := do
  if p.1 < str_len s then
    let code ← str_char_at s p.1
    if !is_digit code then return .inr none
    else
      let digit := wrap16 (code - 48)
      if p.2 > wrap16 ((wrap16 (parse_int_limit - digit)).tdiv 10) then return .inr none
      else return .inl (wrap16 (p.1 + 1), wrap16 (wrap16 (p.2 * 10) + digit))
  else return .inr (some p.2)

def parse_int (s : Str) : Run (Option ℤ) := do
  if str_len s = 0 then return none
  else if s.bytes = smallest then return some (wrap16 (wrap16 (0 - parse_int_limit) - 1))
  else
    let sign := signed (← str_char_at s 0)
    if sign.2 = str_len s then return none
    else
      let value ← loop .outOfFuel (digitTurn s) fuel (sign.2, 0)
      return value.map fun value => if sign.1 then wrap16 (0 - value) else value

end Parsing

end QuinLang.Std
