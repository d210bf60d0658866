import Mathlib

/-! Message framing for the Debug Adapter Protocol: a header block, a blank line and a
JSON body, over a stream that hands out what has arrived. -/

namespace QuinLang.Dap

def ascii (text : String) : List UInt8 := text.toList.map fun c => UInt8.ofNat c.toNat

def HEADER_TERMINATOR : List UInt8 := [13, 10, 13, 10]
def CONTENT_LENGTH : List UInt8 := ascii "content-length"
def MAX_HEADER_BYTES : ℕ := 8192

/-- The digits `int` reads at most. -/
def INT_MAX_STR_DIGITS : ℕ := 4300

/-- Why the bytes are not DAP, with the values the message shows. -/
inductive ProtocolError
  | noTerminator
  | endedInHeader
  | noContentLength
  | notANumber (value : List UInt8)
  | negative (length : ℤ)
  | endedInBody (have_ need : ℕ)
  | notJson (message : String)
  deriving DecidableEq

/-- A dictionary in the order of its keys, its values of a type of their own. -/
abbrev Message (V : Type) := List (String × V)

/-- `dict(message, key=value)`. -/
def Message.set {V : Type} : Message V → String → V → Message V
  | [], key, value => [(key, value)]
  | (k, v) :: rest, key, value => if k = key then (k, value) :: rest else (k, v) :: Message.set rest key value

/-- JSON text in UTF-8, both ways. -/
structure Json (V : Type) where
  number : ℕ → V
  encode : Message V → List UInt8
  decode : List UInt8 → Except String (Message V)

/-- One end of a connection: the bytes each read still to come would find, what is
buffered, what has been written and the number of the last message. -/
structure MessageStream where
  reader : List (List UInt8) := []
  writer : List UInt8 := []
  buffer : List UInt8 := []
  seq : ℕ := 0
  deriving DecidableEq

/-- `reader.read(size)`: what has arrived, at most `size` bytes of it. -/
def readSome (size : ℕ) : List (List UInt8) → List UInt8 × List (List UInt8)
  | [] => ([], [])
  | chunk :: chunks =>
    if chunk.length ≤ size then (chunk, chunks) else (chunk.take size, chunk.drop size :: chunks)

theorem flatten_readSome (size : ℕ) (chunks : List (List UInt8)) :
    (readSome size chunks).1 ++ (readSome size chunks).2.flatten = chunks.flatten := by
  cases chunks with
  | nil => rfl
  | cons chunk chunks =>
    rw [readSome]
    split
    · rfl
    · simp [← List.append_assoc]

/-- Where `text` first occurs. -/
def find (text : List UInt8) : List UInt8 → Option ℕ
  | [] => if text = [] then some 0 else none
  | b :: bs => if text.isPrefixOf (b :: bs) then some 0 else (find text bs).map (· + 1)

/-- ASCII space. -/
def isSpaceByte (b : UInt8) : Bool := (9 ≤ b && b ≤ 13) || b == 32

def strip (bytes : List UInt8) : List UInt8 :=
  ((bytes.dropWhile isSpaceByte).reverse.dropWhile isSpaceByte).reverse

def lower (bytes : List UInt8) : List UInt8 := bytes.map fun b => if 65 ≤ b ∧ b ≤ 90 then b + 32 else b

/-- `header.split(b"\r\n")`. -/
def splitLines : List UInt8 → List (List UInt8)
  | [] => [[]]
  | [b] => [[b]]
  | b :: c :: rest =>
    if b = 13 ∧ c = 10 then [] :: splitLines rest
    else
      match splitLines (c :: rest) with
      | [] => [[b]]
      | line :: lines => (b :: line) :: lines

/-- `line.partition(b":")`, none without a colon. -/
def partitionColon : List UInt8 → Option (List UInt8 × List UInt8)
  | [] => none
  | b :: bs => if b = 58 then some ([], bs) else (partitionColon bs).map fun p => (b :: p.1, p.2)

/-- Decimal digits with single underscores between them; `due` says that one must follow. -/
def decimalDigits : Bool → ℕ → List UInt8 → Option ℕ
  | due, acc, [] => if due then none else some acc
  | due, acc, b :: bs =>
    if b = 95 then if due then none else decimalDigits true acc bs
    else if 48 ≤ b ∧ b ≤ 57 then decimalDigits false (acc * 10 + (b.toNat - 48)) bs
    else none

def parseUnsigned (text : List UInt8) : Option ℕ :=
  if (text.filter (· ≠ 95)).length > INT_MAX_STR_DIGITS then none else decimalDigits true 0 text

/-- `int(value)` of bytes without surrounding space. -/
def parseInt : List UInt8 → Option ℤ
  | [] => none
  | b :: bs =>
    if b = 45 then (parseUnsigned bs).map fun n => -(n : ℤ)
    else if b = 43 then (parseUnsigned bs).map fun n => (n : ℤ)
    else (parseUnsigned (b :: bs)).map fun n => (n : ℤ)

/-- The declared body length: that of the first line with the header's name. -/
def declaredLength : List (List UInt8) → Except ProtocolError ℕ
  | [] => .error .noContentLength
  | line :: lines =>
    match partitionColon line with
    | none => declaredLength lines
    | some (name, value) =>
      if lower (strip name) = CONTENT_LENGTH then
        match parseInt (strip value) with
        | none => .error (.notANumber value)
        | some length => if length < 0 then .error (.negative length) else .ok length.toNat
      else declaredLength lines

def contentLength (header : List UInt8) : Except ProtocolError ℕ := declaredLength (splitLines header)

namespace MessageStream

/-- Everything up to the blank line, one byte a read; none at a clean end of stream. -/
def readHeader (s : MessageStream) : Except ProtocolError (Option (List UInt8) × MessageStream) :=
  match find HEADER_TERMINATOR s.buffer with
  | some index =>
    .ok (some (s.buffer.take index), { s with buffer := s.buffer.drop (index + HEADER_TERMINATOR.length) })
  | none =>
    if s.buffer.length > MAX_HEADER_BYTES then .error .noTerminator
    else if _h : (readSome 1 s.reader).1 = [] then
      if s.buffer ≠ [] then .error .endedInHeader
      else .ok (none, { s with reader := (readSome 1 s.reader).2 })
    else readHeader { s with
      buffer := s.buffer ++ (readSome 1 s.reader).1
      reader := (readSome 1 s.reader).2 }
termination_by s.reader.flatten.length
decreasing_by
  rw [← flatten_readSome 1 s.reader, List.length_append]
  have := List.length_pos_iff.mpr ‹_›
  omega

/-- The next `count` bytes, none when the stream ends before them. -/
def readExactly (count : ℕ) (s : MessageStream) : Option (List UInt8) × MessageStream :=
  if s.buffer.length < count then
    if _h : (readSome (count - s.buffer.length) s.reader).1 = [] then
      (none, { s with reader := (readSome (count - s.buffer.length) s.reader).2 })
    else readExactly count { s with
      buffer := s.buffer ++ (readSome (count - s.buffer.length) s.reader).1
      reader := (readSome (count - s.buffer.length) s.reader).2 }
  else (some (s.buffer.take count), { s with buffer := s.buffer.drop count })
termination_by s.reader.flatten.length
decreasing_by
  rw [← flatten_readSome (count - s.buffer.length) s.reader, List.length_append]
  have := List.length_pos_iff.mpr ‹_›
  omega

variable {V : Type} (J : Json V)

/-- The next message, or none when the stream ends between two messages. -/
def read (s : MessageStream) : Except ProtocolError (Option (Message V) × MessageStream) :=
  match s.readHeader with
  | .error e => .error e
  | .ok (none, s) => .ok (none, s)
  | .ok (some header, s) =>
    match contentLength header with
    | .error e => .error e
    | .ok length =>
      match s.readExactly length with
      | (none, s) => .error (.endedInBody s.buffer.length length)
      | (some body, s) =>
        match J.decode body with
        | .error e => .error (.notJson e)
        | .ok message => .ok (some message, s)

/-- The header of a body of `length` bytes. -/
def headerFor (length : ℕ) : List UInt8 := ascii (s!"Content-Length: {length}")

/-- The bytes of one message. -/
def frame (body : List UInt8) : List UInt8 := headerFor body.length ++ HEADER_TERMINATOR ++ body

/-- Frame and send one message, returning the number it was given. -/
def write (message : Message V) (s : MessageStream) : ℕ × MessageStream :=
  let seq := s.seq + 1
  (seq, { s with
    seq := seq
    writer := s.writer ++ frame (J.encode (message.set "seq" (J.number seq))) })

/-- Messages written one after the other, each with the number it was given. -/
def writeAll : List (Message V) → MessageStream → List ℕ × MessageStream
  | [], s => ([], s)
  | m :: ms, s =>
    let (seq, s) := write J m s
    let (seqs, s) := writeAll ms s
    (seq :: seqs, s)

/-- How a sequence of reads stands. -/
inductive Ending
  | reading
  | ended
  | failed (e : ProtocolError)
  deriving DecidableEq

/-- `n` calls of `read`, fewer if the stream ends or is not DAP: the messages read. -/
def readAll : ℕ → MessageStream → List (Message V) × Ending
  | 0, _ => ([], .reading)
  | n + 1, s =>
    match s.read J with
    | .error e => ([], .failed e)
    | .ok (none, _) => ([], .ended)
    | .ok (some m, s) => (m :: (readAll n s).1, (readAll n s).2)

end MessageStream

end QuinLang.Dap
