import QuinLang.Dap.Protocol

/-! What one end of a connection writes the other reads, however the bytes arrive. -/

namespace QuinLang.Dap

/-! The header of a message. -/

/-- The decimal digits of a number. -/
def digits (n : ℕ) : List UInt8 := (Nat.toDigits 10 n).map fun c => UInt8.ofNat c.toNat

theorem headerFor_eq (n : ℕ) : MessageStream.headerFor n = ascii "Content-Length: " ++ digits n := by
  simp [MessageStream.headerFor, ascii, digits, String.toList_append, Nat.toList_repr]
  rfl

theorem isDigit_byte {c : Char} (h : c.isDigit = true) :
    (UInt8.ofNat c.toNat).toNat = c.toNat ∧ 48 ≤ c.toNat ∧ c.toNat ≤ 57 := by
  have hc : 48 ≤ c.toNat ∧ c.toNat ≤ 57 := by simpa [Char.isDigit, UInt32.le_iff_toNat_le] using h
  refine ⟨?_, hc⟩
  rw [UInt8.toNat_ofNat']
  omega

theorem mem_digits {n : ℕ} {b : UInt8} (h : b ∈ digits n) : 48 ≤ b ∧ b ≤ 57 := by
  obtain ⟨c, hc, rfl⟩ := List.mem_map.mp h
  obtain ⟨hb, hlo, hhi⟩ := isDigit_byte (Nat.isDigit_of_mem_toDigits (by norm_num) le_rfl hc)
  constructor
  · simpa [UInt8.le_iff_toNat_le, hb] using hlo
  · simpa [UInt8.le_iff_toNat_le, hb] using hhi

theorem length_digits_le {n : ℕ} (h : n < 2 ^ 63) : (digits n).length ≤ 19 := by
  rw [digits, List.length_map, Nat.length_toDigits_le_iff (by norm_num) (by norm_num)]
  omega

theorem length_headerFor_le {n : ℕ} (h : n < 2 ^ 63) : (MessageStream.headerFor n).length ≤ 35 := by
  have := length_digits_le h
  rw [headerFor_eq, List.length_append]
  simp [ascii]
  omega

theorem not_mem_headerFor (n : ℕ) : (13 : UInt8) ∉ MessageStream.headerFor n := by
  rw [headerFor_eq, List.mem_append]
  rintro (h | h)
  · revert h
    decide
  · obtain ⟨hlo, -⟩ := mem_digits h
    revert hlo
    decide

theorem splitLines_of_not_mem : ∀ {bytes : List UInt8}, 13 ∉ bytes → splitLines bytes = [bytes]
  | [], _ => rfl
  | [_], _ => rfl
  | b :: c :: rest, h => by
    simp only [List.mem_cons, not_or] at h
    have ih : splitLines (c :: rest) = [c :: rest] := splitLines_of_not_mem (by simpa using h.2)
    rw [splitLines, if_neg fun hb => h.1 hb.1.symm, ih]

theorem decimalDigits_eq {cs : List Char} (hc : ∀ c ∈ cs, c.isDigit = true) (due : Bool) (acc : ℕ)
    (hne : cs = [] → due = false) :
    decimalDigits due acc (cs.map fun c => UInt8.ofNat c.toNat) = some (Nat.ofDigitChars 10 cs acc) := by
  induction cs generalizing due acc with
  | nil => simp [decimalDigits, hne rfl]
  | cons c cs ih =>
    obtain ⟨hb, hlo, hhi⟩ := isDigit_byte (hc c List.mem_cons_self)
    have hnot : UInt8.ofNat c.toNat ≠ 95 := by
      intro h
      have := congrArg UInt8.toNat h
      simp only [hb] at this
      change c.toNat = 95 at this
      omega
    have hdigit : 48 ≤ UInt8.ofNat c.toNat ∧ UInt8.ofNat c.toNat ≤ 57 := by
      simp only [UInt8.le_iff_toNat_le, hb]
      exact ⟨hlo, hhi⟩
    rw [List.map_cons, decimalDigits, if_neg hnot, if_pos hdigit, hb,
      ih (fun c h => hc c (List.mem_cons_of_mem _ h)) false _ fun _ => rfl, Nat.ofDigitChars_cons, Nat.mul_comm]
    rfl

theorem parseUnsigned_digits {n : ℕ} (h : n < 2 ^ 63) : parseUnsigned (digits n) = some n := by
  have hlen : ¬((digits n).filter (· ≠ 95)).length > INT_MAX_STR_DIGITS := by
    have := (List.length_filter_le (· ≠ 95) (digits n)).trans (length_digits_le h)
    rw [INT_MAX_STR_DIGITS]
    omega
  rw [parseUnsigned, if_neg hlen, digits,
    decimalDigits_eq (fun c hc => Nat.isDigit_of_mem_toDigits (by norm_num) le_rfl hc) true 0
      (fun h => absurd h Nat.toDigits_ne_nil), Nat.ofDigitChars_ten_toDigits]

theorem parseInt_digits {n : ℕ} (h : n < 2 ^ 63) : parseInt (digits n) = some (n : ℤ) := by
  cases hd : digits n with
  | nil => simp [digits] at hd
  | cons b bs =>
    have hb : 48 ≤ b ∧ b ≤ 57 := mem_digits (n := n) (by simp [hd])
    have h45 : b ≠ 45 := by
      rintro rfl
      exact absurd hb.1 (by decide)
    have h43 : b ≠ 43 := by
      rintro rfl
      exact absurd hb.1 (by decide)
    rw [parseInt, if_neg h45, if_neg h43, ← hd, parseUnsigned_digits h]
    rfl

theorem strip_digits (n : ℕ) : strip (32 :: digits n) = digits n := by
  have hns : ∀ b ∈ digits n, isSpaceByte b = false := by
    intro b hb
    obtain ⟨hlo, hhi⟩ := mem_digits hb
    simp only [isSpaceByte, Bool.or_eq_false_iff, Bool.and_eq_false_iff, decide_eq_false_iff_not, beq_eq_false_iff_ne,
      UInt8.le_iff_toNat_le, ne_eq] at hlo hhi ⊢
    simp only [UInt8.toNat_ofNat] at hlo hhi ⊢
    refine ⟨Or.inr (by omega), ?_⟩
    rintro rfl
    simp at hlo
  have hdrop : ∀ xs : List UInt8, (∀ b ∈ xs, isSpaceByte b = false) → xs.dropWhile isSpaceByte = xs := by
    intro xs hxs
    cases xs with
    | nil => rfl
    | cons b bs => simp [hxs b List.mem_cons_self]
  rw [strip, List.dropWhile_cons_of_pos rfl, hdrop _ hns, hdrop _ fun b hb => hns b (List.mem_reverse.mp hb),
    List.reverse_reverse]

theorem contentLength_headerFor {n : ℕ} (h : n < 2 ^ 63) : contentLength (MessageStream.headerFor n) = .ok n := by
  have hpart : partitionColon (MessageStream.headerFor n) = some (ascii "Content-Length", 32 :: digits n) := by
    rw [headerFor_eq]
    rfl
  have hname : lower (strip (ascii "Content-Length")) = CONTENT_LENGTH := by decide
  rw [contentLength, splitLines_of_not_mem (not_mem_headerFor n)]
  simp only [declaredLength, hpart, if_pos hname, strip_digits, parseInt_digits h]
  simp

/-! Where the blank line is. -/

theorem find_append {header : List UInt8} (h : 13 ∉ header) (xs : List UInt8) :
    find HEADER_TERMINATOR (header ++ xs) = (find HEADER_TERMINATOR xs).map (· + header.length) := by
  induction header with
  | nil => simp
  | cons b header ih =>
    simp only [List.mem_cons, not_or] at h
    have hb : ¬HEADER_TERMINATOR.isPrefixOf (b :: (header ++ xs)) = true := by
      simp [HEADER_TERMINATOR, List.isPrefixOf, h.1]
    rw [List.cons_append, find, if_neg hb, ih h.2, Option.map_map]
    congr 1

/-- Of bytes that start with a header and its blank line, a part that reaches past the
blank line shows where the header ends, and a shorter one nothing. -/
theorem find_terminator {header rest buffer : List UInt8} (h : 13 ∉ header)
    (hb : buffer <+: header ++ HEADER_TERMINATOR ++ rest) :
    find HEADER_TERMINATOR buffer = if header.length + 4 ≤ buffer.length then some header.length else none := by
  rw [List.append_assoc] at hb
  rcases List.prefix_or_prefix_of_prefix hb (List.prefix_append header _) with hb | ⟨xs, rfl⟩
  · have h' : 13 ∉ buffer := fun hm => h (hb.subset hm)
    have hlen := hb.length_le
    have := find_append h' []
    rw [List.append_nil] at this
    rw [this, if_neg (by omega)]
    rfl
  · have hxs := (List.prefix_append_right_inj header).mp hb
    rw [find_append h, List.length_append]
    rcases List.prefix_or_prefix_of_prefix hxs (List.prefix_append HEADER_TERMINATOR rest) with hxs | ⟨ys, rfl⟩
    · by_cases hlen : xs.length < 4
      · rw [if_neg (by omega), List.prefix_iff_eq_take.mp hxs]
        generalize xs.length = k at hlen
        interval_cases k <;> rfl
      · have h4 : xs = HEADER_TERMINATOR := hxs.eq_of_length_le (by simpa [HEADER_TERMINATOR] using hlen)
        subst h4
        rw [if_pos (by simp [HEADER_TERMINATOR])]
        simp [find, HEADER_TERMINATOR, List.isPrefixOf]
    · rw [if_pos (by simp [HEADER_TERMINATOR])]
      simp [find, HEADER_TERMINATOR, List.isPrefixOf]

/-! Reading, whatever each read finds. -/

/-- Every read finds something. -/
def Delivers (reads : List (List UInt8)) : Prop := [] ∉ reads

theorem readSome_delivers {size : ℕ} {reads : List (List UInt8)} (hs : 0 < size) (h : Delivers reads) :
    Delivers (readSome size reads).2 ∧ ((readSome size reads).1 = [] → reads = []) ∧ (readSome size reads).1.length ≤ size := by
  cases reads with
  | nil => exact ⟨h, fun _ => rfl, Nat.zero_le _⟩
  | cons chunk chunks =>
    simp only [Delivers, List.mem_cons, not_or] at h
    rw [readSome]
    split
    case isTrue hle => exact ⟨h.2, fun hc => absurd hc.symm h.1, hle⟩
    case isFalse hgt =>
      refine ⟨?_, fun hc => ?_, List.length_take_le size chunk⟩
      · simp only [Delivers, List.mem_cons, not_or]
        refine ⟨fun hd => ?_, h.2⟩
        have := List.drop_eq_nil_iff.mp hd.symm
        omega
      · rcases List.take_eq_nil_iff.mp hc with rfl | hc
        · exact absurd hs (lt_irrefl 0)
        · exact absurd hc.symm h.1

theorem length_readSome_lt {size : ℕ} {reads : List (List UInt8)} (h : (readSome size reads).1 ≠ []) :
    (readSome size reads).2.flatten.length < reads.flatten.length := by
  have := List.length_pos_iff.mpr h
  rw [← flatten_readSome size reads, List.length_append]
  omega

namespace MessageStream

/-- The bytes that are in no message read so far. -/
def pending (s : MessageStream) : List UInt8 := s.buffer ++ s.reader.flatten

/-- What the loop of `readHeader` knows each time round: a blank line in the buffer ends
the header, and without one the buffer is too short to hold it. -/
theorem find_buffer {header rest : List UInt8} (h : 13 ∉ header) {s : MessageStream}
    (hp : s.pending = header ++ HEADER_TERMINATOR ++ rest) :
    (find HEADER_TERMINATOR s.buffer = some header.length ∧ s.buffer.take header.length = header ∧
        s.buffer.drop (header.length + HEADER_TERMINATOR.length) ++ s.reader.flatten = rest) ∨
      (find HEADER_TERMINATOR s.buffer = none ∧ s.buffer.length < header.length + 4) := by
  have hfind := find_terminator h ⟨_, hp⟩
  split at hfind
  case isFalse hlt => exact Or.inr ⟨hfind, by omega⟩
  case isTrue hle =>
    have hlen : (header ++ HEADER_TERMINATOR).length ≤ s.buffer.length := by simpa [HEADER_TERMINATOR] using hle
    obtain ⟨tail, htail⟩ := List.prefix_of_prefix_length_le ⟨rest, hp.symm⟩ ⟨_, rfl⟩ hlen
    rw [pending, ← htail, List.append_assoc, List.append_cancel_left_eq] at hp
    refine Or.inl ⟨hfind, ?_, ?_⟩
    · rw [← htail, List.append_assoc, List.take_left]
    · rw [← htail, ← List.length_append, List.drop_left, hp]

-- Derives the equations once, for all the proofs below.
attribute [local simp] readHeader readExactly

/-- The header is read once the bytes start with it and its blank line. -/
theorem readHeader_ok {header rest : List UInt8} (h : 13 ∉ header) (hlen : header.length + 4 ≤ MAX_HEADER_BYTES)
    (s : MessageStream) (hd : Delivers s.reader) (hp : s.pending = header ++ HEADER_TERMINATOR ++ rest) :
    ∃ s', s.readHeader = .ok (some header, s') ∧ Delivers s'.reader ∧ s'.pending = rest := by
  induction hn : s.reader.flatten.length using Nat.strong_induction_on generalizing s with
  | _ n ih =>
    subst hn
    rw [readHeader]
    rcases find_buffer h hp with ⟨hfind, htake, hdrop⟩ | ⟨hfind, hshort⟩
    · simp only [hfind, htake]
      exact ⟨_, rfl, hd, hdrop⟩
    · simp only [hfind]
      obtain ⟨hd', hend, -⟩ := readSome_delivers one_pos hd
      have hread : (readSome 1 s.reader).1 ≠ [] := by
        intro hnil
        rw [pending, hend hnil, List.flatten_nil, List.append_nil] at hp
        have := congrArg List.length hp
        simp only [HEADER_TERMINATOR, List.length_append, List.length_cons, List.length_nil] at this
        omega
      rw [if_neg (by omega), dif_neg hread]
      apply ih _ _ _ hd' _ rfl
      · exact length_readSome_lt hread
      · rw [← hp, pending, pending, List.append_assoc, flatten_readSome]

theorem readHeader_end (s : MessageStream) (hd : Delivers s.reader) (hp : s.pending = []) :
    ∃ s', s.readHeader = .ok (none, s') := by
  obtain ⟨hb, hf⟩ := List.append_eq_nil_iff.mp hp
  have hr : s.reader = [] := by
    cases hr : s.reader with
    | nil => rfl
    | cons chunk chunks =>
      rw [hr, List.flatten_cons, List.append_eq_nil_iff] at hf
      rw [hr, hf.1] at hd
      exact absurd List.mem_cons_self hd
  rw [readHeader]
  simp [hb, hr, find, HEADER_TERMINATOR, readSome]

/-- A stream that ends inside a header. -/
theorem readHeader_cut {header : List UInt8} (h : 13 ∉ header) (hlen : header.length + 4 ≤ MAX_HEADER_BYTES)
    (s : MessageStream) (hd : Delivers s.reader) (hp : s.pending <+: header ++ HEADER_TERMINATOR)
    (hlt : s.pending.length < header.length + 4) (hne : s.pending ≠ []) : s.readHeader = .error .endedInHeader := by
  induction hn : s.reader.flatten.length using Nat.strong_induction_on generalizing s with
  | _ n ih =>
    subst hn
    have hbuf : s.buffer <+: s.pending := List.prefix_append _ _
    have hshort : s.buffer.length < header.length + 4 := hbuf.length_le.trans_lt hlt
    have hpre : s.buffer <+: header ++ HEADER_TERMINATOR ++ [] := by simpa using hbuf.trans hp
    have hfind : find HEADER_TERMINATOR s.buffer = none := by rw [find_terminator h hpre, if_neg (by omega)]
    rw [readHeader]
    simp only [hfind]
    obtain ⟨hd', hend, -⟩ := readSome_delivers one_pos hd
    by_cases hread : (readSome 1 s.reader).1 = []
    · rw [pending, hend hread, List.flatten_nil, List.append_nil] at hne
      rw [if_neg (by omega), dif_pos hread, if_pos hne]
    · have hsame : s.buffer ++ (readSome 1 s.reader).1 ++ (readSome 1 s.reader).2.flatten = s.pending := by
        rw [pending, List.append_assoc, flatten_readSome]
      rw [if_neg (by omega), dif_neg hread]
      apply ih _ _ _ hd' _ _ _ rfl
      · exact length_readSome_lt hread
      · rwa [pending, hsame]
      · rwa [pending, hsame]
      · rwa [pending, hsame]

theorem readExactly_ok {body rest : List UInt8} (s : MessageStream) (hd : Delivers s.reader)
    (hp : s.pending = body ++ rest) :
    ∃ s', s.readExactly body.length = (some body, s') ∧ Delivers s'.reader ∧ s'.pending = rest := by
  induction hn : s.reader.flatten.length using Nat.strong_induction_on generalizing s with
  | _ n ih =>
    subst hn
    rw [readExactly]
    by_cases hshort : s.buffer.length < body.length
    · obtain ⟨hd', hend, -⟩ := readSome_delivers (Nat.sub_pos_of_lt hshort) hd
      have hread : (readSome (body.length - s.buffer.length) s.reader).1 ≠ [] := by
        intro hnil
        rw [pending, hend hnil, List.flatten_nil, List.append_nil] at hp
        have := congrArg List.length hp
        rw [List.length_append] at this
        omega
      rw [if_pos hshort, dif_neg hread]
      apply ih _ _ _ hd' _ rfl
      · exact length_readSome_lt hread
      · rw [← hp, pending, pending, List.append_assoc, flatten_readSome]
    · rw [if_neg hshort]
      obtain ⟨tail, htail⟩ := List.prefix_of_prefix_length_le ⟨rest, hp.symm⟩ ⟨_, rfl⟩ (not_lt.mp hshort)
      rw [pending, ← htail, List.append_assoc, List.append_cancel_left_eq] at hp
      refine ⟨{ s with buffer := tail }, ?_, hd, hp⟩
      rw [← htail, List.take_left, List.drop_left]

theorem readExactly_ended {count : ℕ} (s : MessageStream) (hd : Delivers s.reader) (hlt : s.pending.length < count) :
    ∃ s', s.readExactly count = (none, s') := by
  induction hn : s.reader.flatten.length using Nat.strong_induction_on generalizing s with
  | _ n ih =>
    subst hn
    have hshort : s.buffer.length < count := by
      rw [pending, List.length_append] at hlt
      omega
    rw [readExactly, if_pos hshort]
    obtain ⟨hd', -, -⟩ := readSome_delivers (Nat.sub_pos_of_lt hshort) hd
    by_cases hread : (readSome (count - s.buffer.length) s.reader).1 = []
    · rw [dif_pos hread]
      exact ⟨_, rfl⟩
    · rw [dif_neg hread]
      apply ih _ _ _ hd' _ rfl
      · exact length_readSome_lt hread
      · rwa [pending, List.append_assoc, flatten_readSome]

variable {V : Type} {J : Json V}

theorem headerFor_fits {n : ℕ} (h : n < 2 ^ 63) : (headerFor n).length + 4 ≤ MAX_HEADER_BYTES := by
  have := length_headerFor_le h
  rw [MAX_HEADER_BYTES]
  omega

/-- A whole message is read back, and nothing after it. -/
theorem read_frame {m : Message V} {rest : List UInt8} (hm : J.decode (J.encode m) = .ok m)
    (hsize : (J.encode m).length < 2 ^ 63) (s : MessageStream) (hd : Delivers s.reader)
    (hp : s.pending = frame (J.encode m) ++ rest) :
    ∃ s', s.read J = .ok (some m, s') ∧ Delivers s'.reader ∧ s'.pending = rest := by
  rw [frame, List.append_assoc] at hp
  obtain ⟨s₁, hheader, hd₁, hp₁⟩ := readHeader_ok (not_mem_headerFor _) (headerFor_fits hsize) s hd hp
  obtain ⟨s₂, hbody, hd₂, hp₂⟩ := readExactly_ok s₁ hd₁ hp₁
  refine ⟨s₂, ?_, hd₂, hp₂⟩
  simp only [read, hheader, contentLength_headerFor hsize, hbody, hm]

/-- A message cut short is refused. -/
theorem read_cut {m : Message V} (hsize : (J.encode m).length < 2 ^ 63) (s : MessageStream) (hd : Delivers s.reader)
    (hp : s.pending <+: frame (J.encode m)) (hne : s.pending ≠ []) (hlt : s.pending.length < (frame (J.encode m)).length) :
    ∃ e, s.read J = .error e := by
  set header := headerFor (J.encode m).length with hheader
  have h13 : 13 ∉ header := not_mem_headerFor _
  have hfits : header.length + 4 ≤ MAX_HEADER_BYTES := headerFor_fits hsize
  by_cases hcut : s.pending.length < header.length + 4
  · have hpre : s.pending <+: header ++ HEADER_TERMINATOR :=
      List.prefix_of_prefix_length_le hp (List.prefix_append _ _)
        (by simp only [HEADER_TERMINATOR, List.length_append, List.length_cons, List.length_nil]; omega)
    have := readHeader_cut h13 hfits s hd hpre hcut hne
    exact ⟨.endedInHeader, by simp only [read, this]⟩
  · have hpre : header ++ HEADER_TERMINATOR <+: s.pending :=
      List.prefix_of_prefix_length_le (List.prefix_append _ _) hp
        (by simp only [HEADER_TERMINATOR, List.length_append, List.length_cons, List.length_nil]; omega)
    obtain ⟨part, hpart⟩ := hpre
    obtain ⟨s₁, hread, hd₁, hp₁⟩ := readHeader_ok h13 hfits s hd hpart.symm
    have hshort : s₁.pending.length < (J.encode m).length := by
      have hlen := congrArg List.length hpart
      simp only [frame, List.length_append, ← hheader] at hlt hlen
      rw [hp₁]
      omega
    obtain ⟨s₂, hbody⟩ := readExactly_ended s₁ hd₁ hshort
    refine ⟨.endedInBody s₂.buffer.length (J.encode m).length, ?_⟩
    simp only [read, hread, hheader, contentLength_headerFor hsize, hbody]

/-- The messages as they are sent: numbered from the one after `seq`. -/
def numbered (J : Json V) : ℕ → List (Message V) → List (Message V)
  | _, [] => []
  | seq, m :: ms => m.set "seq" (J.number (seq + 1)) :: numbered J (seq + 1) ms

/-- The bytes of messages one after the other. -/
def wire (J : Json V) (ms : List (Message V)) : List UInt8 := (ms.map fun m => frame (J.encode m)).flatten

theorem length_numbered (seq : ℕ) (ms : List (Message V)) : (numbered J seq ms).length = ms.length := by
  induction ms generalizing seq with
  | nil => rfl
  | cons m ms ih => rw [numbered, List.length_cons, ih, List.length_cons]

theorem numbered_take (seq k : ℕ) (ms : List (Message V)) :
    numbered J seq (ms.take k) = (numbered J seq ms).take k := by
  induction ms generalizing seq k with
  | nil => simp [numbered]
  | cons m ms ih =>
    cases k with
    | zero => rfl
    | succ k => rw [List.take_succ_cons, numbered, numbered, List.take_succ_cons, ih]

theorem writeAll_eq (ms : List (Message V)) (s : MessageStream) :
    (writeAll J ms s).1 = List.range' (s.seq + 1) ms.length ∧
      (writeAll J ms s).2.writer = s.writer ++ wire J (numbered J s.seq ms) := by
  induction ms generalizing s with
  | nil => simp [writeAll, numbered, wire]
  | cons m ms ih =>
    obtain ⟨hseq, hwriter⟩ := ih (write J m s).2
    constructor
    · simp only [writeAll, List.length_cons, List.range'_succ, hseq]
      rfl
    · simp only [writeAll, hwriter, numbered, wire, List.map_cons, List.flatten_cons]
      simp only [write, List.append_assoc]

/-- Reading what was written gives the messages, and then goes on with what follows. -/
theorem readAll_wire {ms : List (Message V)} {rest : List UInt8} (hinv : ∀ m ∈ ms, J.decode (J.encode m) = .ok m)
    (hsize : ∀ m ∈ ms, (J.encode m).length < 2 ^ 63) (s : MessageStream) (hd : Delivers s.reader)
    (hp : s.pending = wire J ms ++ rest) :
    ∃ s', Delivers s'.reader ∧ s'.pending = rest ∧
      ∀ n, readAll J (ms.length + n) s = (ms ++ (readAll J n s').1, (readAll J n s').2) := by
  induction ms generalizing s with
  | nil => exact ⟨s, hd, by simpa [wire] using hp, fun n => by simp⟩
  | cons m ms ih =>
    rw [wire, List.map_cons, List.flatten_cons, List.append_assoc] at hp
    obtain ⟨s₁, hread, hd₁, hp₁⟩ :=
      read_frame (hinv m List.mem_cons_self) (hsize m List.mem_cons_self) s hd hp
    obtain ⟨s₂, hd₂, hp₂, hall⟩ := ih (fun m h => hinv m (List.mem_cons_of_mem _ h))
      (fun m h => hsize m (List.mem_cons_of_mem _ h)) s₁ hd₁ hp₁
    refine ⟨s₂, hd₂, hp₂, fun n => ?_⟩
    rw [List.length_cons, Nat.add_right_comm, readAll]
    simp only [hread, hall, List.cons_append]

theorem readAll_end (s : MessageStream) (hd : Delivers s.reader) (hp : s.pending = []) (n : ℕ) :
    readAll J (n + 1) s = ([], .ended) := by
  obtain ⟨s', h⟩ := readHeader_end s hd hp
  simp only [readAll, read, h]

/-- What one stream writes, numbered from 1, the other reads back in order and then sees
the end of the stream, whatever each read finds; of a stream cut inside a message it reads
the messages before that one and then refuses to go on. -/
theorem framing_lossless (J : Json V) (messages : List (Message V))
    (hinv : ∀ m ∈ numbered J 0 messages, J.decode (J.encode m) = .ok m)
    (hsize : ∀ m ∈ numbered J 0 messages, (J.encode m).length < 2 ^ 63) :
    (writeAll J messages {}).1 = List.range' 1 messages.length ∧
      (∀ reads, Delivers reads → reads.flatten = (writeAll J messages {}).2.writer → ∀ n, messages.length < n →
        readAll J n { reader := reads } = (numbered J 0 messages, .ended)) ∧
      ∀ reads k cut, Delivers reads → k < messages.length →
        (writeAll J (messages.take k) {}).2.writer.length < cut →
        cut < (writeAll J (messages.take (k + 1)) {}).2.writer.length →
        reads.flatten = (writeAll J messages {}).2.writer.take cut → ∀ n, k < n →
          ∃ e, readAll J n { reader := reads } = ((numbered J 0 messages).take k, .failed e) := by
  have hwriter (ms : List (Message V)) : (writeAll J ms {}).2.writer = wire J (numbered J 0 ms) := by
    simpa using (writeAll_eq (J := J) ms {}).2
  refine ⟨(writeAll_eq messages {}).1, fun reads hd hreads n hn => ?_, fun reads k cut hd hk hlo hhi hreads n hn => ?_⟩
  · rw [hwriter] at hreads
    have hp : ({ reader := reads } : MessageStream).pending = wire J (numbered J 0 messages) ++ [] := by
      simpa [pending] using hreads
    obtain ⟨s', hd', hp', hall⟩ := readAll_wire hinv hsize { reader := reads } hd hp
    obtain ⟨j, rfl⟩ := Nat.exists_eq_add_of_lt hn
    have := hall (j + 1)
    rw [length_numbered, ← Nat.add_assoc, readAll_end s' hd' hp', List.append_nil] at this
    exact this
  · rw [hwriter, numbered_take] at hlo hhi
    rw [hwriter] at hreads
    set sent := numbered J 0 messages with hsent
    have hk' : k < sent.length := by rwa [hsent, length_numbered]
    have hnext : wire J (sent.take (k + 1)) = wire J (sent.take k) ++ frame (J.encode sent[k]) := by
      rw [wire, List.take_succ_eq_append_getElem hk', List.map_append, List.flatten_append]
      simp only [wire, List.map_cons, List.map_nil, List.flatten_cons, List.flatten_nil, List.append_nil]
    have hall : wire J sent = wire J (sent.take (k + 1)) ++ wire J (sent.drop (k + 1)) := by
      simp only [wire, ← List.flatten_append, ← List.map_append, List.take_append_drop]
    rw [hnext, List.length_append] at hhi
    have hp : ({ reader := reads } : MessageStream).pending =
        wire J (sent.take k) ++ (frame (J.encode sent[k])).take (cut - (wire J (sent.take k)).length) := by
      have hbefore : (wire J (sent.take k)).take cut = wire J (sent.take k) := List.take_of_length_le hlo.le
      rw [pending, List.nil_append, hreads, hall, hnext, List.append_assoc, List.take_append, hbefore,
        List.take_append_of_le_length (by omega)]
    obtain ⟨s', hd', hp', hread⟩ := readAll_wire (fun m h => hinv m (List.mem_of_mem_take h))
      (fun m h => hsize m (List.mem_of_mem_take h)) { reader := reads } hd hp
    have hlen : s'.pending.length = cut - (wire J (sent.take k)).length := by
      rw [hp', List.length_take]
      omega
    obtain ⟨e, he⟩ := read_cut (hsize _ (List.getElem_mem hk')) s' hd' (hp' ▸ List.take_prefix _ _)
      (List.length_pos_iff.mp (by omega)) (by omega)
    obtain ⟨j, rfl⟩ := Nat.exists_eq_add_of_lt hn
    refine ⟨e, ?_⟩
    have := hread (j + 1)
    rw [List.length_take_of_le hk'.le, ← Nat.add_assoc] at this
    rw [this, readAll, he]
    simp only [List.append_nil]

end MessageStream

/-! A connection that carries two events, one of them with a text outside ASCII. -/

def sampleText (m : Message String) : List UInt8 :=
  ("\x7b" ++ ",".intercalate (m.map fun p => "\"" ++ p.1 ++ "\":" ++ p.2) ++ "\x7d").toUTF8.data.toList

/-- Objects whose values are JSON texts already, read back when they are among `known`. -/
def sampleJson (known : List (Message String)) : Json String where
  number n := toString n
  encode := sampleText
  decode bytes :=
    match known.find? fun m => sampleText m = bytes with
    | some m => .ok m
    | none => .error "Expecting value"

def sampleMessages : List (Message String) :=
  [[("type", "\"event\""), ("event", "\"initialized\"")], [("type", "\"event\""), ("output", "\"é\"")]]

def sampleSent : List (Message String) :=
  [[("type", "\"event\""), ("event", "\"initialized\""), ("seq", "1")],
    [("type", "\"event\""), ("output", "\"é\""), ("seq", "2")]]

/-- The bytes come through cut inside a message, and where they end inside the second, the
first still comes through. -/
theorem sampleMessages_carried : ∃ bytes, (MessageStream.writeAll (sampleJson sampleSent) sampleMessages {}).2.writer = bytes ∧
    (MessageStream.writeAll (sampleJson sampleSent) sampleMessages {}).1 = [1, 2] ∧
    MessageStream.readAll (sampleJson sampleSent) 3 { reader := [bytes.take 30, bytes.drop 30] } = (sampleSent, .ended) ∧
    ∃ e, MessageStream.readAll (sampleJson sampleSent) 2 { reader := [bytes.take 80, (bytes.drop 80).take 20] } =
      (sampleSent.take 1, .failed e) := by
  have hsent : MessageStream.numbered (sampleJson sampleSent) 0 sampleMessages = sampleSent := rfl
  have hlength : (MessageStream.writeAll (sampleJson sampleSent) sampleMessages {}).2.writer.length = 128 := by decide +kernel
  have hfirst : (MessageStream.writeAll (sampleJson sampleSent) (sampleMessages.take 1) {}).2.writer.length = 68 := by decide +kernel
  obtain ⟨hseqs, hwhole, hcut⟩ := MessageStream.framing_lossless (sampleJson sampleSent) sampleMessages
    (by rw [hsent]; decide) (by rw [hsent]; decide)
  rw [hsent] at hwhole hcut
  generalize hbytes : (MessageStream.writeAll (sampleJson sampleSent) sampleMessages {}).2.writer = bytes at hwhole hcut hlength
  have delivers {a b : List UInt8} (ha : 0 < a.length) (hb : 0 < b.length) : Delivers [a, b] := by
    simp [Delivers, ← List.length_eq_zero_iff]
    omega
  have hsecond : 100 < (MessageStream.writeAll (sampleJson sampleSent) (sampleMessages.take (1 + 1)) {}).2.writer.length := by
    rw [show sampleMessages.take (1 + 1) = sampleMessages from rfl, hbytes, hlength]
    decide
  refine ⟨bytes, rfl, hseqs, hwhole _ (delivers ?_ ?_) (by simp) 3 (by decide),
    hcut _ 1 100 (delivers ?_ ?_) (by decide) (by rw [hfirst]; decide) hsecond ?_ 2 (by decide)⟩
  case refine_5 => rw [List.flatten_cons, List.flatten_singleton, ← List.take_add]
  all_goals simp [hlength]

end QuinLang.Dap
