import QuinLang.Runtime.ProgramIo
import QuinLang.Std.Searching

/-! `std/input.ql`: a program's input line by line. -/

namespace QuinLang.Std

open Loops

section Operations

variable {W : Type} (io : ProgramIO W)

/-- The builtin: a line with its terminator, or an empty string at the end of the input. -/
def read_line (w : W) : Run (Str × W) :=
  match io.readLine w with
  | .error e => .error (.fault e)
  | .ok (text, w) =>
    match firstWide text with
    | some ch => .error (.fault (wideMessage "input" ch))
    | none => do return (← newString ((latin1 text).getD []), w)

/-- One of the two tests of `strip_line_end`: `n` is one less if the character before it
is `code`. -/
def stripTest (s : Str) (code n : ℤ) : Run ℤ :=
  if n > 0 then do
    if (← str_char_at s (wrap16 (n - 1))) = code then return wrap16 (n - 1) else return n
  else return n

def strip_line_end (s : Str) : Run Str := do
  let n ← stripTest s 10 (str_len s)
  let n ← stripTest s 13 n
  str_slice s 0 n

inductive Input
  | Line (line : Str)
  | End

def next_line (w : W) : Run (Input × W) := do
  let (raw, w) ← read_line io w
  if str_len raw = 0 then return (.End, w) else return (.Line (← strip_line_end raw), w)

/-- The texts that `next_line` gives until the end of the input. -/
def inputLines : ℕ → W → Run (List Str)
  | 0, _ => .error .outOfFuel
  | fuel + 1, w => do
    match ← next_line io w with
    | (.End, _) => return []
    | (.Line line, w) => return line :: (← inputLines fuel w)

end Operations

section Stripping

/-- A line without the newline that ends it, or the carriage return and the newline. -/
def lineText (line : List UInt8) : List UInt8 :=
  if [13, 10] <:+ line then line.take (line.length - 2)
  else if [10] <:+ line then line.take (line.length - 1)
  else line

/-- What one test leaves. -/
def dropEnd (c : UInt8) (line : List UInt8) : List UInt8 := if line.getLast? = some c then line.dropLast else line

theorem dropEnd_concat (c d : UInt8) (line : List UInt8) : dropEnd c (line ++ [d]) = if d = c then line else line ++ [d] := by
  simp only [dropEnd, List.getLast?_concat, List.dropLast_concat, Option.some_inj]

theorem length_dropEnd_le (c : UInt8) (line : List UInt8) : (dropEnd c line).length ≤ line.length := by
  unfold dropEnd
  split
  · rw [List.length_dropLast]
    omega
  · exact le_rfl

theorem take_dropEnd (c : UInt8) (line : List UInt8) : line.take (dropEnd c line).length = dropEnd c line := by
  unfold dropEnd
  split
  · rw [List.length_dropLast, ← List.dropLast_eq_take]
  · rw [List.take_length]

theorem suffix_singleton_iff {c : UInt8} {line : List UInt8} : [c] <:+ line ↔ line.getLast? = some c := by
  rw [List.getLast?_eq_some_iff]
  exact exists_congr fun _ => eq_comm

theorem stripTest_ok {s : Str} {n : ℕ} (c : UInt8) (hn : n ≤ s.bytes.length) :
    stripTest s c.toNat n = .ok (dropEnd c (s.bytes.take n)).length := by
  cases n with
  | zero =>
    rw [stripTest, if_neg (by omega)]
    simp
    rfl
  | succ n =>
    have hshort := s.short
    have hback : wrap16 (((n + 1 : ℕ) : ℤ) - 1) = n := by
      rw [wrap16_of_range (by omega) (by omega)]
      omega
    have hlast : (s.bytes.take (n + 1)).getLast? = some s.bytes[n] := by
      rw [List.take_add_one, List.getElem?_eq_getElem hn, Option.toList_some, List.getLast?_concat]
    rw [stripTest, if_pos (by omega), hback, str_char_at_ok hn, ok_bind, dropEnd, hlast]
    by_cases hc : s.bytes[n] = c
    · rw [if_pos (by rw [hc]), if_pos (by rw [hc])]
      simp [Nat.min_eq_left hn]
      rfl
    · rw [if_neg fun h => hc (UInt8.toNat_inj.mp (by exact_mod_cast h)), if_neg fun h => hc (Option.some.inj h)]
      simp [Nat.min_eq_left hn]
      rfl

theorem strip_line_end_ok (s : Str) : ∃ t, strip_line_end s = .ok t ∧ t.bytes = dropEnd 13 (dropEnd 10 s.bytes) := by
  have hfirst := stripTest_ok (s := s) 10 le_rfl
  rw [List.take_length] at hfirst
  have hsecond := stripTest_ok (s := s) 13 (length_dropEnd_le 10 s.bytes)
  rw [take_dropEnd] at hsecond
  have hle := (length_dropEnd_le 13 (dropEnd 10 s.bytes)).trans (length_dropEnd_le 10 s.bytes)
  have hslice := str_slice_ok (s := s) (Nat.zero_le _) hle
  refine ⟨_, (congrArg (· >>= _) hfirst).trans ((congrArg (· >>= _) hsecond).trans hslice), ?_⟩
  · change (s.bytes.take (dropEnd 13 (dropEnd 10 s.bytes)).length).drop 0 = _
    rw [List.drop_zero]
    calc s.bytes.take (dropEnd 13 (dropEnd 10 s.bytes)).length
        = (s.bytes.take (dropEnd 10 s.bytes).length).take (dropEnd 13 (dropEnd 10 s.bytes)).length := by
          rw [List.take_take, Nat.min_eq_left (length_dropEnd_le 13 _)]
      _ = (dropEnd 10 s.bytes).take (dropEnd 13 (dropEnd 10 s.bytes)).length := by rw [take_dropEnd]
      _ = dropEnd 13 (dropEnd 10 s.bytes) := take_dropEnd 13 _

theorem lineText_newline (line : List UInt8) : lineText (line ++ [10]) = dropEnd 13 line := by
  have hlf : [10] <:+ line ++ [10] := List.suffix_append line [10]
  have hcrlf : [13, 10] <:+ line ++ [10] ↔ line.getLast? = some 13 := by
    rw [← suffix_singleton_iff]
    constructor
    · intro h
      obtain h | ⟨t, ht, hsuffix⟩ := List.suffix_concat_iff.mp h
      · cases h
      · obtain rfl : [13] = t := (List.append_inj' (show [13] ++ [10] = t ++ [10] from ht) rfl).1
        exact hsuffix
    · exact fun h => List.suffix_concat_iff.mpr (.inr ⟨[13], rfl, h⟩)
  rw [lineText, dropEnd]
  simp only [hcrlf, if_pos hlf, List.length_append, List.length_singleton, Nat.add_sub_cancel]
  split
  · rw [List.dropLast_eq_take, List.take_append_of_le_length (by omega)]
    rfl
  · rw [List.take_left]

theorem lineText_other {c : UInt8} (hc : c ≠ 10) (line : List UInt8) : lineText (line ++ [c]) = line ++ [c] := by
  have hlast : (line ++ [c]).getLast? ≠ some 10 := fun h => hc (Option.some.inj ((List.getLast?_concat).symm.trans h))
  have hlf : ¬[10] <:+ line ++ [c] := fun h => hlast (suffix_singleton_iff.mp h)
  have hcrlf : ¬[13, 10] <:+ line ++ [c] := fun h => hlf ((List.suffix_cons 13 [10]).trans h)
  rw [lineText, if_neg hcrlf, if_neg hlf]

/-- Of a line that does not end in a bare carriage return, only the terminator goes. -/
theorem dropEnd_eq_lineText (line : List UInt8) : dropEnd 13 (dropEnd 10 line) = lineText line ↔ line.getLast? ≠ some 13 := by
  induction line using List.reverseRecOn with
  | nil => exact iff_of_true rfl (by simp)
  | append_singleton line c _ =>
    rw [dropEnd_concat, List.getLast?_concat]
    by_cases hlf : c = 10
    · subst hlf
      rw [if_pos rfl, lineText_newline]
      exact iff_of_true rfl (by decide)
    · rw [if_neg hlf, lineText_other hlf, dropEnd_concat]
      split
      · next hcr => exact iff_of_false (by simp) (by simp [hcr])
      · next hcr => exact iff_of_true rfl (by simp [hcr])

end Stripping

section Lines

variable {W : Type} {io : ProgramIO W}

/-- The input comes line by line, each with its newline, the last possibly without, and
then as empty strings. -/
def DeliversLines (io : ProgramIO W) (left : W → List UInt8 → Prop) : Prop :=
  ∀ w bytes, left w bytes → ∃ w', io.readLine w = .ok (ofLatin1 (readline bytes).1, w') ∧ left w' (readline bytes).2

theorem latin1_ofLatin1 (bytes : List UInt8) : latin1 (ofLatin1 bytes) = some bytes := by
  rw [latin1, ofLatin1, String.toList_ofList]
  induction bytes with
  | nil => rfl
  | cons b bytes ih =>
    have hb : (Char.ofNat b.toNat).toNat = b.toNat := toNat_byteChar b
    have hlt := b.toNat_lt
    rw [List.map_cons, List.mapM_cons, ih, hb, if_pos (by omega), UInt8.ofNat_toNat]
    rfl

theorem firstWide_ofLatin1 (bytes : List UInt8) : firstWide (ofLatin1 bytes) = none := by
  rw [firstWide, ofLatin1, String.toList_ofList, List.find?_eq_none]
  intro c hc
  obtain ⟨b, -, rfl⟩ := List.mem_map.mp hc
  have hb : (Char.ofNat b.toNat).toNat = b.toNat := toNat_byteChar b
  have hlt := b.toNat_lt
  rw [hb, decide_eq_true_iff]
  omega

variable {left : W → List UInt8 → Prop} {w : W} {bytes : List UInt8}

theorem read_line_eq (hio : DeliversLines io left) (hw : left w bytes) :
    ∃ w', left w' (readline bytes).2 ∧ read_line io w = (newString (readline bytes).1).map fun s => (s, w') := by
  obtain ⟨w', hread, hleft⟩ := hio w bytes hw
  refine ⟨w', hleft, ?_⟩
  simp only [read_line, hread, firstWide_ofLatin1, latin1_ofLatin1, Option.getD_some]
  cases newString (readline bytes).1 <;> rfl

theorem next_line_end (hio : DeliversLines io left) (hw : left w bytes) (h : cutLines bytes = []) :
    ∃ w', next_line io w = .ok (.End, w') := by
  obtain ⟨w', -, hread⟩ := read_line_eq hio hw
  rw [cutLines_eq_nil.mp h] at hread
  refine ⟨w', ?_⟩
  rw [next_line, hread]
  rfl

theorem next_line_line (hio : DeliversLines io left) (hw : left w bytes) {line : List UInt8} {rest : List (List UInt8)}
    (h : cutLines bytes = line :: rest) (hshort : line.length ≤ 0x7FFF) :
    ∃ t w', next_line io w = .ok (.Line t, w') ∧ t.bytes = dropEnd 13 (dropEnd 10 line) ∧ left w' (readline bytes).2 := by
  obtain ⟨w', hleft, hread⟩ := read_line_eq hio hw
  rw [(readline_cutLines h).1, newString_ok hshort] at hread
  obtain ⟨t, hstrip, ht⟩ := strip_line_end_ok ⟨line, hshort⟩
  have hne : line ≠ [] := by
    rintro rfl
    exact nil_notMem_cutLines bytes (h ▸ List.mem_cons_self)
  have hlen : ¬str_len ⟨line, hshort⟩ = 0 := by
    intro hzero
    exact hne (List.eq_nil_of_length_eq_zero (Int.natCast_eq_zero.mp hzero))
  refine ⟨t, w', ?_, ht, hleft⟩
  rw [next_line, hread, Except.map, ok_bind]
  refine (if_neg hlen).trans ?_
  rw [hstrip]
  rfl

theorem next_line_long (hio : DeliversLines io left) (hw : left w bytes) {line : List UInt8} {rest : List (List UInt8)}
    (h : cutLines bytes = line :: rest) (hlong : 0x7FFF < line.length) : ∃ e, next_line io w = .error e := by
  obtain ⟨w', -, hread⟩ := read_line_eq hio hw
  rw [(readline_cutLines h).1, newString, dif_neg (by omega)] at hread
  refine ⟨.fault s!"String of {line.length} characters is too long", ?_⟩
  rw [next_line, hread]
  rfl

/-- Each line comes stripped, up to the first that is too long for a string. -/
theorem inputLines_iff (hio : DeliversLines io left) {fuel : ℕ} (hw : left w bytes) (hfuel : (cutLines bytes).length < fuel)
    (texts : List (List UInt8)) :
    (∃ lines, inputLines io fuel w = .ok lines ∧ lines.map Str.bytes = texts) ↔
      (∀ line ∈ cutLines bytes, line.length ≤ 0x7FFF) ∧ texts = (cutLines bytes).map fun line => dropEnd 13 (dropEnd 10 line) := by
  induction fuel generalizing w bytes texts with
  | zero => omega
  | succ fuel ih =>
    cases h : cutLines bytes with
    | nil =>
      obtain ⟨w', hend⟩ := next_line_end hio hw h
      have hrun : inputLines io (fuel + 1) w = .ok [] := by
        rw [inputLines, hend]
        rfl
      rw [hrun]
      constructor
      · rintro ⟨lines, hlines, rfl⟩
        cases hlines
        exact ⟨by simp, rfl⟩
      · rintro ⟨-, rfl⟩
        exact ⟨[], rfl, rfl⟩
    | cons line rest =>
      obtain hlong | hshort := lt_or_ge 0x7FFF line.length
      · obtain ⟨e, herror⟩ := next_line_long hio hw h hlong
        have hrun : inputLines io (fuel + 1) w = .error e := by
          rw [inputLines, herror]
          rfl
        rw [hrun]
        refine iff_of_false ?_ fun hall => absurd (hall.1 line List.mem_cons_self) (by omega)
        rintro ⟨lines, hlines, -⟩
        cases hlines
      · obtain ⟨t, w', hline, ht, hleft⟩ := next_line_line hio hw h hshort
        obtain ⟨-, hcut⟩ := readline_cutLines h
        have hrun : inputLines io (fuel + 1) w = (inputLines io fuel w').map fun lines => t :: lines := by
          rw [inputLines, hline]
          change (inputLines io fuel w' >>= fun lines => pure (t :: lines)) = _
          cases inputLines io fuel w' <;> rfl
        have hrest := ih hleft
          (by rw [h, List.length_cons] at hfuel; rw [hcut]; omega)
        rw [hcut] at hrest
        rw [hrun, List.forall_mem_cons, List.map_cons]
        constructor
        · rintro ⟨lines, hlines, rfl⟩
          obtain ⟨tail, htail, rfl⟩ : ∃ tail, inputLines io fuel w' = .ok tail ∧ lines = t :: tail := by
            cases htail : inputLines io fuel w' with
            | error e => rw [htail] at hlines; cases hlines
            | ok tail => rw [htail] at hlines; cases hlines; exact ⟨tail, rfl, rfl⟩
          obtain ⟨hall, heq⟩ := (hrest _).mp ⟨tail, htail, rfl⟩
          exact ⟨⟨hshort, hall⟩, by rw [List.map_cons, ht, heq]⟩
        · rintro ⟨⟨-, hall⟩, rfl⟩
          obtain ⟨tail, htail, heq⟩ := (hrest _).mpr ⟨hall, rfl⟩
          exact ⟨t :: tail, by rw [htail]; rfl, by rw [List.map_cons, ht, heq]⟩

/-- The texts read are the lines of the stream without their terminators just if no line is
too long for a string and the stream does not end in a bare carriage return. -/
theorem inputLines_exact (hio : DeliversLines io left) {fuel : ℕ} (hw : left w bytes) (hfuel : (cutLines bytes).length < fuel) :
    (∃ lines, inputLines io fuel w = .ok lines ∧ lines.map Str.bytes = (cutLines bytes).map lineText) ↔
      (∀ line ∈ cutLines bytes, line.length ≤ 0x7FFF) ∧ bytes.getLast? ≠ some 13 := by
  rw [inputLines_iff hio hw hfuel, ne_eq, ← getLast?_cutLines (c := 13) (by decide) bytes]
  refine and_congr_right fun _ => ?_
  rw [List.map_inj_left]
  constructor
  · rintro h ⟨line, hline, hcr⟩
    exact (dropEnd_eq_lineText line).mp (h line hline).symm hcr
  · intro h line hline
    exact ((dropEnd_eq_lineText line).mpr fun hcr => h ⟨line, hline, hcr⟩).symm

/-- Input from a shell. -/
def consoleInput : ProgramIO (List UInt8) where
  write _ w := .ok w
  readLine w := .ok (consoleReadLine w)
  readFile path w := (.error path, w)
  writeFile path _ _ w := (.error path, w)
  fileExists _ w := (.ok false, w)
  deleteFile path w := (.error path, w)

theorem consoleInput_delivers : DeliversLines consoleInput Eq := by
  rintro w bytes rfl
  exact ⟨_, rfl, rfl⟩

/-- `"a\r\n\nb"` -/
theorem inputLines_console : ∃ lines, inputLines consoleInput 4 [97, 13, 10, 10, 98] = .ok lines ∧
    lines.map Str.bytes = (cutLines [97, 13, 10, 10, 98]).map lineText :=
  (inputLines_exact consoleInput_delivers rfl (by decide)).mpr ⟨by decide, by decide⟩

/-- A last line `"a\r"` without a newline loses a character. -/
theorem inputLines_loses : ¬ ∃ lines, inputLines consoleInput 2 [97, 13] = .ok lines ∧
    lines.map Str.bytes = (cutLines [97, 13]).map lineText := by
  rintro ⟨lines, hrun, hlines⟩
  have hshort : inputLines consoleInput 2 [97, 13] = .ok [⟨[97], by decide⟩] := by rfl
  rw [hshort] at hrun
  cases hrun
  exact absurd hlines (by decide)

end Lines

end QuinLang.Std
