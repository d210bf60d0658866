import QuinLang.Runtime.Interpreter

/-! `runtime/program_io.py`: where a program's input comes from, read from a binary stream
and from a captured text. -/

namespace QuinLang

section Lines

variable {α : Type}

/-- One more element at the front of the first line. -/
def putFirst (a : α) : List (List α) → List (List α)
  | [] => [[a]]
  | line :: lines => (a :: line) :: lines

theorem putFirst_inj {a : α} {ls ls' : List (List α)} (h : [] ∉ ls) (h' : [] ∉ ls') : putFirst a ls = putFirst a ls' ↔ ls = ls' := by
  constructor
  · intro heq
    cases ls with
    | nil =>
      cases ls' with
      | nil => rfl
      | cons line' lines' =>
        cases heq
        exact absurd List.mem_cons_self h'
    | cons line lines =>
      cases ls' with
      | nil =>
        cases heq
        exact absurd List.mem_cons_self h
      | cons line' lines' =>
        cases heq
        rfl
  · rintro rfl
    rfl

theorem nil_notMem_putFirst {a : α} {ls : List (List α)} (h : [] ∉ ls) : [] ∉ putFirst a ls := by
  cases ls with
  | nil => simp [putFirst]
  | cons line lines =>
    rintro (_ | _)
    exact h (List.mem_cons_of_mem _ ‹_›)

theorem map_putFirst {β : Type} (f : α → β) (a : α) (ls : List (List α)) :
    (putFirst a ls).map (List.map f) = putFirst (f a) (ls.map (List.map f)) := by
  cases ls <;> rfl

/-- A stream cut after each of its newlines. -/
def cutLines : List UInt8 → List (List UInt8)
  | [] => []
  | b :: bs => if b = 10 then [10] :: cutLines bs else putFirst b (cutLines bs)

-- Derives the equations once, for all the proofs below.
attribute [local simp] cutLines

theorem nil_notMem_cutLines (bs : List UInt8) : [] ∉ cutLines bs := by
  induction bs with
  | nil => exact List.not_mem_nil
  | cons b bs ih =>
    rw [cutLines]
    split
    · simpa using ih
    · exact nil_notMem_putFirst ih

theorem cutLines_eq_nil {bs : List UInt8} : cutLines bs = [] ↔ bs = [] := by
  constructor
  · intro h
    cases bs with
    | nil => rfl
    | cons b bs =>
      rw [cutLines] at h
      split at h
      · cases h
      · cases hbs : cutLines bs with
        | nil => simp [hbs, putFirst] at h
        | cons line lines => simp [hbs, putFirst] at h
  · rintro rfl
    rfl

/-- Only the last line can end otherwise than in a newline. -/
theorem getLast?_cutLines {c : UInt8} (hc : c ≠ 10) (bs : List UInt8) :
    (∃ line ∈ cutLines bs, line.getLast? = some c) ↔ bs.getLast? = some c := by
  induction bs with
  | nil => simp [cutLines]
  | cons b bs ih =>
    rw [cutLines]
    split
    · next hb =>
      have hnot : ([10] : List UInt8).getLast? ≠ some c := fun h => hc (Option.some.inj h).symm
      rw [List.exists_mem_cons_iff, or_iff_right hnot, ih]
      cases bs with
      | nil =>
        refine iff_of_false (by simp) ?_
        rw [hb]
        exact hnot
      | cons b' bs => rfl
    · cases hbs : cutLines bs with
      | nil =>
        rw [cutLines_eq_nil.mp hbs]
        simp [putFirst]
      | cons line lines =>
        have hline : line ≠ [] := by
          rintro rfl
          exact nil_notMem_cutLines bs (hbs ▸ List.mem_cons_self)
        have hlast : (b :: line).getLast? = line.getLast? := by
          obtain ⟨first, line, rfl⟩ := List.exists_cons_of_ne_nil hline
          rfl
        rw [hbs, List.exists_mem_cons_iff] at ih
        rw [putFirst, List.exists_mem_cons_iff, hlast, ih]
        cases bs with
        | nil => cases hbs
        | cons b' bs => rfl

end Lines

section Console

/-- `readline` of a binary stream: the line, and what is left. -/
def readline : List UInt8 → List UInt8 × List UInt8
  | [] => ([], [])
  | b :: bs => if b = 10 then ([10], bs) else (b :: (readline bs).1, (readline bs).2)

/-- `ConsoleIO.read_line`. -/
def consoleReadLine (stdin : List UInt8) : String × List UInt8 := (ofLatin1 (readline stdin).1, (readline stdin).2)

/-- A line is read whole, and the rest is cut as before. -/
theorem readline_cutLines {bs line : List UInt8} {lines : List (List UInt8)} (h : cutLines bs = line :: lines) :
    (readline bs).1 = line ∧ cutLines (readline bs).2 = lines := by
  induction bs generalizing line with
  | nil => cases h
  | cons b bs ih =>
    rw [cutLines] at h
    rw [readline]
    split
    · next hb =>
      rw [if_pos hb] at h
      cases h
      exact ⟨rfl, rfl⟩
    · next hb =>
      rw [if_neg hb] at h
      cases hbs : cutLines bs with
      | nil =>
        rw [hbs] at h
        cases h
        rw [cutLines_eq_nil.mp hbs]
        exact ⟨rfl, rfl⟩
      | cons first rest =>
        rw [hbs] at h
        cases h
        obtain ⟨hline, hrest⟩ := ih hbs
        exact ⟨by rw [hline], hrest⟩

end Console

section Capture

/-- The line boundaries of `str.splitlines`. -/
def isLineBoundary (c : Char) : Bool :=
  decide (c.toNat ∈ [0x0A, 0x0D, 0x0B, 0x0C, 0x1C, 0x1D, 0x1E, 0x85, 0x2028, 0x2029])

/-- `text.splitlines(keepends=True)`. -/
def splitlines : List Char → List (List Char)
  | [] => []
  | '\r' :: '\n' :: cs => ['\r', '\n'] :: splitlines cs
  | c :: cs => if isLineBoundary c then [c] :: splitlines cs else putFirst c (splitlines cs)

theorem splitlines_cons {c : Char} {cs : List Char} (h : c = '\r' → cs.head? ≠ some '\n') :
    splitlines (c :: cs) = if isLineBoundary c then [c] :: splitlines cs else putFirst c (splitlines cs) := by
  rw [splitlines]
  rintro cs' rfl rfl
  exact h rfl rfl

/-- What a `CaptureIO` holds. -/
structure Capture where
  chunks : List String := []
  files : List (String × List UInt8) := []
  pending : List String := []

/-- `CaptureIO(stdin)`. -/
def Capture.ofStdin (stdin : String) : Capture := { pending := (splitlines stdin.toList).map String.ofList }

/-- `CaptureIO.read_line`. -/
def captureReadLine (w : Capture) : String × Capture :=
  match w.pending with
  | [] => ("", w)
  | line :: rest => (line, { w with pending := rest })

end Capture

section Agreement

/-- The value of a call of `read_line` after others. -/
def readNth {W : Type} (read : W → String × W) : ℕ → W → String
  | 0, w => (read w).1
  | n + 1, w => readNth read n (read w).2

theorem readNth_console (n : ℕ) (stdin : List UInt8) : readNth consoleReadLine n stdin = ofLatin1 ((cutLines stdin).getD n []) := by
  induction n generalizing stdin with
  | zero =>
    cases h : cutLines stdin with
    | nil =>
      rw [cutLines_eq_nil.mp h]
      rfl
    | cons line lines =>
      rw [readNth, consoleReadLine, (readline_cutLines h).1]
      rfl
  | succ n ih =>
    rw [readNth, ih]
    cases h : cutLines stdin with
    | nil =>
      rw [cutLines_eq_nil.mp h]
      rfl
    | cons line lines =>
      rw [consoleReadLine, (readline_cutLines h).2]
      rfl

theorem readNth_capture (n : ℕ) (w : Capture) : readNth captureReadLine n w = w.pending.getD n "" := by
  induction n generalizing w with
  | zero =>
    rw [readNth, captureReadLine]
    split
    · next h => rw [h]; rfl
    · next line rest h => rw [h]; rfl
  | succ n ih =>
    rw [readNth, ih, captureReadLine]
    split
    · next h => rw [h]; rfl
    · next line rest h => rw [h]; rfl

/-- Lists without the default are told apart by what they hold at each index. -/
theorem getD_ext_iff {α : Type} {d : α} {l l' : List α} (h : d ∉ l) (h' : d ∉ l') : (∀ n, l.getD n d = l'.getD n d) ↔ l = l' := by
  constructor
  · intro heq
    refine List.ext_getElem? fun n => ?_
    have hn := heq n
    rw [List.getD_eq_getElem?_getD, List.getD_eq_getElem?_getD] at hn
    cases hl : l[n]? with
    | none =>
      cases hl' : l'[n]? with
      | none => rfl
      | some a =>
        rw [hl, hl'] at hn
        have hd : d = a := hn
        exact absurd (hd ▸ List.mem_of_getElem? hl') h'
    | some a =>
      cases hl' : l'[n]? with
      | none =>
        rw [hl, hl'] at hn
        have hd : a = d := hn
        exact absurd (hd ▸ List.mem_of_getElem? hl) h
      | some b =>
        rw [hl, hl'] at hn
        exact congrArg some hn
  · rintro rfl n
    rfl

/-- The boundaries of `str.splitlines` that a byte can be, a newline apart. -/
def otherBoundaries : List UInt8 := [0x0D, 0x0B, 0x0C, 0x1C, 0x1D, 0x1E, 0x85]

/-- Every other boundary ends the text, or is a carriage return right before a newline. -/
def NewlinesOnly (bs : List UInt8) : Prop :=
  ∀ (i : ℕ) (b : UInt8), bs[i]? = some b → b ∈ otherBoundaries → i + 1 = bs.length ∨ (b = 0x0D ∧ bs[i + 1]? = some 0x0A)

theorem newlinesOnly_nil : NewlinesOnly [] := fun _ _ h => by cases h

theorem newlinesOnly_cons {b : UInt8} {bs : List UInt8} : NewlinesOnly (b :: bs) ↔
    (b ∈ otherBoundaries → bs = [] ∨ (b = 0x0D ∧ bs.head? = some 0x0A)) ∧ NewlinesOnly bs := by
  constructor
  · intro h
    refine ⟨fun hb => ?_, fun i c hc hother => ?_⟩
    · obtain hlast | ⟨hcr, hnext⟩ := h 0 b rfl hb
      · exact .inl (List.eq_nil_of_length_eq_zero (by simpa using hlast.symm))
      · exact .inr ⟨hcr, by rw [List.head?_eq_getElem?]; exact hnext⟩
    · obtain hlast | hcr := h (i + 1) c hc hother
      · exact .inl (by simpa using hlast)
      · exact .inr hcr
  · rintro ⟨hfirst, hrest⟩ i c hc hother
    cases i with
    | zero =>
      cases hc
      obtain rfl | ⟨hcr, hnext⟩ := hfirst hother
      · exact .inl rfl
      · exact .inr ⟨hcr, by rw [List.head?_eq_getElem?] at hnext; exact hnext⟩
    | succ i =>
      obtain hlast | hcr := hrest i c hc hother
      · exact .inl (by simpa using hlast)
      · exact .inr hcr

/-- A byte as a character. -/
def byteChar (b : UInt8) : Char := Char.ofNat b.toNat

theorem toNat_byteChar (b : UInt8) : (byteChar b).toNat = b.toNat := by
  have hlt := b.toNat_lt
  rw [byteChar, Char.toNat_ofNat, if_pos (by unfold Nat.isValidChar; omega)]

theorem byteChar_inj {b c : UInt8} : byteChar b = byteChar c ↔ b = c := by
  constructor
  · intro h
    exact UInt8.toNat_inj.mp (by rw [← toNat_byteChar, h, toNat_byteChar])
  · rintro rfl
    rfl

theorem isLineBoundary_byteChar (b : UInt8) : isLineBoundary (byteChar b) = true ↔ b = 0x0A ∨ b ∈ otherBoundaries := by
  rw [isLineBoundary, toNat_byteChar, decide_eq_true_iff]
  simp only [otherBoundaries, List.mem_cons, List.not_mem_nil, or_false, ← UInt8.toNat_inj]
  have hlt := b.toNat_lt
  simp
  omega

theorem nil_notMem_splitlines (cs : List Char) : [] ∉ splitlines cs := by
  induction cs using splitlines.induct with
  | case1 => exact List.not_mem_nil
  | case2 cs ih =>
    rw [splitlines]
    simpa using ih
  | case3 c cs hne hb ih =>
    rw [splitlines, if_pos hb]
    · simpa using ih
    · exact hne
  | case4 c cs hne hb ih =>
    rw [splitlines, if_neg hb]
    · exact nil_notMem_putFirst ih
    · exact hne

/-- Both ways of cutting the input, as lists of characters. -/
def SameLines (bs : List UInt8) : Prop := splitlines (bs.map byteChar) = (cutLines bs).map (List.map byteChar)

theorem sameLines_newline {bs : List UInt8} : SameLines (0x0A :: bs) ↔ SameLines bs := by
  have hsplit : splitlines ((0x0A :: bs).map byteChar) = ['\n'] :: splitlines (bs.map byteChar) :=
    splitlines_cons fun h => absurd h (by decide)
  rw [SameLines, hsplit, cutLines, if_pos rfl, List.map_cons]
  exact List.cons_eq_cons.trans (and_iff_right rfl)

theorem sameLines_crlf {bs : List UInt8} : SameLines (0x0D :: 0x0A :: bs) ↔ SameLines bs := by
  have hsplit : splitlines ((0x0D :: 0x0A :: bs).map byteChar) = ['\r', '\n'] :: splitlines (bs.map byteChar) := rfl
  have hcut : cutLines (0x0D :: 0x0A :: bs) = [0x0D, 0x0A] :: cutLines bs := rfl
  rw [SameLines, hsplit, hcut, List.map_cons]
  exact List.cons_eq_cons.trans (and_iff_right rfl)

/-- A boundary that the stream does not stop at has to end the text. -/
theorem sameLines_boundary {b : UInt8} {bs : List UInt8} (hb : b ≠ 0x0A)
    (hsplit : splitlines ((b :: bs).map byteChar) = [byteChar b] :: splitlines (bs.map byteChar)) :
    SameLines (b :: bs) ↔ bs = [] := by
  rw [SameLines, hsplit, cutLines, if_neg hb, map_putFirst]
  constructor
  · intro h
    cases hbs : cutLines bs with
    | nil => exact cutLines_eq_nil.mp hbs
    | cons line lines =>
      rw [hbs] at h
      have hline : line.map byteChar = [] := ((List.cons.inj ((List.cons.inj h).1)).2).symm
      rw [List.map_eq_nil_iff] at hline
      exact absurd (hbs ▸ hline ▸ List.mem_cons_self) (nil_notMem_cutLines bs)
  · rintro rfl
    rfl

theorem sameLines_plain {b : UInt8} {bs : List UInt8} (hb : b ≠ 0x0A)
    (hsplit : splitlines ((b :: bs).map byteChar) = putFirst (byteChar b) (splitlines (bs.map byteChar))) :
    SameLines (b :: bs) ↔ SameLines bs := by
  have hcut : [] ∉ (cutLines bs).map (List.map byteChar) := by
    intro h
    obtain ⟨line, hline, hnil⟩ := List.mem_map.mp h
    exact nil_notMem_cutLines bs (List.map_eq_nil_iff.mp hnil ▸ hline)
  rw [SameLines, hsplit, cutLines, if_neg hb, map_putFirst]
  exact putFirst_inj (nil_notMem_splitlines _) hcut

theorem sameLines_iff (bs : List UInt8) : SameLines bs ↔ NewlinesOnly bs := by
  induction hn : bs.length using Nat.strong_induction_on generalizing bs with
  | _ n ih =>
    subst hn
    cases bs with
    | nil => exact iff_of_true rfl newlinesOnly_nil
    | cons b bs =>
      rw [newlinesOnly_cons]
      have hrest := ih bs.length (by simp) bs rfl
      by_cases hnewline : b = 0x0A
      · subst hnewline
        rw [sameLines_newline, hrest]
        exact (and_iff_right fun h => absurd h (by decide)).symm
      by_cases hother : b ∈ otherBoundaries
      · have hboundary : isLineBoundary (byteChar b) = true := (isLineBoundary_byteChar b).mpr (.inr hother)
        by_cases hcr : b = 0x0D
        · subst hcr
          cases bs with
          | nil => exact iff_of_true rfl ⟨fun _ => .inl rfl, newlinesOnly_nil⟩
          | cons c bs =>
            by_cases hlf : c = 0x0A
            · subst hlf
              rw [sameLines_crlf, ih bs.length (by simp) bs rfl, newlinesOnly_cons]
              constructor
              · exact fun h => ⟨fun _ => .inr ⟨rfl, rfl⟩, fun hlf => absurd hlf (by decide), h⟩
              · exact fun h => h.2.2
            · have hne : byteChar c ≠ '\n' := fun h => hlf (byteChar_inj.mp h)
              have hsplit : splitlines ((0x0D :: c :: bs).map byteChar) = [byteChar 0x0D] :: splitlines ((c :: bs).map byteChar) := by
                have hhead : ((c :: bs).map byteChar).head? ≠ some '\n' := fun h => hne (Option.some.inj h)
                refine (splitlines_cons fun _ => hhead).trans ?_
                exact if_pos hboundary
              rw [sameLines_boundary hnewline hsplit]
              refine iff_of_false (by simp) fun h => ?_
              obtain hnil | ⟨-, hlf'⟩ := h.1 hother
              · cases hnil
              · exact hlf (Option.some.inj hlf')
        · have hne : byteChar b ≠ '\r' := fun h => hcr (byteChar_inj.mp h)
          have hsplit : splitlines ((b :: bs).map byteChar) = [byteChar b] :: splitlines (bs.map byteChar) := by
            rw [List.map_cons, splitlines_cons fun h => absurd h hne, if_pos hboundary]
          rw [sameLines_boundary hnewline hsplit]
          constructor
          · rintro rfl
            exact ⟨fun _ => .inl rfl, newlinesOnly_nil⟩
          · rintro ⟨h, -⟩
            exact (h hother).resolve_right fun h => hcr h.1
      · have hplain : ¬isLineBoundary (byteChar b) = true := fun h =>
          ((isLineBoundary_byteChar b).mp h).elim hnewline hother
        have hne : byteChar b ≠ byteChar 0x0D := fun h => hother (byteChar_inj.mp h ▸ by decide)
        have hsplit : splitlines ((b :: bs).map byteChar) = putFirst (byteChar b) (splitlines (bs.map byteChar)) := by
          rw [List.map_cons, splitlines_cons fun h => absurd h hne, if_neg hplain]
        rw [sameLines_plain hnewline hsplit, hrest]
        exact (and_iff_right fun h => absurd h hother).symm

/-- The captured text and the binary stream give the same lines just if no character but a
newline ends a line before the end. -/
theorem readLine_agrees_exact (data : List UInt8) :
    (∀ n, readNth captureReadLine n (Capture.ofStdin (ofLatin1 data)) = readNth consoleReadLine n data) ↔ NewlinesOnly data := by
  have hcapture : (Capture.ofStdin (ofLatin1 data)).pending = (splitlines (data.map byteChar)).map String.ofList := by
    rw [Capture.ofStdin, ofLatin1, String.toList_ofList]
    rfl
  have hconsole : ∀ n, readNth consoleReadLine n data = (((cutLines data).map (List.map byteChar)).map String.ofList).getD n "" := by
    intro n
    rw [readNth_console, List.map_map]
    exact (List.getD_map _ [] (String.ofList ∘ List.map byteChar)).symm
  have hne : ∀ ls : List (List Char), [] ∉ ls → "" ∉ ls.map String.ofList := by
    intro ls hls h
    obtain ⟨line, hline, heq⟩ := List.mem_map.mp h
    exact hls (String.ofList_injective heq ▸ hline)
  simp only [readNth_capture, hcapture, hconsole]
  rw [getD_ext_iff (hne _ (nil_notMem_splitlines _)) (hne _ ?_), List.map_inj_right fun _ _ h => String.ofList_injective h, ← sameLines_iff]
  · exact Iff.rfl
  · intro h
    obtain ⟨line, hline, hnil⟩ := List.mem_map.mp h
    exact nil_notMem_cutLines data (List.map_eq_nil_iff.mp hnil ▸ hline)

/-- `"a\rb"` is two lines under capture, and one from a shell. -/
theorem readLine_differs : ¬ ∀ n, readNth captureReadLine n (Capture.ofStdin (ofLatin1 [97, 13, 98])) = readNth consoleReadLine n [97, 13, 98] := by
  intro h
  exact absurd (h 0) (by decide)

end Agreement

end QuinLang
