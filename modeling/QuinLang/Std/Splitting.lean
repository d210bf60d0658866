import QuinLang.Std.Searching

/-! Splitting at a character and joining again. -/

namespace QuinLang.Std

open Loops

section Joins

variable {α : Type} {sep : List α}

theorem intercalate_concat {ps : List (List α)} (hps : ps ≠ []) (q : List α) :
    sep.intercalate (ps ++ [q]) = sep.intercalate ps ++ sep ++ q := by
  induction ps with
  | nil => exact absurd rfl hps
  | cons p ps ih =>
    cases ps with
    | nil => simp [List.intercalate]
    | cons p' ps =>
      rw [List.cons_append, List.intercalate_cons_of_ne_nil (by simp), ih (List.cons_ne_nil _ _),
        List.intercalate_cons_of_ne_nil (List.cons_ne_nil _ _)]
      simp only [List.append_assoc]

/-- One more character goes to the last piece. -/
theorem intercalate_snoc (ps : List (List α)) (q : List α) (a : α) :
    sep.intercalate (ps ++ [q ++ [a]]) = sep.intercalate (ps ++ [q]) ++ [a] := by
  cases ps with
  | nil => simp [List.intercalate]
  | cons p ps =>
    rw [intercalate_concat (List.cons_ne_nil _ _), intercalate_concat (List.cons_ne_nil _ _)]
    simp only [List.append_assoc]

end Joins

section Splitting

variable {s : Str} {c : UInt8} {fuel : ℕ}

theorem take_succ_eq {i : ℕ} (hi : i < s.bytes.length) : s.bytes.take (i + 1) = s.bytes.take i ++ [s.bytes[i]] := by
  rw [List.take_add_one, List.getElem?_eq_getElem hi]
  rfl

theorem code_eq_iff {b c : UInt8} : (b.toNat : ℤ) = c.toNat ↔ b = c :=
  ⟨fun h => UInt8.toNat_inj.mp (by exact_mod_cast h), fun h => h ▸ rfl⟩

theorem countTurn_ok {i : ℕ} (hi : i < s.bytes.length) :
    countTurn s c.toNat i ((s.bytes.take i).count c : ℕ) = .ok ((s.bytes.take (i + 1)).count c : ℕ) := by
  have hcount : (s.bytes.take i).count c ≤ i := List.count_le_length.trans (List.length_take_le _ _)
  have hshort := short_lt hi
  rw [countTurn, str_char_at_ok hi, take_succ_eq hi, List.count_append, List.count_singleton]
  by_cases h : s.bytes[i] = c
  · refine (if_pos (code_eq_iff.mpr h)).trans ?_
    rw [wrap16_succ (by omega), if_pos (beq_iff_eq.mpr h)]
    rfl
  · refine (if_neg (mt code_eq_iff.mp h)).trans ?_
    rw [if_neg (mt beq_iff_eq.mp h)]
    rfl

theorem str_count_separators_spec (s : Str) (c : UInt8) (hfuel : 0x7FFF < fuel) :
    str_count_separators fuel s c.toNat = .ok ((s.bytes.count c : ℕ) : ℤ) := by
  obtain ⟨n, hloop, hn⟩ := forUpTo_returns (countTurn s c.toNat) fuel (i := 0) (s := 0)
    (P := fun i n => n = ((s.bytes.take i).count c : ℕ)) s.short
    (by
      rintro i _ hi rfl
      exact ⟨_, countTurn_ok hi, rfl⟩)
    (Nat.zero_le _) (by have := s.short; omega) (by simp)
  rw [List.take_length] at hn
  rw [← hn]
  exact hloop

/-- What the splitting loop has done with the first `i` characters: the pieces before the
last separator are in the array, and what follows it is the piece being read. -/
structure Splits (s : Str) (c : UInt8) (i : ℕ) (p : Splitting) (pieces : List Str) (start : ℕ) : Prop where
  piece : p.piece = pieces.length
  out : p.out = pieces ++ List.replicate (s.bytes.count c + 1 - pieces.length) emptyString
  start_eq : p.start = start
  start_le : start ≤ i
  free : ∀ q ∈ pieces, c ∉ q.bytes
  last : c ∉ (s.bytes.take i).drop start
  count : pieces.length = (s.bytes.take i).count c
  joined : [c].intercalate (pieces.map Str.bytes ++ [(s.bytes.take i).drop start]) = s.bytes.take i

variable {i start : ℕ} {p : Splitting} {pieces : List Str}

theorem Splits.length_lt (h : Splits s c i p pieces start) : pieces.length < s.bytes.count c + 1 := by
  rw [h.count]
  exact Nat.lt_succ_of_le ((List.take_sublist i s.bytes).count_le c)

/-- The piece being read goes into the array. -/
theorem Splits.put (h : Splits s c i p pieces start) (hi : i ≤ s.bytes.length) : ∃ q : Str, q.bytes = (s.bytes.take i).drop start ∧
    p.put s i = .ok (pieces ++ q :: List.replicate (s.bytes.count c - pieces.length) emptyString) := by
  have hlt := h.length_lt
  refine ⟨⟨(s.bytes.take i).drop start, by have := s.short; simp; omega⟩, rfl, ?_⟩
  rw [Splitting.put, h.start_eq, str_slice_ok h.start_le hi]
  show arraySet p.out p.piece _ = _
  rw [h.piece, h.out, arraySet_ok (by simp; omega)]
  rw [List.set_append_right _ _ le_rfl, Nat.sub_self, show s.bytes.count c + 1 - pieces.length =
    (s.bytes.count c - pieces.length) + 1 by omega, List.replicate_succ, List.set_cons_zero]

/-- A separator ends the piece being read. -/
theorem Splits.separator (h : Splits s c i p pieces start) (hi : i < s.bytes.length) (hc : s.bytes[i] = c) {q : Str}
    (hq : q.bytes = (s.bytes.take i).drop start) {p' : Splitting}
    (hout : p'.out = pieces ++ q :: List.replicate (s.bytes.count c - pieces.length) emptyString)
    (hpiece : p'.piece = pieces.length + 1) (hstart : p'.start = ((i + 1 : ℕ) : ℤ)) :
    Splits s c (i + 1) p' (pieces ++ [q]) (i + 1) := by
  have hlt := h.length_lt
  have hnil : (s.bytes.take (i + 1)).drop (i + 1) = [] := List.drop_eq_nil_of_le (by simp)
  refine ⟨by rw [hpiece]; simp, ?_, hstart, le_rfl, ?_, by rw [hnil]; exact List.not_mem_nil, ?_, ?_⟩
  · rw [hout, List.append_assoc, List.length_append, List.length_singleton]
    congr 3
    omega
  · intro r hr
    rcases List.mem_append.mp hr with hr | hr
    · exact h.free r hr
    · rw [List.mem_singleton.mp hr, hq]
      exact h.last
  · rw [take_succ_eq hi, List.count_append, List.length_append, h.count, hc]
    simp
  · rw [hnil, List.map_append, List.map_singleton, intercalate_concat (by simp), List.append_nil, hq, h.joined,
      take_succ_eq hi, hc]

/-- Any other character goes to it. -/
theorem Splits.other (h : Splits s c i p pieces start) (hi : i < s.bytes.length) (hc : s.bytes[i] ≠ c) :
    Splits s c (i + 1) p pieces start := by
  have hdrop : (s.bytes.take (i + 1)).drop start = (s.bytes.take i).drop start ++ [s.bytes[i]] := by
    rw [take_succ_eq hi, List.drop_append_of_le_length (by rw [List.length_take]; have := h.start_le; omega)]
  refine ⟨h.piece, h.out, h.start_eq, by have := h.start_le; omega, h.free, ?_, ?_, ?_⟩
  · rw [hdrop, List.mem_append, List.mem_singleton, not_or]
    exact ⟨h.last, Ne.symm hc⟩
  · rw [take_succ_eq hi, List.count_append, h.count, List.count_singleton, if_neg (mt beq_iff_eq.mp hc)]
    rfl
  · rw [hdrop, intercalate_snoc, h.joined, ← take_succ_eq hi]

/-- An array of that many pieces fits into the heap. -/
def PiecesFit (s : Str) (c : UInt8) : Prop := 2 * (s.bytes.count c + 1) < 0x10000

theorem splitTurn_ok (h : Splits s c i p pieces start) (hi : i < s.bytes.length) :
    ∃ p' pieces' start', splitTurn s c.toNat i p = .ok p' ∧ Splits s c (i + 1) p' pieces' start' := by
  have hcount := h.count ▸ List.count_le_length.trans (List.length_take_le i s.bytes)
  have hshort := short_lt hi
  rw [splitTurn, str_char_at_ok hi]
  by_cases hc : s.bytes[i] = c
  · obtain ⟨q, hq, hput⟩ := h.put hi.le
    have hpiece : wrap16 (p.piece + 1) = pieces.length + 1 := by
      rw [h.piece, wrap16_succ (by omega)]
      push_cast
      rfl
    refine ⟨⟨pieces ++ q :: List.replicate (s.bytes.count c - pieces.length) emptyString, wrap16 (p.piece + 1),
      wrap16 ((i : ℤ) + 1)⟩, _, _, ?_, h.separator hi hc hq rfl hpiece ?_⟩
    rotate_left
    · dsimp only
      exact wrap16_succ hshort
    rw [ok_bind, if_pos (code_eq_iff.mpr hc), hput]
    rfl
  · refine ⟨p, _, _, ?_, h.other hi hc⟩
    rw [ok_bind, if_neg (mt code_eq_iff.mp hc)]
    rfl

theorem str_split_spec (hfuel : 0x7FFF < fuel) (hfit : PiecesFit s c) : ∃ pieces, str_split fuel s c.toNat = .ok pieces ∧
    pieces.length = s.bytes.count c + 1 ∧ (∀ q ∈ pieces, c ∉ q.bytes) ∧ [c].intercalate (pieces.map Str.bytes) = s.bytes := by
  have hs := s.short
  unfold PiecesFit at hfit
  obtain ⟨p, hloop, pieces, start, hp⟩ := forUpTo_returns (splitTurn s c.toNat) fuel (i := 0)
    (s := ⟨List.replicate (s.bytes.count c + 1) emptyString, 0, 0⟩) (P := fun i p => ∃ pieces start, Splits s c i p pieces start)
    hs
    (by
      rintro i p hi ⟨pieces, start, h⟩
      obtain ⟨p', pieces', start', hturn, h'⟩ := splitTurn_ok h hi
      exact ⟨p', hturn, pieces', start', h'⟩)
    (Nat.zero_le _) (by omega)
    ⟨[], 0, by simp, by simp, by simp, le_rfl, by simp, by simp, by simp, by simp⟩
  obtain ⟨q, hq, hput⟩ := hp.put le_rfl
  have hall : pieces.length = s.bytes.count c := by rw [hp.count, List.take_length]
  rw [hall, Nat.sub_self, List.replicate_zero] at hput
  refine ⟨pieces ++ [q], ?_, by simp [hall], ?_, ?_⟩
  · rw [str_split, str_count_separators_spec s c hfuel]
    rw [ok_bind, wrap16_succ (by omega), array_new_ok, ok_bind]
    rw [show forUpTo (str_len s) (splitTurn s c.toNat) fuel 0 ⟨List.replicate (s.bytes.count c + 1) emptyString, 0, 0⟩ =
      .ok p from hloop, ok_bind]
    exact hput
  · intro r hr
    rcases List.mem_append.mp hr with hr | hr
    · exact hp.free r hr
    · rw [List.mem_singleton.mp hr, hq]
      exact hp.last
  · rw [List.map_append, List.map_singleton, hq, hp.joined, List.take_length]

end Splitting

section Joining

variable {parts : List Str} {sep : Str} {fuel i : ℕ}

/-- The text of the parts, with the separator between them. -/
def joined (sep : Str) (parts : List Str) : List UInt8 := sep.bytes.intercalate (parts.map Str.bytes)

theorem joined_take_succ (hi : i < parts.length) :
    joined sep (parts.take (i + 1)) = joined sep (parts.take i) ++ (if 0 < i then sep.bytes else []) ++ parts[i].bytes := by
  have htake : (parts.take (i + 1)).map Str.bytes = (parts.take i).map Str.bytes ++ [parts[i].bytes] := by
    rw [List.take_add_one, List.getElem?_eq_getElem hi, List.map_append]
    rfl
  rw [joined, joined, htake]
  cases i with
  | zero => simp
  | succ i =>
    rw [intercalate_concat, if_pos (Nat.succ_pos i)]
    simp only [ne_eq, List.map_eq_nil_iff, List.take_eq_nil_iff, not_or]
    exact ⟨Nat.succ_ne_zero i, fun h => by rw [h] at hi; exact absurd hi (Nat.not_lt_zero _)⟩

theorem length_joined_take_le (hi : i ≤ parts.length) : (joined sep (parts.take i)).length ≤ (joined sep parts).length := by
  induction hi using Nat.decreasingInduction with
  | self => rw [List.take_length]
  | of_succ i hi ih =>
    refine le_trans ?_ ih
    rw [joined_take_succ hi, List.append_assoc, List.length_append]
    exact Nat.le_add_right _ _

theorem concat_bytes {a b r : Str} (h : concat a b = .ok r) : r.bytes = a.bytes ++ b.bytes := by
  rw [concat, newString] at h
  split at h
  · cases h
    rfl
  · cases h

theorem joinTurn_bytes (hi : i < parts.length) {out r : Str} (hout : out.bytes = joined sep (parts.take i))
    (h : joinTurn parts sep i out = .ok r) : r.bytes = joined sep (parts.take (i + 1)) := by
  have hget : arrayGet parts (i : ℤ) = .ok parts[i] := arrayGet_ok (List.getElem?_eq_getElem hi)
  rw [joinTurn, hget] at h
  rw [joined_take_succ hi, ← hout]
  by_cases hpos : 0 < i
  · rw [if_pos (by omega)] at h
    rw [if_pos hpos]
    cases hc : concat out sep with
    | error e =>
      rw [hc] at h
      cases h
    | ok out' =>
      rw [hc] at h
      rw [concat_bytes h, concat_bytes hc]
  · rw [if_neg (by omega)] at h
    rw [if_neg hpos, concat_bytes h, List.append_nil]

theorem joinTurn_ok (hi : i < parts.length) {out : Str} (hout : out.bytes = joined sep (parts.take i))
    (hroom : (joined sep (parts.take (i + 1))).length ≤ 0x7FFF) : ∃ r, joinTurn parts sep i out = .ok r := by
  have hget : arrayGet parts (i : ℤ) = .ok parts[i] := arrayGet_ok (List.getElem?_eq_getElem hi)
  rw [joined_take_succ hi, ← hout, List.length_append, List.length_append] at hroom
  rw [joinTurn, hget]
  by_cases hpos : 0 < i
  · rw [if_pos hpos] at hroom
    rw [if_pos (by omega), concat_ok (by omega)]
    exact ⟨_, concat_ok (by rw [List.length_append]; omega)⟩
  · rw [if_neg (by omega)]
    exact ⟨_, concat_ok (by omega)⟩

theorem str_join_bytes (hparts : parts.length ≤ 0x7FFF) {r : Str} (h : str_join fuel parts sep = .ok r) :
    r.bytes = joined sep parts := by
  have hr := forUpTo_ok _ (P := fun i (out : Str) => out.bytes = joined sep (parts.take i)) hparts
    (fun i s s' hi hs => joinTurn_bytes hi hs) (Nat.zero_le _) rfl h
  rwa [List.take_length] at hr

theorem str_join_spec (hparts : parts.length ≤ 0x7FFF) (hfuel : 0x7FFF < fuel) (hroom : (joined sep parts).length ≤ 0x7FFF) :
    str_join fuel parts sep = .ok ⟨joined sep parts, hroom⟩ := by
  obtain ⟨r, hr, -⟩ := forUpTo_returns (joinTurn parts sep) fuel (i := 0) (s := emptyString)
    (P := fun i (out : Str) => out.bytes = joined sep (parts.take i)) hparts
    (fun i s hi hs => by
      obtain ⟨r, hr⟩ := joinTurn_ok hi hs ((length_joined_take_le hi).trans hroom)
      exact ⟨r, hr, joinTurn_bytes hi hs hr⟩)
    (Nat.zero_le _) (by omega) rfl
  have hjoin : str_join fuel parts sep = .ok r := hr
  have hbytes := str_join_bytes hparts hjoin
  rw [hjoin]
  cases r
  cases hbytes
  rfl

end Joining

section RoundTrip

variable {c : UInt8} {fuel : ℕ}

/-- The one-character string of a code. -/
def charString (c : UInt8) : Str := ⟨[c], by simp⟩

theorem Str.ext {a b : Str} (h : a.bytes = b.bytes) : a = b := by
  cases a
  cases b
  cases h
  rfl

theorem join_split (hfuel : 0x7FFF < fuel) {s : Str} (hfit : PiecesFit s c) : ∃ pieces, str_split fuel s c.toNat = .ok pieces ∧
    pieces.length = s.bytes.count c + 1 ∧ (∀ q ∈ pieces, c ∉ q.bytes) ∧ str_join fuel pieces (charString c) = .ok s := by
  obtain ⟨pieces, hsplit, hlen, hfree, hjoined⟩ := str_split_spec hfuel hfit
  refine ⟨pieces, hsplit, hlen, hfree, ?_⟩
  unfold PiecesFit at hfit
  have hbytes : joined (charString c) pieces = s.bytes := hjoined
  rw [str_join_spec (by omega) hfuel (by rw [hbytes]; exact s.short)]
  exact congrArg _ (Str.ext hbytes)

theorem count_intercalate {ps : List (List UInt8)} (hps : ps ≠ []) (hfree : ∀ p ∈ ps, c ∉ p) :
    ([c].intercalate ps).count c + 1 = ps.length := by
  induction ps with
  | nil => exact absurd rfl hps
  | cons p ps ih =>
    have hp : p.count c = 0 := List.count_eq_zero.mpr (hfree p List.mem_cons_self)
    cases ps with
    | nil => simp [hp]
    | cons p' ps =>
      have hrest := ih (List.cons_ne_nil _ _) fun q hq => hfree q (List.mem_cons_of_mem _ hq)
      rw [List.intercalate_cons_cons, List.count_append, List.count_append, hp, List.count_singleton_self, List.length_cons,
        ← hrest]
      omega

theorem split_join (hfuel : 0x7FFF < fuel) {parts : List Str} (hne : parts ≠ []) (hparts : parts.length ≤ 0x7FFF)
    (hfree : ∀ p ∈ parts, c ∉ p.bytes) {s : Str} (h : str_join fuel parts (charString c) = .ok s) :
    str_split fuel s c.toNat = .ok parts := by
  have hbytes : s.bytes = [c].intercalate (parts.map Str.bytes) := str_join_bytes hparts h
  have hmap : parts.map Str.bytes ≠ [] := by simpa using hne
  have hfree' : ∀ p ∈ parts.map Str.bytes, c ∉ p := by
    intro p hp
    obtain ⟨q, hq, rfl⟩ := List.mem_map.mp hp
    exact hfree q hq
  have hcount := count_intercalate hmap hfree'
  rw [← hbytes, List.length_map] at hcount
  obtain ⟨pieces, hsplit, hlen, hpieces, hjoined⟩ := str_split_spec (s := s) (c := c) hfuel (by unfold PiecesFit; omega)
  rw [hsplit]
  have hpieces' : ∀ p ∈ pieces.map Str.bytes, c ∉ p := by
    intro p hp
    obtain ⟨q, hq, rfl⟩ := List.mem_map.mp hp
    exact hpieces q hq
  have hne' : pieces.map Str.bytes ≠ [] := by
    intro hnil
    rw [List.map_eq_nil_iff] at hnil
    rw [hnil] at hlen
    cases hlen
  -- both are what splitting the text gives
  have hsame : pieces.map Str.bytes = parts.map Str.bytes := by
    rw [← List.splitOn_intercalate c hpieces' hne', hjoined, hbytes, List.splitOn_intercalate c hfree' hmap]
  rw [List.map_injective_iff.mpr (fun a b => Str.ext) hsame]

theorem str_lines_nil {s : Str} (h : s.bytes = []) : str_lines fuel s = .ok [] := by
  rw [str_lines, if_pos (by unfold str_len; rw [h]; rfl)]
  rfl

/-- The text whose lines `str_lines` splits. -/
theorem str_lines_eq (fuel : ℕ) {s : Str} (hne : s.bytes ≠ []) : ∃ text : Str, str_lines fuel s = str_split fuel text 10 ∧
    s.bytes = text.bytes ++ if s.bytes.getLast? = some 10 then [10] else [] := by
  have hs := s.short
  have hpos := List.length_pos_iff.mpr hne
  have hlast : wrap16 (str_len s - 1) = ((s.bytes.length - 1 : ℕ) : ℤ) := by
    unfold str_len
    rw [wrap16_of_range (by omega) (by omega)]
    omega
  have hend : s.bytes.getLast? = some s.bytes[s.bytes.length - 1] := by
    rw [List.getLast?_eq_getElem?, List.getElem?_eq_getElem (by omega)]
  have hten : ((s.bytes[s.bytes.length - 1]).toNat : ℤ) = 10 ↔ s.bytes[s.bytes.length - 1] = 10 := code_eq_iff (c := 10)
  rw [str_lines, if_neg (by unfold str_len; omega), hlast, str_char_at_ok (by omega), ok_bind, hend]
  by_cases h : s.bytes[s.bytes.length - 1] = 10
  · rw [if_pos ⟨by unfold str_len; omega, hten.mpr h⟩, if_pos (by rw [h])]
    refine ⟨⟨(s.bytes.take (s.bytes.length - 1)).drop 0, by simp; omega⟩, ?_, ?_⟩
    · rw [show (0 : ℤ) = ((0 : ℕ) : ℤ) from rfl, str_slice_ok (Nat.zero_le _) (Nat.sub_le _ _)]
      rfl
    · show s.bytes = (s.bytes.take (s.bytes.length - 1)).drop 0 ++ [10]
      rw [List.drop_zero, ← h, ← take_succ_eq (by omega), Nat.sub_add_cancel hpos, List.take_length]
  · rw [if_neg fun hboth => h (hten.mp hboth.2), if_neg fun heq => h (Option.some.inj heq)]
    exact ⟨s, rfl, (List.append_nil _).symm⟩

theorem join_lines (hfuel : 0x7FFF < fuel) {s : Str} (hne : s.bytes ≠ []) (hfit : PiecesFit s 10) :
    ∃ lines text, str_lines fuel s = .ok lines ∧ str_join fuel lines (charString 10) = .ok text ∧
      s.bytes = text.bytes ++ if s.bytes.getLast? = some 10 then [10] else [] := by
  obtain ⟨text, hlines, htext⟩ := str_lines_eq fuel hne
  have hfit' : PiecesFit text 10 := by
    have hle : text.bytes.count 10 ≤ s.bytes.count 10 := by
      rw [htext, List.count_append]
      exact Nat.le_add_right _ _
    unfold PiecesFit at hfit ⊢
    omega
  obtain ⟨lines, hsplit, -, -, hjoin⟩ := join_split hfuel hfit'
  exact ⟨lines, text, hlines.trans hsplit, hjoin, htext⟩

/-- Splitting and joining undo each other, and so do taking the lines and joining them. -/
theorem split_join_inverse (hfuel : 0x7FFF < fuel) :
    (∀ (s : Str) (c : UInt8), PiecesFit s c → ∃ pieces, str_split fuel s c.toNat = .ok pieces ∧
      pieces.length = s.bytes.count c + 1 ∧ (∀ q ∈ pieces, c ∉ q.bytes) ∧ str_join fuel pieces (charString c) = .ok s) ∧
    (∀ (c : UInt8) (parts : List Str), parts ≠ [] → parts.length ≤ 0x7FFF → (∀ p ∈ parts, c ∉ p.bytes) →
      ((joined (charString c) parts).length ≤ 0x7FFF → ∃ s, str_join fuel parts (charString c) = .ok s) ∧
      ∀ s, str_join fuel parts (charString c) = .ok s → str_split fuel s c.toNat = .ok parts) ∧
    (∀ s : Str, s.bytes = [] → str_lines fuel s = .ok []) ∧
    ∀ s : Str, s.bytes ≠ [] → PiecesFit s 10 → ∃ lines text, str_lines fuel s = .ok lines ∧
      str_join fuel lines (charString 10) = .ok text ∧
      s.bytes = text.bytes ++ if s.bytes.getLast? = some 10 then [10] else [] :=
  ⟨fun _ _ hfit => join_split hfuel hfit,
    fun _ _ hne hparts hfree => ⟨fun hroom => ⟨_, str_join_spec hparts hfuel hroom⟩, fun _ h => split_join hfuel hne hparts hfree h⟩,
    fun _ h => str_lines_nil h, fun _ hne hfit => join_lines hfuel hne hfit⟩

/-- `",a,"`. -/
def trailing : Str := ⟨[44, 97, 44], by simp⟩

theorem trailing_split : ∃ pieces, str_split 0x8000 trailing 44 = .ok pieces ∧ pieces.length = 3 ∧
    (∀ q ∈ pieces, 44 ∉ q.bytes) ∧ str_join 0x8000 pieces (charString 44) = .ok trailing :=
  (split_join_inverse (by decide)).1 trailing 44 (by unfold PiecesFit; decide)

end RoundTrip

end QuinLang.Std
