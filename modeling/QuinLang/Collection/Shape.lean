import QuinLang.Runtime.Collector
import QuinLang.Lib.Tiling

/-! The heap as a sequence of blocks. A block's shape is what its header says
with the mark bit set aside; as long as the shapes stay, so do the extents, the
words that hold references and the walk. -/

namespace QuinLang

open ByteMem Tiling

/-- What a header may say: a known kind, and for a struct or a raw block a detail
the allocator could have written. -/
structure BlockShape (P : CompiledProgram) (m : Mem) (hdr : ℕ) : Prop where
  kind_le : kind m hdr ≤ KIND_VALARRAY
  layout : kind m hdr = KIND_STRUCT →
    ∃ l, P.structs[detail m hdr]? = some (some l) ∧ l.WellFormed
  raw : kind m hdr = KIND_RAW → MIN_PAYLOAD ≤ detail m hdr ∧ detail m hdr % 2 = 0

/-- Payload bytes of a block, 0 where the header is corrupt. -/
def payloadBytes (P : CompiledProgram) (m : Mem) (hdr : ℕ) : ℕ :=
  match payloadSize P m hdr with
  | .ok n => n
  | .error _ => 0

def stopOf (P : CompiledProgram) (m : Mem) (hdr : ℕ) : ℕ :=
  hdr + HEADER_BYTES + payloadBytes P m hdr

/-- Bytes a block takes, header included. -/
def blockBytes (P : CompiledProgram) (m : Mem) (hdr : ℕ) : ℕ := HEADER_BYTES + payloadBytes P m hdr

/-- `bs` are the headers of well-formed blocks tiling `[HEAP_START, heapPtr)`. -/
structure Blocks (P : CompiledProgram) (m : Mem) (heapPtr : ℕ) (bs : List ℕ) : Prop where
  tiles : Tiles (stopOf P m) HEAP_START bs heapPtr
  shape : ∀ b ∈ bs, BlockShape P m b

/-- The two memories agree on every header of `bs`, mark bits aside. -/
def SameHeaders (bs : List ℕ) (m m' : Mem) : Prop :=
  ∀ b ∈ bs, kind m' b = kind m b ∧ detail m' b = detail m b

variable {P : CompiledProgram} {m m' : Mem} {hdr heapPtr : ℕ} {bs : List ℕ}

theorem payloadSize_congr {hdr' : ℕ} (hk : kind m' hdr' = kind m hdr)
    (hd : detail m' hdr' = detail m hdr) :
    (∀ e, payloadSize P m hdr = .ok e → payloadSize P m' hdr' = .ok e) ∧
      payloadBytes P m' hdr' = payloadBytes P m hdr := by
  unfold payloadBytes payloadSize
  rw [hk, hd]
  by_cases h1 : kind m hdr = KIND_STRUCT
  · simp only [h1, if_true]
    cases P.structs[detail m hdr]? with
    | none => simp
    | some o => cases o <;> simp
  · simp only [h1, if_false]
    exact ⟨fun e h => h, trivial⟩

theorem BlockShape.congr {hdr' : ℕ} (h : BlockShape P m hdr) (hk : kind m' hdr' = kind m hdr)
    (hd : detail m' hdr' = detail m hdr) : BlockShape P m' hdr' :=
  ⟨by rw [hk]; exact h.kind_le, by rw [hk, hd]; exact h.layout, by rw [hk, hd]; exact h.raw⟩

/-- The three ways a known kind fixes the payload size. -/
theorem BlockShape.payloadSize_eq (h : BlockShape P m hdr) :
    payloadSize P m hdr = .ok (payloadBytes P m hdr) := by
  have hk := h.kind_le
  unfold payloadBytes payloadSize
  by_cases h1 : kind m hdr = KIND_STRUCT
  · obtain ⟨l, hl, -⟩ := h.layout h1
    simp only [h1, if_true, hl]
  · simp only [h1, if_false]
    split_ifs <;> rfl

theorem BlockShape.payloadBytes_pos (h : BlockShape P m hdr) : MIN_PAYLOAD ≤ payloadBytes P m hdr := by
  unfold payloadBytes payloadSize
  by_cases h1 : kind m hdr = KIND_STRUCT
  · obtain ⟨l, hl, -⟩ := h.layout h1
    simp only [h1, if_true, hl]
    exact le_max_right _ _
  · simp only [h1, if_false]
    split_ifs with h2 h3
    · exact le_max_right _ _
    · exact le_max_right _ _
    · have hraw : kind m hdr = KIND_RAW := by
        have := h.kind_le
        simp only [KIND_STRUCT, KIND_RAW, KIND_STRING, KIND_REFARRAY, KIND_VALARRAY] at *
        omega
      exact (h.raw hraw).1

theorem BlockShape.blockEnd_eq (h : BlockShape P m hdr) : blockEnd P m hdr = .ok (stopOf P m hdr) := by
  rw [blockEnd, h.payloadSize_eq]
  rfl

theorem stopOf_eq : stopOf P m hdr = hdr + blockBytes P m hdr := by
  simp only [stopOf, blockBytes, Nat.add_assoc]

theorem stopOf_sub : stopOf P m hdr - hdr = blockBytes P m hdr := by
  rw [stopOf_eq, Nat.add_sub_cancel_left]

theorem SameHeaders.refl : SameHeaders bs m m := fun _ _ => ⟨rfl, rfl⟩

theorem SameHeaders.symm (h : SameHeaders bs m m') : SameHeaders bs m' m :=
  fun b hb => ⟨(h b hb).1.symm, (h b hb).2.symm⟩

theorem SameHeaders.trans {m'' : Mem} (h : SameHeaders bs m m') (h' : SameHeaders bs m' m'') :
    SameHeaders bs m m'' :=
  fun b hb => ⟨(h' b hb).1.trans (h b hb).1, (h' b hb).2.trans (h b hb).2⟩

theorem SameHeaders.payloadBytes (h : SameHeaders bs m m') {b : ℕ} (hb : b ∈ bs) :
    payloadBytes P m' b = payloadBytes P m b :=
  (payloadSize_congr (h b hb).1 (h b hb).2).2

theorem SameHeaders.stopOf (h : SameHeaders bs m m') {b : ℕ} (hb : b ∈ bs) :
    stopOf P m' b = stopOf P m b := by
  rw [QuinLang.stopOf, QuinLang.stopOf, h.payloadBytes hb]

theorem Blocks.congr (h : Blocks P m heapPtr bs) (hs : SameHeaders bs m m') : Blocks P m' heapPtr bs :=
  ⟨h.tiles.congr fun _ hb => hs.stopOf hb,
    fun b hb => (h.shape b hb).congr (hs b hb).1 (hs b hb).2⟩

theorem Blocks.bounds (h : Blocks P m heapPtr bs) {b : ℕ} (hb : b ∈ bs) :
    HEAP_START ≤ b ∧ b + 6 ≤ stopOf P m b ∧ stopOf P m b ≤ heapPtr := by
  have h1 := h.tiles.mem_bounds hb
  have h2 := (h.shape b hb).payloadBytes_pos
  simp only [stopOf, HEADER_BYTES, MIN_PAYLOAD] at *
  omega

/-- Headers are kept by any change that stays inside payloads. -/
theorem blocksFrom_eq {addr : ℕ} (ht : Tiles (stopOf P m) addr bs heapPtr)
    (hs : ∀ b ∈ bs, BlockShape P m b) : blocksFrom P m heapPtr addr = .ok bs := by
  induction ht with
  | nil a =>
    rw [blocksFrom]
    simp
  | @cons a e as hlt ht ih =>
    have hle := ht.le
    rw [blocksFrom, if_pos (by omega)]
    have hend := (hs a List.mem_cons_self).blockEnd_eq
    split
    · simp_all
    · rename_i stop hstop
      rw [hend] at hstop
      cases hstop
      rw [ih fun b hb => hs b (List.mem_cons_of_mem _ hb)]

/-- The walk meets exactly the tiling's blocks. -/
theorem Blocks.blocksFrom (h : Blocks P m heapPtr bs) :
    blocksFrom P m heapPtr HEAP_START = .ok bs :=
  blocksFrom_eq h.tiles h.shape

/-- The block whose payload holds `ref`. -/
def blockOf (stop : ℕ → ℕ) (bs : List ℕ) (ref : ℕ) : Option ℕ :=
  bs.find? fun b => decide (b + HEADER_BYTES ≤ ref ∧ ref < stop b)

theorem blockOf_some {stop : ℕ → ℕ} {ref b : ℕ} (h : blockOf stop bs ref = some b) :
    b ∈ bs ∧ b + HEADER_BYTES ≤ ref ∧ ref < stop b :=
  ⟨List.mem_of_find?_eq_some h, by simpa using List.find?_some h⟩

theorem blockOf_eq_some {stop : ℕ → ℕ} {a e ref b : ℕ} (ht : Tiles stop a bs e) (hb : b ∈ bs)
    (hl : b + HEADER_BYTES ≤ ref) (hr : ref < stop b) : blockOf stop bs ref = some b := by
  cases h : blockOf stop bs ref with
  | none =>
    have := List.find?_eq_none.mp h b hb
    simp [hl, hr] at this
  | some c =>
    obtain ⟨hc, hcl, hcr⟩ := blockOf_some h
    have h1 : b ≤ ref := by omega
    have h2 : c ≤ ref := by omega
    rw [ht.unique hc hb ⟨h2, hcr⟩ ⟨h1, hr⟩]

theorem blockOf_congr {stop stop' : ℕ → ℕ} {ref : ℕ} (h : ∀ b ∈ bs, stop' b = stop b) :
    blockOf stop' bs ref = blockOf stop bs ref := by
  unfold blockOf
  induction bs with
  | nil => rfl
  | cons b bs ih =>
    simp only [List.find?_cons, h b List.mem_cons_self]
    rw [ih fun c hc => h c (List.mem_cons_of_mem _ hc)]

/-- On an ascending list the entries up to the bisection point are those at most `x`. -/
theorem bisectRight_spec {xs : List ℕ} (hs : xs.Pairwise (· < ·)) (x i : ℕ) (hi : i < xs.length) :
    i < bisectRight xs x ↔ xs[i] ≤ x := by
  unfold bisectRight
  induction xs generalizing i with
  | nil => simp at hi
  | cons y ys ih =>
    rw [List.pairwise_cons] at hs
    by_cases hy : y ≤ x
    · simp only [List.takeWhile_cons, hy, decide_true, if_true, List.length_cons]
      cases i with
      | zero => simp [hy]
      | succ i => simpa using ih hs.2 i (by simpa using hi)
    · simp only [List.takeWhile_cons, hy, decide_false, Bool.false_eq_true, if_false,
        List.length_nil, Nat.not_lt_zero, false_iff, Nat.not_le]
      cases i with
      | zero => simpa using hy
      | succ i =>
        have hi' : i < ys.length := by simpa using hi
        have := hs.1 ys[i] (List.getElem_mem hi')
        simp only [List.getElem_cons_succ]
        omega

/-- The bisection finds the block whose payload holds the address, and only that. -/
theorem Blocks.containingObject_eq (h : Blocks P m heapPtr bs) (ref : ℕ) :
    containingObject P m ref (bs.map (· + HEADER_BYTES)) =
      .ok ((blockOf (stopOf P m) bs ref).map (· + HEADER_BYTES)) := by
  have hsort : (bs.map (· + HEADER_BYTES)).Pairwise (· < ·) := by
    rw [List.pairwise_map]
    exact h.tiles.sorted.imp fun hlt => by omega
  have hspec := bisectRight_spec hsort ref
  simp only [List.length_map, List.getElem_map] at hspec
  have hlen : bisectRight (bs.map (· + HEADER_BYTES)) ref ≤ bs.length := by
    unfold bisectRight
    have hsub : ((bs.map (· + HEADER_BYTES)).takeWhile (· ≤ ref)).Sublist (bs.map (· + HEADER_BYTES)) :=
      List.takeWhile_sublist _
    simpa using hsub.length_le
  unfold containingObject
  cases hi : bisectRight (bs.map (· + HEADER_BYTES)) ref with
  | zero =>
    have : blockOf (stopOf P m) bs ref = none := by
      cases hb : blockOf (stopOf P m) bs ref with
      | none => rfl
      | some b =>
        obtain ⟨hb, hl, -⟩ := blockOf_some hb
        obtain ⟨j, hj, rfl⟩ := List.mem_iff_getElem.mp hb
        have := (hspec j hj).mpr hl
        omega
    simp [this]
  | succ i =>
    have hlt : i < bs.length := by omega
    have hle : bs[i] + HEADER_BYTES ≤ ref := (hspec i hlt).mp (by omega)
    have hmem : bs[i] ∈ bs := List.getElem_mem hlt
    simp only [List.getElem?_map, List.getElem?_eq_getElem hlt, Option.map_some,
      Nat.add_sub_cancel, (h.shape _ hmem).blockEnd_eq]
    by_cases hr : ref < stopOf P m bs[i]
    · rw [if_pos hr, blockOf_eq_some h.tiles hmem hle hr]
      rfl
    · rw [if_neg hr]
      cases hb : blockOf (stopOf P m) bs ref with
      | none => rfl
      | some b =>
        exfalso
        obtain ⟨hb, hl, hbr⟩ := blockOf_some hb
        obtain ⟨j, hj, rfl⟩ := List.mem_iff_getElem.mp hb
        have hji : j ≤ i := by
          have := (hspec j hj).mpr hl
          omega
        rcases Nat.lt_or_eq_of_le hji with hlt' | rfl
        · have hsorted := List.pairwise_iff_getElem.mp h.tiles.pairwise j i hj hlt hlt'
          simp only [HEADER_BYTES] at hle
          omega
        · exact hr hbr

/-- The words that hold references lie inside the payload, on distinct words. -/
theorem BlockShape.refWords_bounds (h : BlockShape P m hdr) {a : ℕ}
    (ha : a ∈ refWords P m (hdr + HEADER_BYTES)) :
    hdr + HEADER_BYTES ≤ a ∧ a + 2 ≤ stopOf P m hdr ∧ (a - hdr) % 2 = 0 := by
  unfold refWords at ha
  simp only [Nat.add_sub_cancel] at ha
  split_ifs at ha with h1 h2
  · obtain ⟨l, hl, hw⟩ := h.layout h1
    simp only [hl, List.mem_map] at ha
    obtain ⟨off, hoff, rfl⟩ := ha
    have := hw.inside off hoff
    have hsz : payloadBytes P m hdr = max (l.wordSize * 2) MIN_PAYLOAD := by
      simp only [payloadBytes, payloadSize, h1, if_true, hl]
    rw [stopOf, hsz]
    simp only [HEADER_BYTES, MIN_PAYLOAD]
    omega
  · simp only [List.mem_map, List.mem_range] at ha
    obtain ⟨i, hi, rfl⟩ := ha
    have hsz : payloadBytes P m hdr = max (detail m hdr * 2) MIN_PAYLOAD := by
      unfold payloadBytes payloadSize
      rw [if_neg h1, if_pos (Or.inl h2)]
    rw [stopOf, hsz]
    simp only [HEADER_BYTES, MIN_PAYLOAD]
    omega
  · simp at ha

theorem BlockShape.refWords_nodup (h : BlockShape P m hdr) :
    (refWords P m (hdr + HEADER_BYTES)).Nodup := by
  unfold refWords
  simp only [Nat.add_sub_cancel]
  split_ifs with h1 h2
  · obtain ⟨l, hl, hw⟩ := h.layout h1
    simp only [hl]
    exact hw.nodup.map fun x y hxy => by simpa using hxy
  · exact List.nodup_range.map fun x y hxy => by simpa using hxy
  · exact List.nodup_nil

theorem refWords_congr (hk : kind m' hdr = kind m hdr) (hd : detail m' hdr = detail m hdr) :
    refWords P m' (hdr + HEADER_BYTES) = refWords P m (hdr + HEADER_BYTES) := by
  unfold refWords
  simp only [Nat.add_sub_cancel, hk, hd]

end QuinLang
