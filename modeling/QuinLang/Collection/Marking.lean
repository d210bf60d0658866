import QuinLang.Collection.Shape
import QuinLang.Lib.Worklist

/-! Marking. Over a tiled heap the mark bits are the only thing marking writes,
and the blocks it marks are the ones reachable from the roots. -/

namespace QuinLang

open ByteMem Tiling Worklist

variable {P : CompiledProgram} {m m' : Mem} {heapPtr : ℕ} {bs : List ℕ} {L : List ℕ}

theorem setMark_frame {hdr x : ℕ} {b : Bool} (h : x ≠ hdr + 1) : setMark m hdr b x = m x := by
  by_cases hx : x = hdr
  · subst hx
    have h0 := (m x).toNat_lt
    have h1 := (m (x + 1)).toNat_lt
    apply UInt8.toNat_inj.mp
    cases b <;> simp only [setMark, writeWord, readWord, MARK_BIT, if_true, Bool.false_eq_true,
      if_false, UInt8.toNat_ofNat'] <;> omega
  · rw [setMark, writeWord_frame m (by omega)]

theorem kind_setMark {hdr : ℕ} {b : Bool} : kind (setMark m hdr b) hdr = kind m hdr := by
  have hw := readWord_lt m hdr
  unfold kind setMark
  rw [readWord_writeWord]
  cases b <;> simp only [MARK_BIT, if_true, Bool.false_eq_true, if_false] <;> omega

/-- Payloads and headers do not overlap. -/
theorem Blocks.payload_off_headers (h : Blocks P m heapPtr bs) {b c x : ℕ} (hb : b ∈ bs) (hc : c ∈ bs)
    (hl : b + HEADER_BYTES ≤ x) (hr : x < stopOf P m b) : x < c ∨ c + HEADER_BYTES ≤ x := by
  have hcb := h.bounds hc
  rcases lt_trichotomy b c with hlt | rfl | hgt
  · have := h.tiles.stop_le hb hc hlt
    omega
  · exact Or.inr hl
  · have := h.tiles.stop_le hc hb hgt
    simp only [HEADER_BYTES] at *
    omega

theorem Blocks.headers_apart (h : Blocks P m heapPtr bs) {b c : ℕ} (hb : b ∈ bs) (hc : c ∈ bs)
    (hne : b ≠ c) : b + 6 ≤ c ∨ c + 6 ≤ b := by
  have hbb := h.bounds hb
  have hcb := h.bounds hc
  rcases Nat.lt_or_gt_of_ne hne with hlt | hgt
  · have := h.tiles.stop_le hb hc hlt
    omega
  · have := h.tiles.stop_le hc hb hgt
    omega

/-- `m'` is `m` with exactly the blocks of `L` marked. -/
structure MarksAre (bs : List ℕ) (m m' : Mem) (L : List ℕ) : Prop where
  headers : SameHeaders bs m m'
  marked : ∀ b ∈ bs, isMarked m' b = decide (b ∈ L)
  frame : ∀ x, (∀ b ∈ bs, x ≠ b + 1) → m' x = m x

theorem MarksAre.init (hu : ∀ b ∈ bs, isMarked m b = false) : MarksAre bs m m [] :=
  ⟨.refl, fun b hb => by simp [hu b hb], fun _ _ => rfl⟩

theorem MarksAre.visit (hB : Blocks P m heapPtr bs) (h : MarksAre bs m m' L) {n : ℕ} (hn : n ∈ bs) :
    MarksAre bs m (setMark m' n true) (n :: L) := by
  refine ⟨h.headers.trans ?_, ?_, ?_⟩
  · intro b hb
    by_cases hbn : b = n
    · subst hbn
      refine ⟨kind_setMark, ?_⟩
      exact readWord_congr (setMark_frame (by omega)) (setMark_frame (by omega))
    · have := hB.headers_apart hb hn hbn
      constructor
      · unfold kind
        rw [readWord_congr (setMark_frame (by omega)) (setMark_frame (by omega))]
      · exact readWord_congr (setMark_frame (by omega)) (setMark_frame (by omega))
  · intro b hb
    rw [isMarked_setMark, h.marked b hb]
    by_cases hbn : b = n <;> simp [hbn]
  · intro x hx
    rw [setMark_frame (hx n hn), h.frame x hx]

theorem MarksAre.readWord (hB : Blocks P m heapPtr bs) (h : MarksAre bs m m' L) {b a : ℕ} (hb : b ∈ bs)
    (hl : b + HEADER_BYTES ≤ a) (hr : a + 2 ≤ stopOf P m b) : readWord m' a = readWord m a := by
  apply readWord_congr
  · apply h.frame
    intro c hc heq
    have := hB.payload_off_headers hb hc hl (by omega)
    simp only [HEADER_BYTES] at this
    omega
  · apply h.frame
    intro c hc heq
    have := hB.payload_off_headers hb hc (x := a + 1) (by omega) (by omega)
    simp only [HEADER_BYTES] at this
    omega

theorem MarksAre.refWords (h : MarksAre bs m m' L) {b : ℕ} (hb : b ∈ bs) :
    refWords P m' (b + HEADER_BYTES) = refWords P m (b + HEADER_BYTES) :=
  refWords_congr (h.headers b hb).1 (h.headers b hb).2

/-- The words a block's reference slots hold. -/
def heldRefs (P : CompiledProgram) (m : Mem) (b : ℕ) : List ℕ :=
  (refWords P m (b + HEADER_BYTES)).map (readWord m)

theorem MarksAre.heldRefs (hB : Blocks P m heapPtr bs) (h : MarksAre bs m m' L) {b : ℕ} (hb : b ∈ bs) :
    heldRefs P m' b = heldRefs P m b := by
  unfold QuinLang.heldRefs
  rw [h.refWords hb]
  refine List.map_congr_left fun a ha => ?_
  have := (hB.shape b hb).refWords_bounds ha
  exact h.readWord hB hb this.1 this.2.1

/-- The blocks reachable from the given references. -/
def Reachable (P : CompiledProgram) (m : Mem) (bs : List ℕ) (roots : List ℕ) : ℕ → Prop :=
  Reach (blockOf (stopOf P m) bs) (heldRefs P m) (· ∈ roots)

theorem blockOf_null {stop : ℕ → ℕ} : blockOf stop bs NULL_ADDR = none := by
  cases hb : blockOf stop bs NULL_ADDR with
  | none => rfl
  | some b =>
    have := (blockOf_some hb).2.1
    simp only [NULL_ADDR, HEADER_BYTES] at this
    omega

/-- What one call of `markFrom` achieves, started with `L` marked. -/
structure MarkResult (P : CompiledProgram) (m : Mem) (bs L pending : List ℕ) (m'' : Mem)
    (L' : List ℕ) : Prop where
  marks : MarksAre bs m m'' L'
  inside : ∀ b ∈ L', b ∈ bs
  grows : ∀ b ∈ L, b ∈ L'
  frontier : Frontier (blockOf (stopOf P m) bs) (heldRefs P m) L' []
  covers : ∀ a ∈ pending, ∀ c, blockOf (stopOf P m) bs a = some c → c ∈ L'
  sound : ∀ Q : ℕ → Prop, (∀ b ∈ L, Q b) →
    (∀ a ∈ pending, ∀ c, blockOf (stopOf P m) bs a = some c → Q c) →
    (∀ b, Q b → ∀ a ∈ heldRefs P m b, ∀ c, blockOf (stopOf P m) bs a = some c → Q c) → ∀ b ∈ L', Q b

/-- Dropping an address that resolves to nothing new does not change the outcome. -/
theorem MarkResult.cons {addr : ℕ} {pending L' : List ℕ} {m'' : Mem}
    (h : MarkResult P m bs L pending m'' L')
    (hd : ∀ c, blockOf (stopOf P m) bs addr = some c → c ∈ L) :
    MarkResult P m bs L (addr :: pending) m'' L' := by
  refine ⟨h.marks, h.inside, h.grows, h.frontier, ?_, ?_⟩
  · intro a ha c hc
    rcases List.mem_cons.mp ha with rfl | ha
    · exact h.grows c (hd c hc)
    · exact h.covers a ha c hc
  · intro Q hL hp hQ
    exact h.sound Q hL (fun a ha => hp a (List.mem_cons_of_mem _ ha)) hQ

theorem markFrom_spec (hB : Blocks P m heapPtr bs) (m' : Mem) (pending : List ℕ)
    (hm : MarksAre bs m m' L) (hL : ∀ b ∈ L, b ∈ bs)
    (hf : Frontier (blockOf (stopOf P m) bs) (heldRefs P m) L pending) :
    ∃ m'' L', markFrom P (bs.map (· + HEADER_BYTES)) m' pending = .ok m'' ∧
      MarkResult P m bs L pending m'' L' := by
  have hB' : ∀ {m' L}, MarksAre bs m m' L → Blocks P m' heapPtr bs := fun hm => hB.congr hm.headers
  have hres : ∀ {m' L} addr, MarksAre bs m m' L →
      containingObject P m' addr (bs.map (· + HEADER_BYTES)) =
        .ok ((blockOf (stopOf P m) bs addr).map (· + HEADER_BYTES)) := by
    intro m' L addr hm
    rw [(hB' hm).containingObject_eq, blockOf_congr fun b hb => hm.headers.stopOf hb]
  induction m', pending using markFrom.induct P (bs.map (· + HEADER_BYTES)) generalizing L with
  | case1 m' =>
    rw [markFrom]
    exact ⟨m', L, rfl, hm, hL, fun b hb => hb, hf, by simp, fun Q hQ _ _ => hQ⟩
  | case2 m' pending ih =>
    -- a null reference
    rw [markFrom, if_pos rfl]
    have hn : ∀ c, blockOf (stopOf P m) bs NULL_ADDR = some c → c ∈ L := by simp [blockOf_null]
    obtain ⟨m'', L', hok, hr⟩ := ih hm hL (hf.drop hn)
    exact ⟨m'', L', hok, hr.cons hn⟩
  | case3 m' addr pending hne err herr =>
    rw [hres addr hm] at herr
    cases herr
  | case4 m' addr pending hne hnone ih =>
    -- an address outside every payload
    have hnone' := (hres addr hm).symm.trans hnone
    rw [Except.ok.injEq, Option.map_eq_none_iff] at hnone'
    have hn : ∀ c, blockOf (stopOf P m) bs addr = some c → c ∈ L := by simp [hnone']
    obtain ⟨m'', L', hok, hr⟩ := ih hm hL (hf.drop hn)
    refine ⟨m'', L', ?_, hr.cons hn⟩
    rw [markFrom, if_neg hne]
    split
    · simp_all
    · exact hok
    · simp_all
  | case5 m' addr pending hne start hsome hmk ih =>
    -- a block already marked
    have hsome' := (hres addr hm).symm.trans hsome
    rw [Except.ok.injEq, Option.map_eq_some_iff] at hsome'
    obtain ⟨n, hn, rfl⟩ := hsome'
    rw [Nat.add_sub_cancel, hm.marked n (blockOf_some hn).1, decide_eq_true_eq] at hmk
    have hd : ∀ c, blockOf (stopOf P m) bs addr = some c → c ∈ L := by
      intro c hc
      rw [hn] at hc
      cases hc
      exact hmk
    obtain ⟨m'', L', hok, hr⟩ := ih hm hL (hf.drop hd)
    refine ⟨m'', L', ?_, hr.cons hd⟩
    rw [markFrom, if_neg hne]
    split
    · simp_all
    · simp_all
    · rename_i start hs
      rw [hsome, Except.ok.injEq, Option.some.injEq] at hs
      subst hs
      rw [dif_pos (by rw [Nat.add_sub_cancel, hm.marked n (blockOf_some hn).1]; simpa using hmk)]
      exact hok
  | case6 m' addr pending hne start hsome hmk mv queued =>
    -- a fresh block: mark it and queue what it holds
    rename_i ih
    have hsome' := (hres addr hm).symm.trans hsome
    rw [Except.ok.injEq, Option.map_eq_some_iff] at hsome'
    obtain ⟨n, hn, rfl⟩ := hsome'
    have hnb := (blockOf_some hn).1
    have hmv : MarksAre bs m mv (n :: L) := by
      have := hm.visit hB hnb
      rwa [← Nat.add_sub_cancel (n := n) (m := HEADER_BYTES)] at this
    have hq : queued = heldRefs P m n := by
      rw [← hmv.heldRefs hB hnb]
      rfl
    have hL' : ∀ b ∈ n :: L, b ∈ bs := by
      intro b hb
      rcases List.mem_cons.mp hb with rfl | hb
      · exact hnb
      · exact hL b hb
    have hf' := @Frontier.visit _ _ _ _ _ _ queued.reverse _ _ hf hn (by simp [hq])
    obtain ⟨m'', L', hok, hr⟩ := ih hmv hL' hf'
    refine ⟨m'', L', ?_, hr.marks, hr.inside, fun b hb => hr.grows b (List.mem_cons_of_mem _ hb),
      hr.frontier, ?_, ?_⟩
    · rw [markFrom, if_neg hne]
      split
      · simp_all
      · simp_all
      · rename_i start hs
        rw [hsome, Except.ok.injEq, Option.some.injEq] at hs
        subst hs
        rw [dif_neg hmk]
        exact hok
    · intro a ha c hc
      rcases List.mem_cons.mp ha with rfl | ha
      · rw [hn] at hc
        cases hc
        exact hr.grows n List.mem_cons_self
      · exact hr.covers a (List.mem_append_right _ ha) c hc
    · intro Q hQL hQp hQs
      have hQn : Q n := hQp addr List.mem_cons_self n hn
      apply hr.sound Q
      · intro b hb
        rcases List.mem_cons.mp hb with rfl | hb
        · exact hQn
        · exact hQL b hb
      · intro a ha c hc
        rcases List.mem_append.mp ha with ha | ha
        · rw [List.mem_reverse, hq] at ha
          exact hQs n hQn a ha c hc
        · exact hQp a (List.mem_cons_of_mem _ ha) c hc
      · exact hQs

/-- Marking from every root in turn: the same outcome, with all roots covered. -/
theorem markRoots_spec (hB : Blocks P m heapPtr bs) (refs : List ℕ) (m' : Mem)
    (hm : MarksAre bs m m' L) (hL : ∀ b ∈ L, b ∈ bs)
    (hf : Frontier (blockOf (stopOf P m) bs) (heldRefs P m) L []) :
    ∃ m'' L', markRoots P (bs.map (· + HEADER_BYTES)) m' refs = .ok m'' ∧
      MarkResult P m bs L refs m'' L' := by
  induction refs generalizing m' L with
  | nil => exact ⟨m', L, rfl, hm, hL, fun b hb => hb, hf, by simp, fun Q hQ _ _ => hQ⟩
  | cons ref refs ih =>
    obtain ⟨m1, L1, hok1, h1⟩ := markFrom_spec hB m' [ref] hm hL (hf.push ref)
    obtain ⟨m2, L2, hok2, h2⟩ := ih m1 h1.marks h1.inside h1.frontier
    refine ⟨m2, L2, by rw [markRoots, hok1]; exact hok2, h2.marks, h2.inside,
      fun b hb => h2.grows b (h1.grows b hb), h2.frontier, ?_, ?_⟩
    · intro a ha c hc
      rcases List.mem_cons.mp ha with rfl | ha
      · exact h2.grows c (h1.covers a List.mem_cons_self c hc)
      · exact h2.covers a ha c hc
    · intro Q hQL hQp hQs
      refine h2.sound Q (h1.sound Q hQL ?_ hQs) ?_ hQs
      · intro a ha c hc
        rw [List.mem_singleton] at ha
        subst ha
        exact hQp a List.mem_cons_self c hc
      · intro a ha c hc
        exact hQp a (List.mem_cons_of_mem _ ha) c hc

/-- Marking from the roots marks exactly the reachable blocks. -/
theorem mark_reachable (hB : Blocks P m heapPtr bs) (hu : ∀ b ∈ bs, isMarked m b = false)
    (roots : List ℕ) :
    ∃ m' L, markRoots P (bs.map (· + HEADER_BYTES)) m roots = .ok m' ∧ MarksAre bs m m' L ∧
      ∀ b, b ∈ L ↔ Reachable P m bs roots b := by
  obtain ⟨m', L, hok, h⟩ := markRoots_spec hB roots m (.init hu) (by simp) .nil
  refine ⟨m', L, hok, h.marks, fun b => ⟨?_, ?_⟩⟩
  · apply h.sound (Reachable P m bs roots)
    · simp
    · exact fun a ha c hc => .root ha hc
    · exact fun b hb a ha c hc => .step hb ha hc
  · exact fun hr => h.frontier.complete h.covers hr

end QuinLang
