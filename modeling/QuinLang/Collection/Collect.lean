import QuinLang.Collection.Sliding

/-! One collection, end to end. `collect_spec` says what it does to any tiled heap;
with every reference null or inside a payload, that is the correctness of the
sliding collector. -/

namespace QuinLang

open ByteMem Tiling

variable {W : Type} {P : CompiledProgram} {s s' : VM W} {bs live : List ℕ}

/-- A heap between collections: tiled by well-formed blocks, no mark bit set. Every
byte a collection touches is then inside the heap. -/
structure HeapTiled (P : CompiledProgram) (s : VM W) (bs : List ℕ) : Prop where
  fits : s.heapPtr ≤ s.heapSize
  blocks : Blocks P s.heap s.heapPtr bs
  unmarked : ∀ b ∈ bs, isMarked s.heap b = false

/-- The stack maps of a program name no slot twice. -/
def StackMapsOk (P : CompiledProgram) : Prop := ∀ fn ∈ P.functions, fn.refSlots.Nodup

/-- Where a collection that keeps `live` sends a word. -/
def forwarded (P : CompiledProgram) (s : VM W) (bs live : List ℕ) : ℕ → ℕ :=
  relocate (stopOf P s.heap) bs live (destOf P s.heap live)

/-- The effect of a collection that keeps the blocks `live`. -/
structure Collected (P : CompiledProgram) (s s' : VM W) (bs live : List ℕ) : Prop where
  sublist : live.Sublist bs
  mem_live : ∀ b, b ∈ live ↔ b ∈ bs ∧ Reachable P s.heap bs (s.roots P) b
  tiled : HeapTiled P s' (live.map (destOf P s.heap live))
  heapPtr : s'.heapPtr = packEnd (blockBytes P s.heap) HEAP_START live
  kind : ∀ b ∈ live, kind s'.heap (destOf P s.heap live b) = kind s.heap b
  detail : ∀ b ∈ live, detail s'.heap (destOf P s.heap live b) = detail s.heap b
  refWord : ∀ b ∈ live, ∀ a ∈ refWords P s.heap (b + HEADER_BYTES),
    readWord s'.heap (destOf P s.heap live b + (a - b)) = forwarded P s bs live (readWord s.heap a)
  byte : ∀ b ∈ live, ∀ i, HEADER_BYTES ≤ i → i < blockBytes P s.heap b →
    (∀ a ∈ refWords P s.heap (b + HEADER_BYTES), b + i ≠ a ∧ b + i ≠ a + 1) →
    s'.heap (destOf P s.heap live b + i) = s.heap (b + i)
  wiped : ∀ x, s'.heapPtr ≤ x → x < s.heapPtr → s'.heap x = 0
  outside : ∀ x, x < HEAP_START ∨ s.heapPtr ≤ x → s'.heap x = s.heap x
  locals : s'.locals = mapSlots (forwarded P s bs live) (refSlotsOf P s.currentFn) s.locals
  callStack : s'.callStack = s.callStack.map (Frame.mapRef P (forwarded P s bs live))
  stack : s'.stack = s.stack.map (Entry.mapRef (forwarded P s bs live))
  literals : s'.literals = s.literals.map (forwarded P s bs live)
  variants : s'.variants = s.variants.map (forwarded P s bs live)
  rest : s'.pc = s.pc ∧ s'.currentFn = s.currentFn ∧ s'.frameBase = s.frameBase ∧
    s'.heapSize = s.heapSize ∧ s'.fileError = s.fileError ∧ s'.args = s.args ∧ s'.io = s.io

theorem blockBytes_ge {P : CompiledProgram} {m : Mem} {hdr : ℕ} : HEADER_BYTES ≤ blockBytes P m hdr :=
  Nat.le_add_right _ _

theorem SameHeaders.blockBytes {m m' : Mem} (h : SameHeaders bs m m') {b : ℕ} (hb : b ∈ bs) :
    blockBytes P m' b = blockBytes P m b := by
  rw [QuinLang.blockBytes, QuinLang.blockBytes, h.payloadBytes hb]

theorem pack_congr {size size' : ℕ → ℕ} {base : ℕ} {xs : List ℕ} (h : ∀ b ∈ xs, size' b = size b) :
    pack size' base xs = pack size base xs := by
  induction xs generalizing base with
  | nil => rfl
  | cons x xs ih =>
    rw [pack, pack, h x List.mem_cons_self, ih fun b hb => h b (List.mem_cons_of_mem _ hb)]

theorem packEnd_congr {size size' : ℕ → ℕ} {base : ℕ} {xs : List ℕ} (h : ∀ b ∈ xs, size' b = size b) :
    packEnd size' base xs = packEnd size base xs := by
  rw [packEnd, packEnd, List.map_congr_left h]

theorem kind_lt (m : Mem) (hdr : ℕ) : kind m hdr < MARK_BIT := Nat.mod_lt _ (by norm_num [MARK_BIT])

/-- Every collection of a tiled heap succeeds, keeping exactly the reachable blocks. -/
theorem collect_spec (hP : StackMapsOk P) (h : HeapTiled P s bs) :
    ∃ s' live, s.collect P = .ok s' ∧ Collected P s s' bs live := by
  have hB := h.blocks
  obtain ⟨m1, L, hmark, hM, hLr⟩ := mark_reachable hB h.unmarked (s.roots P)
  set live := bs.filter (isMarked m1) with hlive
  have hmem : ∀ b, b ∈ live ↔ b ∈ bs ∧ Reachable P s.heap bs (s.roots P) b := by
    intro b
    rw [hlive, List.mem_filter]
    constructor
    · rintro ⟨hb, hmk⟩
      rw [hM.marked b hb, decide_eq_true_eq] at hmk
      exact ⟨hb, (hLr b).mp hmk⟩
    · rintro ⟨hb, hr⟩
      rw [hM.marked b hb, decide_eq_true_eq]
      exact ⟨hb, (hLr b).mpr hr⟩
  have hsub : live.Sublist bs := List.filter_sublist
  have hlb : ∀ b ∈ live, b ∈ bs := fun b hb => hsub.subset hb
  have hsort : live.Pairwise (· < ·) := hB.tiles.sorted.sublist hsub
  have hnd : live.Nodup := hsort.imp fun h => by omega
  have hB1 : Blocks P m1 s.heapPtr bs := hB.congr hM.headers
  have hsize1 : ∀ b ∈ live, blockBytes P m1 b = blockBytes P s.heap b :=
    fun b hb => hM.headers.blockBytes (hlb b hb)
  set dest := destOf P s.heap live with hdest
  have hpack1 : pack (blockBytes P m1) HEAP_START live = pack (blockBytes P s.heap) HEAP_START live :=
    pack_congr hsize1
  have hplan : planFrom P m1 s.heapPtr HEAP_START HEAP_START = .ok (forwardOf P s.heap live) := by
    rw [planFrom_eq hB1.tiles hB1.shape, ← hlive, hpack1]
    rfl
  have hbs : ∀ b ∈ live, b + blockBytes P s.heap b = stopOf P s.heap b := fun _ _ => stopOf_eq.symm
  have hdle : ∀ b ∈ live, dest b ≤ b := fun b hb =>
    pack_le hB.tiles hsub hbs le_rfl (mem_pack_packTo hnd hb)
  set g := forwarded P s bs live with hg
  have hgle : ∀ r, g r ≤ r := relocate_le hdle
  have hmoved : ∀ m', SameHeaders bs m1 m' → ∀ r,
      moved P m' (bs.map (· + HEADER_BYTES)) (forwardOf P s.heap live) r = .ok (g r) := by
    intro m' hm' r
    exact hB.moved_eq (hM.headers.trans hm') hnd r
  have hmv1 : moved P m1 (bs.map (· + HEADER_BYTES)) (forwardOf P s.heap live) = fun r => .ok (g r) :=
    funext fun r => hmoved m1 .refl r
  obtain ⟨m2, hup, hW⟩ := updateBlocks_eq hgle hB1 (fun b hb => hb) hB1.tiles
    fun m' hm' => hmoved m' hm'.sameHeaders
  have hA2 : HeadersAgree bs m1 m2 := hB1.headersAgree_of_wordsMapped hW fun a ha => by
    obtain ⟨b, hb, -, h1, h2⟩ := hB1.mem_liveRefWords (fun b hb => hb) ha
    exact ⟨b, hb, h1, h2⟩
  have hS2 : SameHeaders bs s.heap m2 := hM.headers.trans hA2.sameHeaders
  have hB2 : Blocks P m2 s.heapPtr bs := hB.congr hS2
  have hfilter2 : bs.filter (isMarked m2) = live := by
    rw [hlive, List.filter_congr fun b hb => hA2.isMarked hb]
  have hsize2 : ∀ b ∈ live, blockBytes P m2 b = blockBytes P s.heap b :=
    fun b hb => hS2.blockBytes (hlb b hb)
  have hpack2 : pack (blockBytes P m2) HEAP_START live = pack (blockBytes P s.heap) HEAP_START live :=
    pack_congr hsize2
  have hfw : ∀ b d, (b, d) ∈ pack (blockBytes P m2) HEAP_START (bs.filter (isMarked m2)) →
      (forwardOf P s.heap live).lookup (b + HEADER_BYTES) = some (d + HEADER_BYTES) := by
    intro b d hbd
    rw [hfilter2, hpack2] at hbd
    have hb : b ∈ live := by
      have := List.mem_map_of_mem (f := Prod.fst) hbd
      rwa [pack_map_fst] at this
    rw [forwardOf_lookup hnd hb, destOf, packTo_of_mem hnd hbd]
  obtain ⟨m3, stats3, hsl, hlow3, hhigh3, hslid⟩ := slideBlocks_eq
    { s.stats with collections := s.stats.collections + 1 } hB2.tiles hB2.shape le_rfl (.refl _ _ _) hfw
  rw [hfilter2] at hsl hslid
  set top := packEnd (blockBytes P s.heap) HEAP_START live with htop
  have htop2 : packEnd (blockBytes P m2) HEAP_START live = top := packEnd_congr hsize2
  rw [htop2] at hsl
  have htople : top ≤ s.heapPtr := packEnd_le hB.tiles hsub hbs le_rfl
  set m4 := if top < s.heapPtr then wipe m3 top s.heapPtr else m3 with hm4
  have hm4low : ∀ x, x < top → m4 x = m3 x := by
    intro x hx
    rw [hm4]
    split_ifs
    · exact wipe_frame m3 (Or.inl hx)
    · rfl
  have hdb : ∀ b ∈ live, (b, dest b) ∈ pack (blockBytes P s.heap) HEAP_START live :=
    fun b hb => mem_pack_packTo hnd hb
  have hslid4 : ∀ b ∈ live, SlidTo P m2 m4 b (dest b) := by
    intro b hb
    have hbd := hdb b hb
    have hbound := pack_bounds hbd
    rw [← hpack2] at hbd
    refine (hslid b (dest b) hbd).of_agree ?_ blockBytes_ge
    intro x hl hr
    rw [hsize2 b hb] at hr
    exact (hm4low x (by omega)).symm
  have hkind4 : ∀ b ∈ live, readWord m4 (dest b) = kind s.heap b := by
    intro b hb
    rw [(hslid4 b hb).header, (hS2 b (hlb b hb)).1]
  have hmod : ∀ b, kind s.heap b % MARK_BIT = kind s.heap b := fun b => Nat.mod_eq_of_lt (kind_lt _ _)
  have hk4 : ∀ b ∈ live, kind m4 (dest b) = kind s.heap b := by
    intro b hb
    rw [kind, hkind4 b hb, hmod]
  have hbytes4 : ∀ b ∈ live, ∀ i, 2 ≤ i → i < blockBytes P s.heap b → m4 (dest b + i) = m2 (b + i) := by
    intro b hb i h2 hi
    exact (hslid4 b hb).bytes i h2 (by rw [hsize2 b hb]; exact hi)
  have hwords4 : ∀ b ∈ live, ∀ i, 2 ≤ i → i + 2 ≤ blockBytes P s.heap b →
      readWord m4 (dest b + i) = readWord m2 (b + i) := by
    intro b hb i h2 hi
    exact readWord_congr (hbytes4 b hb i h2 (by omega)) (hbytes4 b hb (i + 1) (by omega) (by omega))
  have hd4 : ∀ b ∈ live, detail m4 (dest b) = detail s.heap b := by
    intro b hb
    have := @blockBytes_ge P s.heap b
    simp only [HEADER_BYTES] at this
    rw [detail, hwords4 b hb 2 le_rfl (by omega), ← (hS2 b (hlb b hb)).2, detail]
  refine ⟨{ s with
      stats := stats3, heap := m4, heapPtr := top
      locals := mapSlots g (refSlotsOf P s.currentFn) s.locals
      callStack := s.callStack.map (Frame.mapRef P g)
      stack := s.stack.map (Entry.mapRef g)
      literals := s.literals.map g
      variants := s.variants.map g }, live, ?_, ?_⟩
  · -- the passes in sequence
    have hstarts : s.objectStarts P = .ok (bs.map (· + HEADER_BYTES)) := by
      unfold VM.objectStarts VM.blocks
      rw [hB.blocksFrom]
      rfl
    have hstarts' : VM.objectStarts P { s with
        stats := { s.stats with collections := s.stats.collections + 1 } } =
        .ok (bs.map (· + HEADER_BYTES)) := hstarts
    unfold VM.collect
    simp only [hstarts', bind, Except.bind]
    have hroots : VM.roots P { s with
        stats := { s.stats with collections := s.stats.collections + 1 } } = s.roots P := rfl
    simp only [hroots, hmark, VM.planCompaction, hplan, VM.updateReferences, hmv1,
      updateFrame_eq g hP, updateFrames_eq g hP, updateStack_eq, updateTable_eq, hup, VM.slide,
      VM.blocks, hB2.blocksFrom, hsl, bind, Except.bind, pure, Except.pure]
    rfl
  · refine ⟨hsub, hmem, ⟨htople.trans h.fits, ⟨?_, ?_⟩, ?_⟩, rfl, hk4, hd4, ?_, ?_, ?_, ?_, rfl, rfl, rfl, rfl, rfl,
      rfl, rfl, rfl, rfl, rfl, rfl, rfl⟩
    · -- the survivors tile what is left
      have hts : Tiles (stopOf P m4) HEAP_START _ top := pack_tiles (fun b _ => lt_of_lt_of_le (by norm_num [HEADER_BYTES]) blockBytes_ge) (by
          intro b d hbd
          have hb : b ∈ live := by
            have := List.mem_map_of_mem (f := Prod.fst) hbd
            rwa [pack_map_fst] at this
          have hdd : d = dest b := (packTo_of_mem hnd hbd).symm
          subst hdd
          rw [stopOf, (payloadSize_congr (hk4 b hb) (hd4 b hb)).2, blockBytes, Nat.add_assoc])
      rwa [pack_eq_map hnd, List.map_map] at hts
    · intro d hd
      obtain ⟨b, hb, rfl⟩ := List.mem_map.mp hd
      exact (hB.shape b (hlb b hb)).congr (hk4 b hb) (hd4 b hb)
    · intro d hd
      obtain ⟨b, hb, rfl⟩ := List.mem_map.mp hd
      have := kind_lt s.heap b
      show isMarked m4 (dest b) = false
      simp only [isMarked, hkind4 b hb, decide_eq_false_iff_not]
      omega
    · intro b hb a ha
      have hbounds := (hB.shape b (hlb b hb)).refWords_bounds ha
      have hstop : stopOf P s.heap b = b + blockBytes P s.heap b := stopOf_eq
      simp only [HEADER_BYTES] at hbounds
      show readWord m4 (dest b + (a - b)) = _
      rw [hwords4 b hb (a - b) (by omega) (by omega), show b + (a - b) = a by omega]
      have hain : a ∈ liveRefWords P m1 bs := by
        refine List.mem_flatMap.mpr ⟨b, hb, ?_⟩
        rw [refWords_congr (hM.headers b (hlb b hb)).1 (hM.headers b (hlb b hb)).2]
        exact ha
      rw [hW.word a hain, hM.readWord hB (hlb b hb) hbounds.1 hbounds.2.1]
    · intro b hb i h4 hi hoff
      simp only [HEADER_BYTES] at h4
      have hstop : stopOf P s.heap b = b + blockBytes P s.heap b := stopOf_eq
      show m4 (dest b + i) = s.heap (b + i)
      rw [hbytes4 b hb i (by omega) hi, hW.frame, hM.frame]
      · intro c hc heq
        have := hB.payload_off_headers (hlb b hb) hc (x := b + i) (by simp only [HEADER_BYTES]; omega)
          (by omega)
        simp only [HEADER_BYTES] at this
        omega
      · intro a ha
        obtain ⟨c, hc, hac, h1, h2⟩ := hB1.mem_liveRefWords (fun b hb => hb) ha
        rw [hM.headers.stopOf hc] at h2
        by_cases hbc : c = b
        · subst hbc
          rw [refWords_congr (hM.headers c hc).1 (hM.headers c hc).2] at hac
          exact hoff a hac
        · -- another block's words are elsewhere
          by_contra hcon
          apply hbc
          simp only [HEADER_BYTES] at h1
          exact hB.tiles.unique hc (hlb b hb) (x := b + i) (by omega) (by omega)
    · intro x hl hr
      have hlt : top < s.heapPtr := by
        simp only at hl
        omega
      simp only [hm4, if_pos hlt]
      exact wipe_at m3 hl hr
    · intro x hx
      have hx4 : m4 x = m3 x := by
        rw [hm4]
        split_ifs with hlt
        · have : HEAP_START ≤ top := le_packEnd
          exact wipe_frame m3 (by omega)
        · rfl
      have hx3 : m3 x = m2 x := by
        rcases hx with hx | hx
        · exact (hlow3 x (Nat.zero_le _) hx).symm
        · exact hhigh3 x hx
      have hoff : ∀ b ∈ bs, ∀ y, b ≤ y → y < stopOf P s.heap b → x ≠ y := by
        intro b hb y h1 h2
        have := hB.bounds hb
        omega
      simp only
      rw [hx4, hx3, hW.frame, hM.frame]
      · intro b hb
        exact hoff b hb (b + 1) (by omega) (by have := hB.bounds hb; omega)
      · intro a ha
        obtain ⟨c, hc, -, h1, h2⟩ := hB1.mem_liveRefWords (fun b hb => hb) ha
        rw [hM.headers.stopOf hc] at h2
        simp only [HEADER_BYTES] at h1
        exact ⟨hoff c hc a (by omega) (by omega), hoff c hc (a + 1) (by omega) (by omega)⟩

end QuinLang
