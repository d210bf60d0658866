import QuinLang.Collection.Correctness
import QuinLang.Collection.HeapRuns

/-! What a collection enters in the statistics. -/

namespace QuinLang

open ByteMem Tiling

variable {W : Type} {P : CompiledProgram} {m m' : Mem} {heapPtr : ℕ} {s s' : VM W} {bs cs live : List ℕ}

/-- The statistics once the blocks `cs` have been slid down to `top`. -/
def HeapStats.slid (P : CompiledProgram) (m : Mem) (top : ℕ) (cs : List ℕ) (stats : HeapStats) : HeapStats :=
  let dead := cs.filter fun b => !isMarked m b
  let placed := pack (blockBytes P m) top (cs.filter (isMarked m))
  { stats with
    objectsFreed := stats.objectsFreed + dead.length
    bytesFreed := stats.bytesFreed + (dead.map (blockBytes P m)).sum
    objectsMoved := stats.objectsMoved + (placed.filter fun p => p.2 ≠ p.1).length }

theorem HeapStats.slid_nil {top : ℕ} {stats : HeapStats} : stats.slid P m top [] = stats := rfl

theorem HeapStats.slid_survivor {a top : ℕ} {stats : HeapStats} (h : isMarked m a = true) :
    stats.slid P m top (a :: cs) =
      (if top ≠ a then { stats with objectsMoved := stats.objectsMoved + 1 } else stats).slid P m
        (top + blockBytes P m a) cs := by
  by_cases htop : top = a
  · simp [slid, h, pack, htop]
  · simp [slid, h, pack, htop]
    omega

theorem HeapStats.slid_dead {a top : ℕ} {stats : HeapStats} (h : isMarked m a = false) :
    stats.slid P m top (a :: cs) =
      HeapStats.slid P m top cs { stats with
        objectsFreed := stats.objectsFreed + 1, bytesFreed := stats.bytesFreed + blockBytes P m a } := by
  simp [slid, h]
  omega

/-- Sliding counts every block it passes over and every block it moves. -/
theorem slideBlocks_stats {forward : List (ℕ × ℕ)} {addr top top' : ℕ} {mc : Mem} {stats stats' : HeapStats}
    (ht : Tiles (stopOf P m) addr cs heapPtr) (hs : ∀ b ∈ cs, BlockShape P m b) (htop : top ≤ addr)
    (hag : Agree m mc addr heapPtr)
    (hfw : ∀ b d, (b, d) ∈ pack (blockBytes P m) top (cs.filter (isMarked m)) →
      forward.lookup (b + HEADER_BYTES) = some (d + HEADER_BYTES))
    (hok : slideBlocks P forward cs mc top stats = .ok (m', top', stats')) : stats' = stats.slid P m top cs := by
  induction cs generalizing addr top mc stats with
  | nil =>
    cases hok
    exact HeapStats.slid_nil.symm
  | cons a cs ih =>
    cases ht with
    | cons hlt ht =>
    have hle := ht.le
    have hsh := hs a List.mem_cons_self
    have hs' := fun b hb => hs b (List.mem_cons_of_mem _ hb)
    have hpos := hsh.payloadBytes_pos
    have hstop : stopOf P m a = a + blockBytes P m a := stopOf_eq
    have hbb : blockBytes P m a = HEADER_BYTES + payloadBytes P m a := rfl
    simp only [HEADER_BYTES, MIN_PAYLOAD] at hpos hbb
    have hH : HeadersAgree [a] m mc := by
      intro b hb
      rw [List.mem_singleton.mp hb]
      exact hag.mono le_rfl (by simp only [HEADER_BYTES]; omega)
    have hin : a ∈ [a] := List.mem_singleton_self a
    have hend : blockEnd P mc a = .ok (stopOf P m a) := by
      rw [(hsh.congr (hH.sameHeaders a hin).1 (hH.sameHeaders a hin).2).blockEnd_eq,
        hH.sameHeaders.stopOf hin]
    have hmk : isMarked mc a = isMarked m a := hH.isMarked hin
    rw [slideBlocks] at hok
    cases hma : isMarked m a with
    | true =>
      -- a survivor: what is still to be walked lies above everything written
      rw [List.filter_cons_of_pos hma] at hfw
      have hlook := hfw a top List.mem_cons_self
      rw [HeapStats.slid_survivor hma]
      simp only [hend, hmk, hma, if_true, hlook, Nat.add_sub_cancel, stopOf_sub] at hok
      refine ih ht hs' (by omega) ?_ (fun b d hbd => hfw b d (List.mem_cons_of_mem _ hbd)) hok
      intro x hl hr
      rw [hag x (by omega) hr, setMark_frame (by omega)]
      split_ifs with hne
      · exact (move_frame mc (by omega)).symm
      · rfl
    | false =>
      rw [List.filter_cons_of_neg (by simp [hma])] at hfw
      rw [HeapStats.slid_dead hma]
      simp only [hend, hmk, hma, stopOf_sub] at hok
      exact ih ht hs' (by omega) (hag.mono (by omega) le_rfl) hfw hok

/-- What sliding starts from: the headers of the old heap, the reachable blocks marked. -/
theorem collect_slides (hP : StackMapsOk P) (h : HeapTiled P s bs) (hc : Collected P s s' bs live)
    (hok : s.collect P = .ok s') : ∃ m₂ m₃, SameHeaders bs s.heap m₂ ∧ bs.filter (isMarked m₂) = live ∧
      slideBlocks P (forwardOf P s.heap live) bs m₂ HEAP_START
        { s.stats with collections := s.stats.collections + 1 } = .ok (m₃, s'.heapPtr, s'.stats) := by
  have hB := h.blocks
  obtain ⟨m₁, L, hmark, hM, hLr⟩ := mark_reachable hB h.unmarked (s.roots P)
  have hlive₁ : bs.filter (isMarked m₁) = live := by
    have hs := hB.tiles.sorted
    have hperm : (bs.filter (isMarked m₁)).Perm live := by
      refine (List.perm_ext_iff_of_nodup (hB.tiles.nodup.filter _) (hB.tiles.nodup.sublist hc.sublist)).mpr fun b => ?_
      rw [List.mem_filter, hc.mem_live b]
      refine and_congr_right fun hb => ?_
      rw [hM.marked b hb, decide_eq_true_eq, hLr]
    exact hperm.eq_of_pairwise (fun a b _ _ h1 h2 => by omega) (hs.sublist List.filter_sublist) (hs.sublist hc.sublist)
  have hsub := hc.sublist
  have hnd : live.Nodup := hB.tiles.nodup.sublist hsub
  have hB₁ : Blocks P m₁ s.heapPtr bs := hB.congr hM.headers
  have hpack₁ : pack (blockBytes P m₁) HEAP_START live = pack (blockBytes P s.heap) HEAP_START live :=
    pack_congr fun b hb => hM.headers.blockBytes (hsub.subset hb)
  have hplan : planFrom P m₁ s.heapPtr HEAP_START HEAP_START = .ok (forwardOf P s.heap live) := by
    rw [planFrom_eq hB₁.tiles hB₁.shape, hlive₁, hpack₁]
    rfl
  have hdle : ∀ b ∈ live, destOf P s.heap live b ≤ b := fun b hb =>
    pack_le hB.tiles hsub (fun _ _ => stopOf_eq.symm) le_rfl (mem_pack_packTo hnd hb)
  set g := forwarded P s bs live with hg
  have hmoved : ∀ m', SameHeaders bs m₁ m' → ∀ r,
      moved P m' (bs.map (· + HEADER_BYTES)) (forwardOf P s.heap live) r = .ok (g r) := by
    intro m' hm' r
    exact hB.moved_eq (hM.headers.trans hm') hnd r
  have hmv₁ : moved P m₁ (bs.map (· + HEADER_BYTES)) (forwardOf P s.heap live) = fun r => .ok (g r) :=
    funext fun r => hmoved m₁ .refl r
  obtain ⟨m₂, hup, hW⟩ := updateBlocks_eq (relocate_le hdle) hB₁ (fun b hb => hb) hB₁.tiles
    fun m' hm' => hmoved m' hm'.sameHeaders
  have hA₂ : HeadersAgree bs m₁ m₂ := hB₁.headersAgree_of_wordsMapped hW fun a ha => by
    obtain ⟨b, hb, -, h1, h2⟩ := hB₁.mem_liveRefWords (fun b hb => hb) ha
    exact ⟨b, hb, h1, h2⟩
  have hS₂ : SameHeaders bs s.heap m₂ := hM.headers.trans hA₂.sameHeaders
  have hB₂ : Blocks P m₂ s.heapPtr bs := hB.congr hS₂
  have hlive₂ : bs.filter (isMarked m₂) = live := by
    rw [← hlive₁, List.filter_congr fun b hb => hA₂.isMarked hb]
  have hstarts : VM.objectStarts P { s with
      stats := { s.stats with collections := s.stats.collections + 1 } } = .ok (bs.map (· + HEADER_BYTES)) := by
    unfold VM.objectStarts VM.blocks
    rw [hB.blocksFrom]
    rfl
  have hroots : VM.roots P { s with stats := { s.stats with collections := s.stats.collections + 1 } } = s.roots P := rfl
  unfold VM.collect at hok
  simp only [hstarts, hroots, hmark, VM.planCompaction, hplan, VM.updateReferences, hmv₁,
    updateFrame_eq g hP, updateFrames_eq g hP, updateStack_eq, updateTable_eq, hup, VM.slide,
    VM.blocks, hB₂.blocksFrom, bind, Except.bind, pure, Except.pure] at hok
  split at hok
  · cases hok
  · rename_i r hsl
    cases hok
    exact ⟨m₂, r.1, hS₂, hlive₂, hsl⟩

/-- The books after a collection that keeps the blocks `live`. -/
structure Entered (P : CompiledProgram) (s s' : VM W) (bs live : List ℕ) : Prop where
  collections : s'.stats.collections = s.stats.collections + 1
  allocated : s'.stats.objectsAllocated = s.stats.objectsAllocated
  freed : s'.stats.objectsFreed + live.length = s.stats.objectsFreed + bs.length
  bytes : s'.stats.bytesFreed + s'.heapPtr = s.stats.bytesFreed + s.heapPtr
  moved : s'.stats.objectsMoved = s.stats.objectsMoved + (live.filter fun b => destOf P s.heap live b ≠ b).length

theorem Collected.entered (hP : StackMapsOk P) (h : HeapTiled P s bs) (hc : Collected P s s' bs live)
    (hok : s.collect P = .ok s') : Entered P s s' bs live := by
  obtain ⟨m₂, m₃, hS, hlive, hsl⟩ := collect_slides hP h hc hok
  have hB := h.blocks
  have hnd : live.Nodup := hB.tiles.nodup.sublist hc.sublist
  have hB₂ := hB.congr hS
  have hpack : pack (blockBytes P m₂) HEAP_START live = live.map fun b => (b, destOf P s.heap live b) := by
    rw [pack_congr fun b hb => hS.blockBytes (hc.sublist.subset hb), pack_eq_map hnd]
    rfl
  have hst := slideBlocks_stats hB₂.tiles hB₂.shape le_rfl (.refl _ _ _) (fun b d hbd => by
    rw [hlive, hpack] at hbd
    obtain ⟨c, hc', heq⟩ := List.mem_map.mp hbd
    obtain ⟨rfl, rfl⟩ := Prod.mk.inj heq
    exact forwardOf_lookup hnd hc') hsl
  -- the dead and the survivors together are the whole heap
  have hsplit := List.filter_append_perm (isMarked m₂) bs
  rw [hlive] at hsplit
  have hcount := hsplit.length_eq
  have hbytes := (hsplit.map (blockBytes P m₂)).sum_eq
  rw [List.length_append] at hcount
  rw [List.map_append, List.sum_append] at hbytes
  have htop : HEAP_START + (bs.map (blockBytes P m₂)).sum = s.heapPtr := hB₂.tiles.packEnd_eq fun b _ => stopOf_eq
  have hlow : s'.heapPtr = HEAP_START + (live.map (blockBytes P m₂)).sum := by
    rw [hc.heapPtr, packEnd, List.map_congr_left fun b hb => hS.blockBytes (hc.sublist.subset hb)]
  refine ⟨by rw [hst]; rfl, by rw [hst]; rfl, ?_, ?_, ?_⟩
  · rw [hst]
    simp only [HeapStats.slid]
    omega
  · rw [hst]
    simp only [HeapStats.slid]
    omega
  · rw [hst]
    simp only [HeapStats.slid]
    rw [hlive, hpack, List.filter_map, List.length_map]
    rfl

/-- A collection enters what it did: one collection, every unreachable block freed, the
bytes the heap shrank by, and the survivors that changed places. -/
theorem collect_books (hP : StackMapsOk P) (h : HeapTiled P s bs) :
    ∃ s' live, s.collect P = .ok s' ∧ live.Sublist bs ∧
      (∀ b, b ∈ live ↔ b ∈ bs ∧ Reachable P s.heap bs (s.roots P) b) ∧ Entered P s s' bs live := by
  obtain ⟨s', live, hok, hc⟩ := collect_spec hP h
  exact ⟨s', live, hok, hc.sublist, hc.mem_live, hc.entered hP h hok⟩

/-- The string below the array is freed, and the array takes its place. -/
theorem selfLoop_booked : ∃ s', selfLoop.collect emptyProgram = .ok s' ∧ s'.stats.objectsFreed = 1 ∧
    s'.stats.objectsMoved = 1 ∧ ∃ live : List ℕ, live.Sublist [2, 8] ∧
      (∀ b, b ∈ live ↔ b ∈ [2, 8] ∧ Reachable emptyProgram selfLoop.heap [2, 8] (selfLoop.roots emptyProgram) b) ∧
      Entered emptyProgram selfLoop s' [2, 8] live := by
  obtain ⟨s', live, hok, hsub, hlive, hbooks⟩ := collect_books (P := emptyProgram) (List.forall_mem_nil _) selfLoop_tiled
  have hblock : blockOf (stopOf emptyProgram selfLoop.heap) [2, 8] 12 = some 8 := by decide
  have hmarked : Worklist.Frontier (blockOf (stopOf emptyProgram selfLoop.heap) [2, 8]) (heldRefs emptyProgram selfLoop.heap) [8] [] := by
    intro b hb a ha c hc
    obtain rfl := List.mem_singleton.mp hb
    obtain rfl : a = 12 := by simpa [show heldRefs emptyProgram selfLoop.heap 8 = [12] by decide] using ha
    obtain rfl : 8 = c := Option.some.inj (hblock.symm.trans hc)
    exact .inl hb
  have hin (b : ℕ) : b ∈ live ↔ b = 8 := by
    refine (hlive b).trans ⟨fun ⟨_, hreach⟩ => List.mem_singleton.mp (hmarked.complete ?_ hreach), ?_⟩
    · intro a ha c hc
      obtain rfl : a = 12 := List.mem_singleton.mp ha
      obtain rfl : 8 = c := Option.some.inj (hblock.symm.trans hc)
      exact List.mem_singleton.mpr rfl
    · rintro rfl
      exact ⟨by decide, .root (List.mem_singleton.mpr rfl) hblock⟩
  obtain rfl : live = [8] := by
    have hnodup : live.Nodup := List.Nodup.sublist hsub (by decide)
    exact List.perm_singleton.mp ((List.perm_ext_iff_of_nodup hnodup (List.nodup_singleton 8)).mpr fun b => by rw [hin, List.mem_singleton])
  exact ⟨s', hok, Nat.add_right_cancel (hbooks.freed : _ + 1 = 1 + 1), hbooks.moved, [8], hsub, hlive, hbooks⟩

/-- A heap whose statistics account for it: what was allocated and not freed is what the
walk finds, and everything allocated took its room. -/
structure Booked (P : CompiledProgram) (s : VM W) (bs : List ℕ) : Prop where
  tiled : HeapTiled P s bs
  capacity : s.heapSize ≤ 65536
  objects : s.stats.objectsAllocated = s.stats.objectsFreed + bs.length
  bytes : HEAP_START + (HEADER_BYTES + MIN_PAYLOAD) * s.stats.objectsAllocated ≤ s.stats.bytesFreed + s.heapPtr

/-- No counter has gone back. -/
structure HeapStats.Grown (a b : HeapStats) : Prop where
  collections : a.collections ≤ b.collections
  freed : a.objectsFreed ≤ b.objectsFreed
  bytes : a.bytesFreed ≤ b.bytesFreed
  allocated : a.objectsAllocated ≤ b.objectsAllocated
  moved : a.objectsMoved ≤ b.objectsMoved

theorem HeapStats.Grown.refl (a : HeapStats) : a.Grown a := ⟨le_rfl, le_rfl, le_rfl, le_rfl, le_rfl⟩

theorem HeapStats.Grown.trans {a b c : HeapStats} (h : a.Grown b) (h' : b.Grown c) : a.Grown c :=
  ⟨h.collections.trans h'.collections, h.freed.trans h'.freed, h.bytes.trans h'.bytes,
    h.allocated.trans h'.allocated, h.moved.trans h'.moved⟩

/-- If the books balanced before, they do after, and no counter has gone back. -/
def KeepsBooks (P : CompiledProgram) (s s' : VM W) : Prop :=
  ∀ bs, Booked P s bs → (∃ bs', Booked P s' bs') ∧ s.stats.Grown s'.stats

theorem KeepsBooks.trans {s s₁ s₂ : VM W} (h : KeepsBooks P s s₁) (h' : KeepsBooks P s₁ s₂) : KeepsBooks P s s₂ := by
  intro bs hb
  obtain ⟨⟨bs₁, hb₁⟩, hg⟩ := h bs hb
  obtain ⟨hb₂, hg'⟩ := h' bs₁ hb₁
  exact ⟨hb₂, hg.trans hg'⟩

theorem Booked.collect (hP : StackMapsOk P) (h : Booked P s bs) (hc : Collected P s s' bs live)
    (hok : s.collect P = .ok s') : Booked P s' (live.map (destOf P s.heap live)) ∧ s.stats.Grown s'.stats := by
  have he := hc.entered hP h.tiled hok
  have hlen := hc.sublist.length_le
  have hcap : s'.heapSize = s.heapSize := hc.rest.2.2.2.1
  have hdown : s'.heapPtr ≤ s.heapPtr := by
    rw [hc.heapPtr]
    exact packEnd_le h.tiled.blocks.tiles hc.sublist (fun _ _ => stopOf_eq.symm) le_rfl
  obtain ⟨h1, h2, h3, h4, h5⟩ := he
  have ho := h.objects
  have hb := h.bytes
  refine ⟨⟨hc.tiled, by rw [hcap]; exact h.capacity, ?_, ?_⟩, by omega, by omega, by omega, by omega, by omega⟩
  · rw [List.length_map]
    omega
  · rw [h2]
    omega

theorem collect_keepsBooks (hP : StackMapsOk P) (hok : s.collect P = .ok s') : KeepsBooks P s s' := by
  intro bs hb
  obtain ⟨t, live, ht, hc⟩ := collect_spec hP hb.tiled
  rw [hok] at ht
  cases ht
  obtain ⟨h, hg⟩ := hb.collect hP hc hok
  exact ⟨⟨_, h⟩, hg⟩

theorem Request.payload_ge (r : Request) : MIN_PAYLOAD ≤ r.payload P := by
  cases r <;> exact (roundPayload_ge _).1

theorem Booked.settled (hP : TablesOk P) {s₁ : VM W} {bs₁ : List ℕ} (h : Booked P s bs)
    (hset : Settled P s bs s₁ bs₁) : Booked P s₁ bs₁ ∧ s.stats.Grown s₁.stats := by
  rcases hset with ⟨rfl, rfl⟩ | ⟨live, hok, hc, rfl⟩
  · exact ⟨h, .refl _⟩
  · exact h.collect hP.stackMaps hc hok

/-- One block more. -/
theorem Booked.allocated (h : Booked P s bs) {r : Request} {ref : ℕ} (hal : Allocated P r s bs ref s') :
    Booked P s' (bs ++ [s.heapPtr]) ∧ s.stats.Grown s'.stats := by
  have hpay := r.payload_ge (P := P)
  obtain ⟨m, hm⟩ := hal.rest
  have hstats : s'.stats = { s.stats with objectsAllocated := s.stats.objectsAllocated + 1 } := by rw [hm]
  have hcap : s'.heapSize = s.heapSize := by rw [hm]
  have hptr := hal.heapPtr
  rw [hal.ref_eq] at hptr
  refine ⟨⟨hal.tiled, by rw [hcap]; exact h.capacity, ?_, ?_⟩, ?_⟩
  · have := h.objects
    rw [hstats, List.length_append, List.length_singleton]
    simp only
    omega
  · have := h.bytes
    rw [hstats]
    simp only [Nat.mul_succ]
    omega
  · rw [hstats]
    exact ⟨le_rfl, le_rfl, le_rfl, Nat.le_succ _, le_rfl⟩

/-- An allocation, with the collection it may have needed. -/
theorem allocate_keepsBooks (hP : TablesOk P) {r : Request} {ref : ℕ} (hok : s.allocate P r = .ok (ref, s')) :
    KeepsBooks P s s' := by
  intro bs hb
  obtain ⟨s₁, bs₁, hset, hal⟩ := allocate_ok hP hb.tiled hb.capacity hok
  obtain ⟨h₁, hg⟩ := hb.settled hP hset
  obtain ⟨h₂, hg'⟩ := h₁.allocated hal
  exact ⟨⟨_, h₂⟩, hg.trans hg'⟩

/-- Writing payloads leaves the books as they were. -/
theorem Booked.write (h : Booked P s bs) (ha : HeadersAgree bs s.heap s'.heap) (hptr : s'.heapPtr = s.heapPtr)
    (hcap : s'.heapSize = s.heapSize) (hstats : s'.stats = s.stats) : Booked P s' bs := by
  refine ⟨h.tiled.write ha hptr hcap, by rw [hcap]; exact h.capacity, ?_, ?_⟩
  · rw [hstats]
    exact h.objects
  · rw [hstats, hptr]
    exact h.bytes

theorem fresh_booked (args : List String) (w : W) : Booked P (VM.fresh args w) [] :=
  ⟨fresh_tiled args w, by simp [VM.fresh, HEAP_SIZE], rfl, by simp [VM.fresh, HEAP_START]⟩

end QuinLang
