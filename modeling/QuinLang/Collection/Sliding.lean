import QuinLang.Collection.Moving

/-! Rewriting the blocks in place and sliding them down. Rewriting touches only
reference words of marked blocks, so the headers the walk reads are never
disturbed; sliding writes only below the block being read, so every block is
still intact when its turn comes. -/

namespace QuinLang

open ByteMem Tiling

variable {P : CompiledProgram} {m m' : Mem} {heapPtr : ℕ} {bs cs : List ℕ}

/-- Every header byte of the listed blocks is the same, mark bits included. -/
def HeadersAgree (bs : List ℕ) (m m' : Mem) : Prop := ∀ b ∈ bs, Agree m m' b (b + HEADER_BYTES)

theorem HeadersAgree.sameHeaders (h : HeadersAgree bs m m') : SameHeaders bs m m' := by
  intro b hb
  have := h b hb
  unfold kind detail
  rw [← this.readWord le_rfl (by simp [HEADER_BYTES]),
    ← this.readWord (a := b + 2) (by omega) (by simp [HEADER_BYTES])]
  exact ⟨rfl, rfl⟩

theorem HeadersAgree.isMarked (h : HeadersAgree bs m m') {b : ℕ} (hb : b ∈ bs) :
    isMarked m' b = isMarked m b := by
  unfold QuinLang.isMarked
  rw [(h b hb).readWord le_rfl (by simp [HEADER_BYTES])]

theorem HeadersAgree.trans {m'' : Mem} (h : HeadersAgree bs m m') (h' : HeadersAgree bs m' m'') :
    HeadersAgree bs m m'' := fun b hb => (h b hb).trans (h' b hb)

/-- The reference words of the marked blocks of a list. -/
def liveRefWords (P : CompiledProgram) (m : Mem) (bs : List ℕ) : List ℕ :=
  (bs.filter (isMarked m)).flatMap fun b => refWords P m (b + HEADER_BYTES)

theorem Blocks.mem_liveRefWords (hB : Blocks P m heapPtr bs) (hcs : ∀ b ∈ cs, b ∈ bs) {a : ℕ}
    (ha : a ∈ liveRefWords P m cs) :
    ∃ b ∈ cs, a ∈ refWords P m (b + HEADER_BYTES) ∧ b + HEADER_BYTES ≤ a ∧ a + 2 ≤ stopOf P m b := by
  obtain ⟨b, hb, ha⟩ := List.mem_flatMap.mp ha
  have hb := (List.mem_filter.mp hb).1
  have hr := (hB.shape b (hcs b hb)).refWords_bounds ha
  exact ⟨b, hb, ha, hr.1, hr.2.1⟩

/-- Rewriting words inside payloads leaves every header alone. -/
theorem Blocks.headersAgree_of_wordsMapped (hB : Blocks P m heapPtr bs) {g : ℕ → ℕ} {addrs : List ℕ}
    (hw : WordsMapped g addrs m m')
    (hin : ∀ a ∈ addrs, ∃ b ∈ bs, b + HEADER_BYTES ≤ a ∧ a + 2 ≤ stopOf P m b) :
    HeadersAgree bs m m' := by
  intro c hc x hl hr
  refine (hw.frame x ?_).symm
  intro a ha
  obtain ⟨b, hb, h1, h2⟩ := hin a ha
  have h3 := hB.payload_off_headers hb hc h1 (by omega)
  have h4 := hB.payload_off_headers hb hc (x := a + 1) (by omega) (by omega)
  omega

theorem BlockShape.refWords_apart {hdr : ℕ} (h : BlockShape P m hdr) :
    Apart (refWords P m (hdr + HEADER_BYTES)) := by
  refine h.refWords_nodup.imp_of_mem ?_
  intro a b ha hb hne
  have h1 := h.refWords_bounds ha
  have h2 := h.refWords_bounds hb
  rcases Nat.lt_or_gt_of_ne hne with hlt | hgt <;> omega

theorem updateBlocks_eq {starts : List ℕ} {forward : List (ℕ × ℕ)} {g : ℕ → ℕ} (hg : ∀ r, g r ≤ r)
    {addr : ℕ} (hB : Blocks P m heapPtr bs) (hcs : ∀ b ∈ cs, b ∈ bs)
    (ht : Tiles (stopOf P m) addr cs heapPtr)
    (hmv : ∀ m', HeadersAgree bs m m' → ∀ r, moved P m' starts forward r = .ok (g r)) :
    ∃ m', updateBlocks P starts forward heapPtr m addr = .ok m' ∧
      WordsMapped g (liveRefWords P m cs) m m' := by
  induction cs generalizing m addr with
  | nil =>
    cases ht
    rw [updateBlocks, if_neg (by omega)]
    exact ⟨m, rfl, .nil⟩
  | cons a cs ih =>
    cases ht with
    | cons hlt ht =>
    have hle := ht.le
    have ha := hcs a List.mem_cons_self
    have hsh := hB.shape a ha
    obtain ⟨m1, hok1, hw1⟩ : ∃ m1, (if isMarked m a then
          updateWords P starts forward m (refWords P m (a + HEADER_BYTES)) else .ok m) = .ok m1 ∧
        WordsMapped g (liveRefWords P m [a]) m m1 := by
      by_cases hmk : isMarked m a = true
      · rw [if_pos hmk]
        have hl : liveRefWords P m [a] = refWords P m (a + HEADER_BYTES) := by
          simp [liveRefWords, hmk]
        rw [hl]
        refine updateWords_eq hg hsh.refWords_apart m ?_
        intro m' xs hxs hm'
        refine hmv m' (hB.headersAgree_of_wordsMapped hm' ?_)
        intro x hx
        have := hsh.refWords_bounds (hxs x hx)
        exact ⟨a, ha, this.1, this.2.1⟩
      · rw [if_neg hmk]
        have hl : liveRefWords P m [a] = [] := by simp [liveRefWords, hmk]
        rw [hl]
        exact ⟨m, rfl, .nil⟩
    have hH1 : HeadersAgree bs m m1 := hB.headersAgree_of_wordsMapped hw1 fun x hx => by
      obtain ⟨b, hb, -, h1, h2⟩ := hB.mem_liveRefWords
        (fun b hb => hcs b (by simp at hb; simp [hb])) hx
      exact ⟨b, hcs b (by simp at hb; simp [hb]), h1, h2⟩
    have hS1 := hH1.sameHeaders
    have hB1 := hB.congr hS1
    have hcs' : ∀ b ∈ cs, b ∈ bs := fun b hb => hcs b (List.mem_cons_of_mem _ hb)
    obtain ⟨m2, hok2, hw2⟩ := ih hB1 hcs' (ht.congr fun b hb => hS1.stopOf (hcs' b hb))
      fun m' hm' => hmv m' (hH1.trans hm')
    have hl2 : liveRefWords P m1 cs = liveRefWords P m cs := by
      unfold liveRefWords
      rw [List.filter_congr fun b hb => hH1.isMarked (hcs' b hb)]
      refine List.flatMap_congr fun b hb => ?_
      have hb' := hcs' b (List.mem_filter.mp hb).1
      exact refWords_congr (hS1 b hb').1 (hS1 b hb').2
    refine ⟨m2, ?_, ?_⟩
    · have hend : blockEnd P m1 a = .ok (stopOf P m a) := by
        rw [(hB1.shape a ha).blockEnd_eq, hS1.stopOf ha]
      rw [updateBlocks, if_pos (by omega)]
      simp only [hok1]
      split
      · simp_all
      · rename_i stop hstop
        rw [hend] at hstop
        cases hstop
        exact hok2
    · have hsplit : liveRefWords P m (a :: cs) = liveRefWords P m [a] ++ liveRefWords P m cs := by
        unfold liveRefWords
        rw [← List.flatMap_append, ← List.filter_append]
        rfl
      rw [hsplit]
      rw [hl2] at hw2
      refine hw1.append hw2 ?_
      intro x hx y hy
      obtain ⟨b, hb, -, h1, h2⟩ := hB.mem_liveRefWords
        (fun b hb => hcs b (by simp at hb; simp [hb])) hx
      obtain ⟨c, hc, -, h3, h4⟩ := hB.mem_liveRefWords hcs' hy
      rw [List.mem_singleton] at hb
      subst hb
      have := (ht.mem_bounds hc).1
      simp only [HEADER_BYTES] at *
      omega

theorem move_self (m : Mem) (a n : ℕ) : move m a a n = m := by
  funext x
  unfold move
  split_ifs with h
  · congr 1
    omega
  · rfl

/-- What sliding leaves at the new address of a block: its bytes, with the mark
bit of its header cleared. -/
structure SlidTo (P : CompiledProgram) (m m' : Mem) (b d : ℕ) : Prop where
  header : readWord m' d = kind m b
  bytes : ∀ i, 2 ≤ i → i < blockBytes P m b → m' (d + i) = m (b + i)

theorem SlidTo.of_agree {m'' : Mem} {b d : ℕ} (h : SlidTo P m m' b d)
    (ha : Agree m' m'' d (d + blockBytes P m b)) (hpos : HEADER_BYTES ≤ blockBytes P m b) :
    SlidTo P m m'' b d := by
  simp only [HEADER_BYTES] at hpos
  refine ⟨?_, ?_⟩
  · rw [← h.header, ha.readWord le_rfl (by omega)]
  · intro i h2 hi
    rw [← h.bytes i h2 hi, ha (d + i) (by omega) (by omega)]

theorem slideBlocks_eq {forward : List (ℕ × ℕ)} {addr top : ℕ} {mc : Mem} (stats : HeapStats)
    (ht : Tiles (stopOf P m) addr cs heapPtr) (hs : ∀ b ∈ cs, BlockShape P m b) (htop : top ≤ addr)
    (hag : Agree m mc addr heapPtr)
    (hfw : ∀ b d, (b, d) ∈ pack (blockBytes P m) top (cs.filter (isMarked m)) →
      forward.lookup (b + HEADER_BYTES) = some (d + HEADER_BYTES)) :
    ∃ m' stats', slideBlocks P forward cs mc top stats =
        .ok (m', packEnd (blockBytes P m) top (cs.filter (isMarked m)), stats') ∧
      Agree mc m' 0 top ∧ (∀ x, heapPtr ≤ x → m' x = mc x) ∧
      ∀ b d, (b, d) ∈ pack (blockBytes P m) top (cs.filter (isMarked m)) → SlidTo P m m' b d := by
  induction cs generalizing addr top mc stats with
  | nil =>
    cases ht
    exact ⟨mc, stats, rfl, .refl _ _ _, fun _ _ => rfl, by simp [pack]⟩
  | cons a cs ih =>
    cases ht with
    | cons hlt ht =>
    have hle := ht.le
    have hsh := hs a List.mem_cons_self
    have hs' := fun b hb => hs b (List.mem_cons_of_mem _ hb)
    have hpos := hsh.payloadBytes_pos
    have hstop : stopOf P m a = a + blockBytes P m a := stopOf_eq
    have hbb : blockBytes P m a = HEADER_BYTES + payloadBytes P m a := rfl
    simp only [HEADER_BYTES, MIN_PAYLOAD] at hpos hbb
    have hagh : Agree m mc a (a + HEADER_BYTES) := hag.mono le_rfl (by simp only [HEADER_BYTES]; omega)
    have hH : HeadersAgree [a] m mc := by
      intro b hb
      rw [List.mem_singleton] at hb
      subst hb
      exact hagh
    have hin : a ∈ [a] := List.mem_singleton_self a
    have hend : blockEnd P mc a = .ok (stopOf P m a) := by
      rw [(hsh.congr (hH.sameHeaders a hin).1 (hH.sameHeaders a hin).2).blockEnd_eq,
        hH.sameHeaders.stopOf hin]
    have hmk : isMarked mc a = isMarked m a := hH.isMarked hin
    by_cases hma : isMarked m a = true
    · -- a survivor: copied down to `top`, mark cleared
      rw [List.filter_cons_of_pos hma] at hfw ⊢
      have hlook := hfw a top List.mem_cons_self
      set moveTop := move mc top a (blockBytes P m a) with hmoveTop
      set m1 := setMark moveTop top false with hm1
      have hbelow : Agree mc m1 0 top := by
        intro x _ hx
        rw [hm1, setMark_frame (by omega), hmoveTop, move_frame mc (Or.inl hx)]
      have habove : ∀ x, stopOf P m a ≤ x → m1 x = mc x := by
        intro x hx
        rw [hm1, setMark_frame (by omega), hmoveTop, move_frame mc (by omega)]
      have hslid : SlidTo P m m1 a top := by
        refine ⟨?_, ?_⟩
        · have h1 : readWord moveTop top = readWord m a := by
            have : readWord (move mc top a (blockBytes P m a)) (top + 0) = readWord mc (a + 0) :=
              readWord_move_at mc (by omega)
            rw [Nat.add_zero, Nat.add_zero] at this
            rw [hmoveTop, this, hag.readWord le_rfl (by omega)]
          rw [hm1, setMark, readWord_writeWord, h1, kind]
          have := readWord_lt m a
          simp only [MARK_BIT, Bool.false_eq_true, if_false]
          omega
        · intro i h2 hi
          rw [hm1, setMark_frame (by omega), hmoveTop, move_at mc hi, ← hag _ (by omega) (by omega)]
      have hag1 : Agree m m1 (stopOf P m a) heapPtr := fun x hl hr => by
        rw [habove x hl]
        exact hag x (by omega) hr
      have htop1 : top + blockBytes P m a ≤ stopOf P m a := by omega
      obtain ⟨m', stats', hok, hb', ha', hall⟩ := ih
        (if top ≠ a then { stats with objectsMoved := stats.objectsMoved + 1 } else stats)
        ht hs' htop1 hag1 fun b d hbd => hfw b d (List.mem_cons_of_mem _ hbd)
      refine ⟨m', stats', ?_, ?_, ?_, ?_⟩
      · rw [packEnd_cons, ← hok, slideBlocks]
        simp only [hend, hmk, hma, if_true, hlook, Nat.add_sub_cancel, stopOf_sub]
        have hmv : (if top ≠ a then move mc top a (blockBytes P m a) else mc) = moveTop := by
          split_ifs with hne
          · rfl
          · rw [not_not] at hne
            rw [hmoveTop, hne, move_self]
        rw [hmv]
      · exact hbelow.trans (hb'.mono le_rfl (by omega))
      · intro x hx
        rw [ha' x hx, habove x (by omega)]
      · intro b d hbd
        rcases List.mem_cons.mp hbd with heq | hbd
        · obtain ⟨rfl, rfl⟩ := Prod.mk.inj heq
          exact hslid.of_agree (hb'.mono (by omega) le_rfl) (by simp only [HEADER_BYTES]; omega)
        · exact hall b d hbd
    · -- garbage: skipped
      rw [List.filter_cons_of_neg hma] at hfw ⊢
      have htop1 : top ≤ stopOf P m a := by omega
      have hag1 : Agree m mc (stopOf P m a) heapPtr := hag.mono (by omega) le_rfl
      obtain ⟨m', stats', hok, hrest⟩ := ih { stats with
        objectsFreed := stats.objectsFreed + 1, bytesFreed := stats.bytesFreed + blockBytes P m a }
        ht hs' htop1 hag1 hfw
      refine ⟨m', stats', ?_, hrest⟩
      rw [← hok, slideBlocks]
      simp only [hend, hmk, hma, stopOf_sub]
      rfl

end QuinLang
