import QuinLang.Collection.Marking

/-! The plan and the rewriting of references. Every survivor is packed down in
address order; a reference into a survivor follows it with its offset kept, and
every other word stays what it was. -/

namespace QuinLang

open ByteMem Tiling

variable {W : Type} {P : CompiledProgram} {m m' : Mem} {heapPtr : ℕ} {bs live : List ℕ}

theorem planFrom_eq {free addr : ℕ} (ht : Tiles (stopOf P m) addr bs heapPtr)
    (hs : ∀ b ∈ bs, BlockShape P m b) :
    planFrom P m heapPtr free addr =
      .ok ((pack (blockBytes P m) free (bs.filter (isMarked m))).map fun p =>
        (p.1 + HEADER_BYTES, p.2 + HEADER_BYTES)) := by
  induction ht generalizing free with
  | nil a =>
    rw [planFrom, if_neg (by omega)]
    rfl
  | @cons a e as hlt ht ih =>
    have hle := ht.le
    have hend := (hs a List.mem_cons_self).blockEnd_eq
    have hs' := fun b hb => hs b (List.mem_cons_of_mem _ hb)
    rw [planFrom, if_pos (by omega)]
    split
    · simp_all
    · rename_i stop hstop
      rw [hend] at hstop
      cases hstop
      by_cases hmk : isMarked m a = true
      · rw [if_pos hmk, stopOf_sub, ih hs', List.filter_cons_of_pos hmk]
        rfl
      · rw [if_neg hmk, ih hs', List.filter_cons_of_neg hmk]

/-- Where the blocks of `live` are packed to. -/
def destOf (P : CompiledProgram) (m : Mem) (live : List ℕ) : ℕ → ℕ :=
  packTo (blockBytes P m) HEAP_START live

/-- What a word becomes: a reference into a survivor follows it. -/
def relocate (stop : ℕ → ℕ) (bs live : List ℕ) (dest : ℕ → ℕ) (ref : ℕ) : ℕ :=
  match blockOf stop bs ref with
  | some b => if b ∈ live then dest b + (ref - b) else ref
  | none => ref

theorem relocate_null {stop : ℕ → ℕ} {dest : ℕ → ℕ} : relocate stop bs live dest NULL_ADDR = NULL_ADDR := by
  simp [relocate, blockOf_null]

theorem relocate_of_mem {stop dest : ℕ → ℕ} {a e b ref : ℕ} (ht : Tiles stop a bs e) (hb : b ∈ bs)
    (hlive : b ∈ live) (hl : b + HEADER_BYTES ≤ ref) (hr : ref < stop b) :
    relocate stop bs live dest ref = dest b + (ref - b) := by
  rw [relocate, blockOf_eq_some ht hb hl hr]
  exact if_pos hlive

theorem relocate_le {stop dest : ℕ → ℕ} (hd : ∀ b ∈ live, dest b ≤ b) (ref : ℕ) :
    relocate stop bs live dest ref ≤ ref := by
  unfold relocate
  split
  · rename_i b hb
    have := (blockOf_some hb).2.1
    split_ifs with hl
    · have := hd b hl
      simp only [HEADER_BYTES] at *
      omega
    · exact le_rfl
  · exact le_rfl

theorem lookup_map_add {xs : List (ℕ × ℕ)} {b c : ℕ} :
    (xs.map fun p => (p.1 + c, p.2 + c)).lookup (b + c) = (xs.lookup b).map (· + c) := by
  induction xs with
  | nil => rfl
  | cons p xs ih =>
    obtain ⟨x, y⟩ := p
    simp only [List.map_cons, List.lookup_cons, ih]
    by_cases h : b = x
    · simp [h]
    · have h1 : (b == x) = false := by simpa using h
      have h2 : (b + c == x + c) = false := by simpa using h
      rw [h1, h2]

theorem pack_lookup_none {size : ℕ → ℕ} {base b : ℕ} {xs : List ℕ} (h : b ∉ xs) :
    (pack size base xs).lookup b = none := by
  rw [List.lookup_eq_none_iff]
  rintro ⟨c, d⟩ hp
  have := List.mem_map_of_mem (f := Prod.fst) hp
  rw [pack_map_fst] at this
  simp only [bne_iff_ne, ne_eq]
  rintro rfl
  exact h this

/-- The plan as `updateReferences` and `slide` read it. -/
def forwardOf (P : CompiledProgram) (m : Mem) (live : List ℕ) : List (ℕ × ℕ) :=
  (pack (blockBytes P m) HEAP_START live).map fun p => (p.1 + HEADER_BYTES, p.2 + HEADER_BYTES)

theorem forwardOf_lookup (hnd : live.Nodup) {b : ℕ} (hb : b ∈ live) :
    (forwardOf P m live).lookup (b + HEADER_BYTES) = some (destOf P m live b + HEADER_BYTES) := by
  rw [forwardOf, lookup_map_add, pack_lookup hnd (mem_pack_packTo hnd hb)]
  rfl

theorem forwardOf_lookup_none {b : ℕ} (hb : b ∉ live) :
    (forwardOf P m live).lookup (b + HEADER_BYTES) = none := by
  rw [forwardOf, lookup_map_add, pack_lookup_none hb]
  rfl

/-- `moved` is `relocate`, on any memory with the same headers. -/
theorem Blocks.moved_eq (hB : Blocks P m heapPtr bs) (hh : SameHeaders bs m m') (hnd : live.Nodup)
    (ref : ℕ) :
    moved P m' (bs.map (· + HEADER_BYTES)) (forwardOf P m live) ref =
      .ok (relocate (stopOf P m) bs live (destOf P m live) ref) := by
  unfold moved
  by_cases h0 : ref = NULL_ADDR
  · rw [if_pos h0, h0, relocate_null]
  rw [if_neg h0, (hB.congr hh).containingObject_eq, blockOf_congr fun b hb => hh.stopOf hb]
  unfold relocate
  cases hb : blockOf (stopOf P m) bs ref with
  | none => rfl
  | some b =>
    have hle := (blockOf_some hb).2.1
    simp only [Option.map_some]
    by_cases hl : b ∈ live
    · simp only [forwardOf_lookup hnd hl, if_pos hl]
      congr 1
      omega
    · simp only [forwardOf_lookup_none hl, if_neg hl]

/-! Rewriting the roots, with a `move` that is total. -/

theorem updateTable_eq (g : ℕ → ℕ) (as : List ℕ) :
    updateTable (fun r => .ok (g r)) as = .ok (as.map g) := by
  induction as with
  | nil => rfl
  | cons a as ih => simp only [updateTable, ih, List.map_cons]

/-- A tagged entry has its value mapped; the others are untouched. -/
def Entry.mapRef (g : ℕ → ℕ) (e : Entry) : Entry :=
  if e.isRef then { e with value := g e.value } else e

theorem updateStack_eq (g : ℕ → ℕ) (es : List Entry) :
    updateStack (fun r => .ok (g r)) es = .ok (es.map (Entry.mapRef g)) := by
  induction es with
  | nil => rfl
  | cons e es ih =>
    cases e with
    | mk v r => cases r <;> simp [updateStack, ih, Entry.mapRef]

/-- The words of a frame with the listed slots mapped. -/
def mapSlots (g : ℕ → ℕ) (slots : List ℕ) (locals : List ℕ) : List ℕ :=
  locals.mapIdx fun i v => if i ∈ slots then g v else v

theorem mapSlots_nil (g : ℕ → ℕ) (locals : List ℕ) : mapSlots g [] locals = locals := by
  apply List.ext_getElem <;> simp [mapSlots]

theorem updateSlot_eq (g : ℕ → ℕ) (locals : List ℕ) (slot : ℕ) :
    updateSlot (fun r => .ok (g r)) locals slot = .ok (mapSlots g [slot] locals) := by
  unfold updateSlot mapSlots
  cases h : locals[slot]? with
  | none =>
    simp only [Except.ok.injEq]
    apply List.ext_getElem
    · simp
    · intro i h1 h2
      rw [List.getElem?_eq_none_iff] at h
      rw [List.getElem_mapIdx, if_neg (by rw [List.mem_singleton]; omega)]
  | some v =>
    obtain ⟨hlt, rfl⟩ := List.getElem?_eq_some_iff.mp h
    simp only [Except.ok.injEq]
    apply List.ext_getElem
    · simp
    · intro i h1 h2
      rw [List.getElem_set, List.getElem_mapIdx]
      by_cases hi : slot = i
      · subst hi
        simp
      · rw [if_neg hi, if_neg (by simpa [eq_comm] using hi)]

theorem mapSlots_mapSlots (g : ℕ → ℕ) {slot : ℕ} {slots : List ℕ} (h : slot ∉ slots) (locals : List ℕ) :
    mapSlots g slots (mapSlots g [slot] locals) = mapSlots g (slot :: slots) locals := by
  apply List.ext_getElem
  · simp [mapSlots]
  · intro i h1 h2
    simp only [mapSlots, List.getElem_mapIdx, List.mem_cons]
    by_cases hi : i = slot
    · subst hi
      simp [h]
    · simp [hi]

/-- Each slot is rewritten once, which is why a stack map must not name one twice. -/
theorem updateSlots_eq (g : ℕ → ℕ) {slots : List ℕ} (hnd : slots.Nodup) (locals : List ℕ) :
    updateSlots (fun r => .ok (g r)) locals slots = .ok (mapSlots g slots locals) := by
  induction slots generalizing locals with
  | nil => rw [updateSlots, mapSlots_nil]
  | cons slot slots ih =>
    obtain ⟨hn, hnd⟩ := List.nodup_cons.mp hnd
    simp only [updateSlots, updateSlot_eq]
    rw [ih hnd, mapSlots_mapSlots g hn]

theorem updateFrame_eq (g : ℕ → ℕ) (hP : ∀ fn ∈ P.functions, fn.refSlots.Nodup) (fnIndex : ℕ)
    (locals : List ℕ) :
    updateFrame P (fun r => .ok (g r)) fnIndex locals = .ok (mapSlots g (refSlotsOf P fnIndex) locals) := by
  unfold updateFrame refSlotsOf
  cases h : P.functions[fnIndex]? with
  | none => simp only [mapSlots_nil]
  | some fn => exact updateSlots_eq g (hP fn (List.mem_of_getElem? h)) locals

/-- A suspended frame with its ref slots mapped. -/
def Frame.mapRef (P : CompiledProgram) (g : ℕ → ℕ) (f : Frame) : Frame :=
  { f with locals := mapSlots g (refSlotsOf P f.fnIndex) f.locals }

theorem updateFrames_eq (g : ℕ → ℕ) (hP : ∀ fn ∈ P.functions, fn.refSlots.Nodup) (fs : List Frame) :
    updateFrames P (fun r => .ok (g r)) fs = .ok (fs.map (Frame.mapRef P g)) := by
  induction fs with
  | nil => rfl
  | cons f fs ih =>
    simp only [updateFrames, updateFrame_eq g hP, ih]
    rfl

/-! Rewriting the words inside the survivors. -/

/-- The listed words of `m'` are those of `m` mapped, and nothing else changed. -/
structure WordsMapped (g : ℕ → ℕ) (addrs : List ℕ) (m m' : Mem) : Prop where
  word : ∀ a ∈ addrs, readWord m' a = g (readWord m a)
  frame : ∀ x, (∀ a ∈ addrs, x ≠ a ∧ x ≠ a + 1) → m' x = m x

/-- Word addresses no two of which overlap. -/
def Apart (addrs : List ℕ) : Prop := addrs.Pairwise fun a b => a + 2 ≤ b ∨ b + 2 ≤ a

theorem WordsMapped.nil {g : ℕ → ℕ} : WordsMapped g [] m m := ⟨by simp, fun _ _ => rfl⟩

theorem WordsMapped.append {g : ℕ → ℕ} {xs ys : List ℕ} {m'' : Mem} (h : WordsMapped g xs m m')
    (h' : WordsMapped g ys m' m'') (hap : ∀ a ∈ xs, ∀ b ∈ ys, a + 2 ≤ b ∨ b + 2 ≤ a) :
    WordsMapped g (xs ++ ys) m m'' := by
  refine ⟨?_, ?_⟩
  · intro a ha
    rcases List.mem_append.mp ha with ha | ha
    · rw [← h.word a ha]
      apply readWord_congr <;> apply h'.frame <;> intro b hb <;> have := hap a ha b hb <;> omega
    · rw [h'.word a ha]
      apply congrArg g
      apply readWord_congr <;> apply h.frame <;> intro b hb <;> have := hap b hb a ha <;> omega
  · intro x hx
    rw [h'.frame x fun a ha => hx a (List.mem_append_right _ ha),
      h.frame x fun a ha => hx a (List.mem_append_left _ ha)]

theorem updateWords_eq {starts : List ℕ} {forward : List (ℕ × ℕ)} {g : ℕ → ℕ} (hg : ∀ r, g r ≤ r)
    {addrs : List ℕ} (hap : Apart addrs) (m : Mem)
    (hmv : ∀ m' xs, (∀ a ∈ xs, a ∈ addrs) → WordsMapped g xs m m' →
      ∀ r, moved P m' starts forward r = .ok (g r)) :
    ∃ m', updateWords P starts forward m addrs = .ok m' ∧ WordsMapped g addrs m m' := by
  induction addrs generalizing m with
  | nil => exact ⟨m, rfl, .nil⟩
  | cons a addrs ih =>
    obtain ⟨ha, hap⟩ := List.pairwise_cons.mp hap
    have hmv0 := hmv m [] (by simp) .nil
    have hlt : g (readWord m a) < 65536 := lt_of_le_of_lt (hg _) (readWord_lt m a)
    have h1 : WordsMapped g [a] m (writeWord m a (g (readWord m a))) := by
      refine ⟨?_, ?_⟩
      · intro b hb
        rw [List.mem_singleton] at hb
        subst hb
        exact readWord_writeWord_of_lt m hlt
      · intro x hx
        have := hx a List.mem_cons_self
        exact writeWord_frame m (by omega)
    obtain ⟨m', hok, h'⟩ := ih hap (writeWord m a (g (readWord m a))) (by
      intro m' xs hxs hm'
      refine hmv m' (a :: xs) ?_ (h1.append hm' ?_)
      · intro b hb
        rcases List.mem_cons.mp hb with rfl | hb
        · exact List.mem_cons_self
        · exact List.mem_cons_of_mem _ (hxs b hb)
      · intro b hb c hc
        rw [List.mem_singleton] at hb
        subst hb
        exact ha c (hxs c hc))
    refine ⟨m', ?_, ?_⟩
    · simp only [updateWords, hmv0]
      exact hok
    · refine h1.append h' ?_
      intro b hb c hc
      rw [List.mem_singleton] at hb
      subst hb
      exact ha c hc

end QuinLang
