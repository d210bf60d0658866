import QuinLang.Collection.Collect

/-! What a collection means to the program: the reachable blocks move down in
order, every reference follows its object, and nothing else is touched. -/

namespace QuinLang

open ByteMem Tiling Worklist

variable {W : Type} {P : CompiledProgram} {s s' : VM W} {bs live : List ℕ}

/-- Null, or an address inside the payload of a block. -/
def InHeap (P : CompiledProgram) (m : Mem) (bs : List ℕ) (r : ℕ) : Prop :=
  r = NULL_ADDR ∨ ∃ b ∈ bs, b + HEADER_BYTES ≤ r ∧ r < stopOf P m b

instance {m : Mem} {r : ℕ} : Decidable (InHeap P m bs r) := inferInstanceAs (Decidable (_ ∨ _))

/-- The words in the ref slots of a frame. -/
def slotWords (P : CompiledProgram) (frame : ℕ × List ℕ) : List ℕ :=
  (refSlotsOf P frame.1).filterMap fun slot => frame.2[slot]?

/-- Every word the collector takes for a reference is one. -/
structure RefsValid (P : CompiledProgram) (s : VM W) (bs : List ℕ) : Prop where
  frames : ∀ fr ∈ s.frames, ∀ r ∈ slotWords P fr, InHeap P s.heap bs r
  stack : ∀ e ∈ s.stack, e.isRef = true → InHeap P s.heap bs e.value
  literals : ∀ r ∈ s.literals, InHeap P s.heap bs r
  variants : ∀ r ∈ s.variants, InHeap P s.heap bs r
  blocks : ∀ b ∈ bs, ∀ r ∈ heldRefs P s.heap b, InHeap P s.heap bs r

/-- The blocks of `bs` a collection keeps. -/
abbrev Survivor (P : CompiledProgram) (s : VM W) (bs : List ℕ) : Type :=
  { b // b ∈ bs ∧ Reachable P s.heap bs (s.roots P) b }

/-- `r'` is what `r` becomes when survivors move by `f`: null stays null and an
address inside a survivor keeps its offset. -/
def Follows (f : Survivor P s bs → ℕ) (r r' : ℕ) : Prop :=
  r = NULL_ADDR ∧ r' = NULL_ADDR ∨
    ∃ b : Survivor P s bs, b.1 + HEADER_BYTES ≤ r ∧ r < stopOf P s.heap b.1 ∧ r' = f b + (r - b.1)

/-- A frame whose ref slots follow `f` and whose other words are unchanged. -/
structure FrameFollows (f : Survivor P s bs → ℕ) (fnIndex : ℕ) (locals locals' : List ℕ) : Prop where
  length : locals'.length = locals.length
  ref : ∀ slot ∈ refSlotsOf P fnIndex, ∀ r, locals[slot]? = some r →
    ∃ r', locals'[slot]? = some r' ∧ Follows f r r'
  plain : ∀ slot, slot ∉ refSlotsOf P fnIndex → locals'[slot]? = locals[slot]?

/-- `s'` is `s` with its survivors moved by `f` and everything else gone. -/
structure Slid (s' : VM W) (f : Survivor P s bs → ℕ) : Prop where
  kind : ∀ b, kind s'.heap (f b) = kind s.heap b.1
  detail : ∀ b, detail s'.heap (f b) = detail s.heap b.1
  size : ∀ b, blockBytes P s'.heap (f b) = blockBytes P s.heap b.1
  refWord : ∀ b, ∀ a ∈ refWords P s.heap (b.1 + HEADER_BYTES),
    Follows f (readWord s.heap a) (readWord s'.heap (f b + (a - b.1)))
  byte : ∀ b, ∀ i, HEADER_BYTES ≤ i → i < blockBytes P s.heap b.1 →
    (∀ a ∈ refWords P s.heap (b.1 + HEADER_BYTES), b.1 + i ≠ a ∧ b.1 + i ≠ a + 1) →
    s'.heap (f b + i) = s.heap (b.1 + i)
  locals : FrameFollows f s.currentFn s.locals s'.locals
  callStack : List.Forall₂ (fun fr fr' => fr'.fnIndex = fr.fnIndex ∧ fr'.returnPc = fr.returnPc ∧
    fr'.stackBase = fr.stackBase ∧ FrameFollows f fr.fnIndex fr.locals fr'.locals)
    s.callStack s'.callStack
  stack : List.Forall₂ (fun e e' => e'.isRef = e.isRef ∧
    if e.isRef then Follows f e.value e'.value else e'.value = e.value) s.stack s'.stack
  literals : List.Forall₂ (Follows f) s.literals s'.literals
  variants : List.Forall₂ (Follows f) s.variants s'.variants
  wiped : ∀ x, s'.heapPtr ≤ x → x < s.heapPtr → s'.heap x = 0
  registers : s'.pc = s.pc ∧ s'.currentFn = s.currentFn ∧ s'.frameBase = s.frameBase

theorem mem_roots_of_slot {fr : ℕ × List ℕ} (hfr : fr ∈ s.frames) {r : ℕ} (hr : r ∈ slotWords P fr)
    (hne : r ≠ NULL_ADDR) : r ∈ s.roots P := by
  simp only [VM.roots, List.mem_append, List.mem_flatMap]
  refine Or.inl (Or.inl (Or.inl ⟨fr, hfr, ?_⟩))
  unfold slotWords refSlotsOf at hr
  unfold frameRoots
  cases hfn : P.functions[fr.1]? with
  | none => simp [hfn] at hr
  | some fn =>
    rw [hfn] at hr
    obtain ⟨slot, hslot, hv⟩ := List.mem_filterMap.mp hr
    refine List.mem_filterMap.mpr ⟨slot, hslot, ?_⟩
    rw [hv, Option.bind_some, if_pos hne]

theorem mem_roots_of_stack {e : Entry} (he : e ∈ s.stack) (href : e.isRef = true)
    (hne : e.value ≠ NULL_ADDR) : e.value ∈ s.roots P := by
  simp only [VM.roots, List.mem_append]
  refine Or.inl (Or.inl (Or.inr (List.mem_filterMap.mpr ⟨e, List.mem_reverse.mpr he, ?_⟩)))
  simp [href, hne]

theorem mem_roots_of_table {r : ℕ} (hr : r ∈ s.literals ∨ r ∈ s.variants) (hne : r ≠ NULL_ADDR) :
    r ∈ s.roots P := by
  simp only [VM.roots, List.mem_append]
  rcases hr with hr | hr
  · exact Or.inl (Or.inr (List.mem_filter.mpr ⟨hr, by simpa using hne⟩))
  · exact Or.inr (List.mem_filter.mpr ⟨hr, by simpa using hne⟩)

/-- A frame of the machine, running or suspended. -/
theorem mem_frames_callStack {fr : Frame} (h : fr ∈ s.callStack) : (fr.fnIndex, fr.locals) ∈ s.frames :=
  List.mem_cons_of_mem _ (List.mem_map.mpr ⟨fr, List.mem_reverse.mpr h, rfl⟩)

section Following

variable {heapPtr : ℕ}

/-- Where a collection that keeps `live` puts a survivor. -/
def slideTo (P : CompiledProgram) (s : VM W) (bs live : List ℕ) (b : Survivor P s bs) : ℕ :=
  destOf P s.heap live b.1

/-- A valid reference that is null or resolves to a survivor follows it. -/
theorem follows_forwarded (h : HeapTiled P s bs)
    (hlive : ∀ b, b ∈ live ↔ b ∈ bs ∧ Reachable P s.heap bs (s.roots P) b) {r : ℕ}
    (hv : InHeap P s.heap bs r)
    (hr : ∀ b, blockOf (stopOf P s.heap) bs r = some b → Reachable P s.heap bs (s.roots P) b) :
    Follows (slideTo P s bs live) r (forwarded P s bs live r) := by
  rcases hv with rfl | ⟨b, hb, hlo, hhi⟩
  · exact Or.inl ⟨rfl, relocate_null⟩
  · have hreach := hr b (blockOf_eq_some h.blocks.tiles hb hlo hhi)
    exact Or.inr ⟨⟨b, hb, hreach⟩, hlo, hhi,
      relocate_of_mem h.blocks.tiles hb ((hlive b).mpr ⟨hb, hreach⟩) hlo hhi⟩

theorem follows_root (h : HeapTiled P s bs)
    (hlive : ∀ b, b ∈ live ↔ b ∈ bs ∧ Reachable P s.heap bs (s.roots P) b) {r : ℕ}
    (hv : InHeap P s.heap bs r) (hr : r ≠ NULL_ADDR → r ∈ s.roots P) :
    Follows (slideTo P s bs live) r (forwarded P s bs live r) := by
  refine follows_forwarded h hlive hv fun b hb => .root (hr ?_) hb
  rintro rfl
  rw [blockOf_null] at hb
  cases hb

theorem frameFollows (h : HeapTiled P s bs)
    (hlive : ∀ b, b ∈ live ↔ b ∈ bs ∧ Reachable P s.heap bs (s.roots P) b) (hv : RefsValid P s bs)
    {fr : ℕ × List ℕ} (hfr : fr ∈ s.frames) :
    FrameFollows (slideTo P s bs live) fr.1 fr.2
      (mapSlots (forwarded P s bs live) (refSlotsOf P fr.1) fr.2) := by
  refine ⟨by simp [mapSlots], ?_, ?_⟩
  · intro slot hslot r hr
    have hw : r ∈ slotWords P fr := List.mem_filterMap.mpr ⟨slot, hslot, hr⟩
    refine ⟨forwarded P s bs live r, by simp [mapSlots, hr, hslot], ?_⟩
    exact follows_root h hlive (hv.frames fr hfr r hw) (mem_roots_of_slot hfr hw)
  · intro slot hslot
    cases hl : fr.2[slot]? <;> simp [mapSlots, hl, hslot]

end Following

theorem forall₂_map_right {A B : Type*} {R : A → B → Prop} {g : A → B} {xs : List A}
    (h : ∀ x ∈ xs, R x (g x)) : List.Forall₂ R xs (xs.map g) := by
  induction xs with
  | nil => exact .nil
  | cons x xs ih =>
    exact .cons (h x List.mem_cons_self) (ih fun y hy => h y (List.mem_cons_of_mem _ hy))

theorem Collected.slid (hc : Collected P s s' bs live) (h : HeapTiled P s bs) (hv : RefsValid P s bs) :
    Slid s' (slideTo P s bs live) := by
  have hl : ∀ b : Survivor P s bs, b.1 ∈ live := fun b => (hc.mem_live b.1).mpr b.2
  refine ⟨fun b => hc.kind _ (hl b), fun b => hc.detail _ (hl b), ?_, ?_, fun b => hc.byte _ (hl b),
    ?_, ?_, ?_, ?_, ?_, hc.wiped, hc.rest.1, hc.rest.2.1, hc.rest.2.2.1⟩
  · intro b
    show blockBytes P s'.heap (destOf P s.heap live b.1) = _
    rw [blockBytes, blockBytes, (payloadSize_congr (hc.kind _ (hl b)) (hc.detail _ (hl b))).2]
  · intro b a ha
    show Follows _ _ (readWord s'.heap (destOf P s.heap live b.1 + (a - b.1)))
    rw [hc.refWord _ (hl b) a ha]
    have hheld : readWord s.heap a ∈ heldRefs P s.heap b.1 := List.mem_map_of_mem ha
    exact follows_forwarded h hc.mem_live (hv.blocks b.1 b.2.1 _ hheld)
      fun c hres => .step b.2.2 hheld hres
  · rw [hc.locals]
    exact frameFollows h hc.mem_live hv (show (s.currentFn, s.locals) ∈ s.frames from List.mem_cons_self)
  · rw [hc.callStack]
    refine forall₂_map_right fun fr hfr => ⟨rfl, rfl, rfl, ?_⟩
    exact frameFollows h hc.mem_live hv (mem_frames_callStack hfr)
  · rw [hc.stack]
    refine forall₂_map_right fun e he => ?_
    unfold Entry.mapRef
    by_cases href : e.isRef = true
    · simp only [href, if_true, true_and]
      exact follows_root h hc.mem_live (hv.stack e he href) (mem_roots_of_stack he href)
    · simp [href]
  · rw [hc.literals]
    exact forall₂_map_right fun r hr =>
      follows_root h hc.mem_live (hv.literals r hr) (mem_roots_of_table (Or.inl hr))
  · rw [hc.variants]
    exact forall₂_map_right fun r hr =>
      follows_root h hc.mem_live (hv.variants r hr) (mem_roots_of_table (Or.inr hr))

/-- The survivors, in order, are the blocks that remain. -/
theorem Collected.orderIso (hc : Collected P s s' bs live) (h : HeapTiled P s bs) :
    ∃ bs', s'.blocks P = .ok bs' ∧ ∃ f : Survivor P s bs ≃o { b // b ∈ bs' },
      ∀ b, (f b).1 = slideTo P s bs live b := by
  set dest := destOf P s.heap live with hdest
  have hsort : live.Pairwise (· < ·) := h.blocks.tiles.sorted.sublist hc.sublist
  have hpos : ∀ b ∈ live, 0 < blockBytes P s.heap b := fun b _ =>
    lt_of_lt_of_le (by norm_num [HEADER_BYTES]) blockBytes_ge
  have hmono : ∀ b ∈ live, ∀ c ∈ live, b < c → dest b < dest c := fun b hb c hc' hlt => by
    have : packTo (blockBytes P s.heap) HEAP_START live b + _ ≤ _ := packTo_mono hsort hb hc' hlt
    have := hpos b hb
    rw [hdest, destOf]
    omega
  have hle : ∀ b ∈ live, ∀ c ∈ live, (dest b ≤ dest c ↔ b ≤ c) := by
    intro b hb c hc'
    rcases lt_trichotomy b c with hlt | rfl | hlt
    · have := hmono b hb c hc' hlt
      omega
    · simp
    · have := hmono c hc' b hb hlt
      omega
  refine ⟨live.map dest, hc.tiled.blocks.blocksFrom, ?_⟩
  have hl : ∀ b : Survivor P s bs, b.1 ∈ live := fun b => (hc.mem_live b.1).mpr b.2
  let f : Survivor P s bs → { b // b ∈ live.map dest } :=
    fun b => ⟨dest b.1, List.mem_map_of_mem (hl b)⟩
  have hf : Function.Bijective f := by
    constructor
    · intro b c hbc
      have heq : dest b.1 = dest c.1 := congrArg Subtype.val hbc
      have h1 := (hle b.1 (hl b) c.1 (hl c)).mp heq.le
      have h2 := (hle c.1 (hl c) b.1 (hl b)).mp heq.ge
      exact Subtype.ext (by omega)
    · rintro ⟨d, hd⟩
      obtain ⟨b, hb, rfl⟩ := List.mem_map.mp hd
      exact ⟨⟨b, (hc.mem_live b).mp hb⟩, rfl⟩
  exact ⟨⟨Equiv.ofBijective f hf, fun {b c} => hle b.1 (hl b) c.1 (hl c)⟩, fun b => rfl⟩

/-- The sliding collector is correct on every tiled heap whose references are valid. -/
theorem collect_correct (hP : StackMapsOk P) (h : HeapTiled P s bs) (hv : RefsValid P s bs) :
    ∃ s' bs', s.collect P = .ok s' ∧ s'.blocks P = .ok bs' ∧
      (∃ f : Survivor P s bs ≃o { b // b ∈ bs' }, Slid s' fun b => (f b).1) ∧
      (∀ b ∈ bs', isMarked s'.heap b = false) ∧
      s'.heapPtr = HEAP_START + (bs'.map (blockBytes P s'.heap)).sum := by
  obtain ⟨s', live, hok, hc⟩ := collect_spec hP h
  obtain ⟨bs', hbs', f, hf⟩ := hc.orderIso h
  have hbs : bs' = live.map (destOf P s.heap live) := by
    have := hc.tiled.blocks.blocksFrom
    rw [VM.blocks, this] at hbs'
    exact (Except.ok.inj hbs').symm
  refine ⟨s', bs', hok, hbs', ⟨f, ?_⟩, ?_, ?_⟩
  · simp only [hf]
    exact hc.slid h hv
  · rw [hbs]
    exact hc.tiled.unmarked
  · have hsize : ∀ b ∈ live, blockBytes P s.heap b =
        blockBytes P s'.heap (destOf P s.heap live b) := fun b hb => by
      rw [blockBytes, blockBytes, (payloadSize_congr (hc.kind b hb) (hc.detail b hb)).2]
    rw [hbs, List.map_map, hc.heapPtr, packEnd, List.map_congr_left hsize]
    rfl

/-- A dead string below a reference array that holds itself. -/
def selfLoop : VM Unit where
  stack := [⟨12, true⟩]
  heap := writeWord (writeHeader (writeHeader (fun _ => 0) 2 KIND_STRING 1) 8 KIND_REFARRAY 1) 12 12
  heapPtr := 14
  io := ()

def emptyProgram : CompiledProgram := ⟨[], [], [], [], {}⟩

theorem selfLoop_tiled : HeapTiled emptyProgram selfLoop [2, 8] := by
  refine ⟨by decide, ⟨.cons (by decide) (.cons (by decide) (.nil 14)), ?_⟩, by decide⟩
  intro b hb
  simp only [List.mem_cons, List.not_mem_nil, or_false] at hb
  rcases hb with rfl | rfl
  · exact ⟨by decide, fun h => absurd h (by decide), by decide⟩
  · exact ⟨by decide, fun h => absurd h (by decide), by decide⟩

theorem selfLoop_refsValid : RefsValid emptyProgram selfLoop [2, 8] :=
  ⟨by decide, by decide, by decide, by decide, by decide⟩

theorem selfLoop_collect :
    ∃ s' bs', selfLoop.collect emptyProgram = .ok s' ∧ s'.blocks emptyProgram = .ok bs' ∧
      (∃ f : Survivor emptyProgram selfLoop [2, 8] ≃o { b // b ∈ bs' }, Slid s' fun b => (f b).1) ∧
      (∀ b ∈ bs', isMarked s'.heap b = false) ∧
      s'.heapPtr = HEAP_START + (bs'.map (blockBytes emptyProgram s'.heap)).sum :=
  collect_correct (List.forall_mem_nil _) selfLoop_tiled selfLoop_refsValid

end QuinLang
