import QuinLang.Collection.Allocation

/-! Whole runs of the heap. Between two heap operations a program may change its
roots in any way and a store may leave any word in a payload, so nothing is
assumed about what the words of a block mean. -/

namespace QuinLang

open ByteMem Tiling Relation

variable {W : Type} {P : CompiledProgram} {s s' s₁ : VM W} {bs bs₁ : List ℕ}

/-- A machine as its constructor leaves it. -/
def VM.fresh (args : List String) (io : W) : VM W := { args := args, io := io }

inductive HeapEvent
  | roots
  | store (hdr : ℕ)
  | alloc (r : Request) (ref : ℕ)
  | collect

/-- One heap operation. A store to a field, an element or a raw word is a word
written inside the payload of some block. -/
inductive HeapStep (P : CompiledProgram) (s : VM W) : HeapEvent → VM W → Prop
  | roots {s' : VM W} : s'.heap = s.heap → s'.heapPtr = s.heapPtr → s'.heapSize = s.heapSize →
      HeapStep P s .roots s'
  | store {bs : List ℕ} {hdr a : ℕ} (v : ℕ) : s.blocks P = .ok bs → hdr ∈ bs → hdr + HEADER_BYTES ≤ a →
      a + 2 ≤ stopOf P s.heap hdr → HeapStep P s (.store hdr) { s with heap := writeWord s.heap a v }
  | alloc {r : Request} {ref : ℕ} {s' : VM W} : s.allocate P r = .ok (ref, s') → HeapStep P s (.alloc r ref) s'
  | collect {s' : VM W} : s.collect P = .ok s' → HeapStep P s .collect s'

def HeapRun (P : CompiledProgram) : VM W → VM W → Prop :=
  ReflTransGen fun s s' => ∃ e, HeapStep P s e s'

/-- What every reachable heap guarantees of itself and of the next operation. -/
structure HeapSound (P : CompiledProgram) (s : VM W) (bs : List ℕ) : Prop where
  walk : s.blocks P = .ok bs
  tiled : HeapTiled P s bs
  alloc : ∀ r ref s', s.allocate P r = .ok (ref, s') →
    ∃ s₁ bs₁, Settled P s bs s₁ bs₁ ∧ Allocated P r s₁ bs₁ ref s' ∧
      (∀ b ∈ bs₁, stopOf P s₁.heap b + HEADER_BYTES ≤ ref) ∧ ref ≠ NULL_ADDR ∧ s'.heapPtr ≤ 65536
  outOfMemory : ∀ r, s.allocate P r = .error (.vmError "Heap out of memory") →
    s.heapSize < HEAP_START + reachableBytes P s bs + HEADER_BYTES + r.payload P
  served : ∀ r : Request, r.Accepted P →
    (∃ ref s', s.allocate P r = .ok (ref, s')) ∨ s.allocate P r = .error (.vmError "Heap out of memory")
  refused : ∀ r : Request, ¬ r.Accepted P → ∃ msg, s.allocate P r = .error (.vmError msg) ∧ msg ≠ "Heap out of memory"
  frame : ∀ e s', HeapStep P s e s' → ∃ s₁ bs₁, Settled P s bs s₁ bs₁ ∧
    (e = .roots ∨ (∃ hdr, e = .store hdr) → s₁ = s ∧ bs₁ = bs) ∧
    ∀ b ∈ bs₁, e ≠ .store b → Agree s₁.heap s'.heap b (stopOf P s₁.heap b)

theorem allocate_ok (hP : TablesOk P) (h : HeapTiled P s bs) (hsize : s.heapSize ≤ 65536)
    {r : Request} {ref : ℕ} (hok : s.allocate P r = .ok (ref, s')) :
    ∃ s₁ bs₁, Settled P s bs s₁ bs₁ ∧ Allocated P r s₁ bs₁ ref s' := by
  by_cases hr : r.Accepted P
  · rcases allocate_accepted hP h hsize hr with ⟨ref', s'', s₁, bs₁, hok', hset, hal⟩ | ⟨herr, -⟩
    · rw [hok'] at hok
      obtain ⟨rfl, rfl⟩ := Prod.mk.inj (Except.ok.inj hok)
      exact ⟨s₁, bs₁, hset, hal⟩
    · rw [herr] at hok
      cases hok
  · obtain ⟨msg, herr, -⟩ := allocate_refused (s := s) hr
    rw [herr] at hok
    cases hok

theorem allocate_outOfMemory (hP : TablesOk P) (h : HeapTiled P s bs) (hsize : s.heapSize ≤ 65536)
    {r : Request} (herr : s.allocate P r = .error (.vmError "Heap out of memory")) :
    s.heapSize < HEAP_START + reachableBytes P s bs + HEADER_BYTES + r.payload P := by
  by_cases hr : r.Accepted P
  · rcases allocate_accepted hP h hsize hr with ⟨ref', s'', s₁, bs₁, hok, -⟩ | ⟨-, hlt⟩
    · rw [hok] at herr
      cases herr
    · exact hlt
  · obtain ⟨msg, herr', hne⟩ := allocate_refused (s := s) hr
    rw [herr'] at herr
    cases herr
    exact absurd rfl hne

theorem Blocks.writeWord_agree {heapPtr : ℕ} {m : Mem} (h : Blocks P m heapPtr bs) {hdr a v : ℕ}
    (hm : hdr ∈ bs) (hl : hdr + HEADER_BYTES ≤ a) (hr : a + 2 ≤ stopOf P m hdr) :
    HeadersAgree bs m (writeWord m a v) ∧
      ∀ b ∈ bs, b ≠ hdr → Agree m (writeWord m a v) b (stopOf P m b) := by
  constructor
  · intro b hb x h1 h2
    refine (writeWord_frame m ?_).symm
    have h3 := h.payload_off_headers hm hb hl (by omega)
    have h4 := h.payload_off_headers hm hb (x := a + 1) (by omega) (by omega)
    omega
  · intro b hb hne x h1 h2
    refine (writeWord_frame m ?_).symm
    by_contra hin
    simp only [HEADER_BYTES] at hl
    exact hne (h.tiles.unique hb hm (x := x) ⟨h1, h2⟩ (by omega))

/-- One operation keeps the heap tiled and its capacity fixed. -/
theorem HeapStep.preserves (hP : TablesOk P) (h : HeapTiled P s bs) (hsize : s.heapSize ≤ 65536)
    {e : HeapEvent} (hstep : HeapStep P s e s') :
    (∃ bs', HeapTiled P s' bs') ∧ s'.heapSize = s.heapSize := by
  cases hstep with
  | roots hheap hptr hcap =>
    refine ⟨⟨bs, h.write ?_ hptr hcap⟩, hcap⟩
    rw [hheap]
    exact fun b _ => .refl _ _ _
  | @store bs' hdr a v hwalk hm hl hr =>
    have : bs' = bs := by
      rw [VM.blocks, h.blocks.blocksFrom] at hwalk
      exact (Except.ok.inj hwalk).symm
    subst this
    exact ⟨⟨_, h.write (h.blocks.writeWord_agree hm hl hr).1 rfl rfl⟩, rfl⟩
  | alloc hok =>
    obtain ⟨s₁, bs₁, hset, hal⟩ := allocate_ok hP h hsize hok
    obtain ⟨m, hm⟩ := hal.rest
    refine ⟨⟨_, hal.tiled⟩, ?_⟩
    rw [← hset.heapSize, hm]
  | collect hok =>
    obtain ⟨s'', live, hok', hc⟩ := collect_spec hP.stackMaps h
    rw [hok] at hok'
    cases hok'
    exact ⟨⟨_, hc.tiled⟩, hc.rest.2.2.2.1⟩

theorem HeapTiled.sound (hP : TablesOk P) (h : HeapTiled P s bs) (hsize : s.heapSize ≤ 65536) :
    HeapSound P s bs := by
  refine ⟨h.blocks.blocksFrom, h, ?_, fun r => allocate_outOfMemory hP h hsize, fun r hr => ?_, fun r hr => allocate_refused hr, ?_⟩
  · intro r ref s' hok
    obtain ⟨s₁, bs₁, hset, hal⟩ := allocate_ok hP h hsize hok
    refine ⟨s₁, bs₁, hset, hal, fun b hb => ?_, ?_, ?_⟩
    · rw [hal.ref_eq]
      have := ((h.settled hset).blocks.bounds hb).2.2
      omega
    · rw [hal.ref_eq]
      simp [NULL_ADDR, HEADER_BYTES]
    · obtain ⟨m, hm⟩ := hal.rest
      have hfit := hal.tiled.fits
      have hcap : s'.heapSize = s.heapSize := by rw [← hset.heapSize, hm]
      omega
  · rcases allocate_accepted hP h hsize hr with ⟨ref, s', s₁, bs₁, hok, -⟩ | ⟨hmem, -⟩
    · exact Or.inl ⟨ref, s', hok⟩
    · exact Or.inr hmem
  · intro e s' hstep
    cases hstep with
    | roots hheap _ _ =>
      refine ⟨s, bs, Or.inl ⟨rfl, rfl⟩, fun _ => ⟨rfl, rfl⟩, fun b _ _ => ?_⟩
      rw [hheap]
      exact .refl _ _ _
    | @store bs' hdr a v hwalk hm hl hr =>
      have : bs' = bs := by
        rw [VM.blocks, h.blocks.blocksFrom] at hwalk
        exact (Except.ok.inj hwalk).symm
      subst this
      refine ⟨s, _, Or.inl ⟨rfl, rfl⟩, fun _ => ⟨rfl, rfl⟩, fun b hb hne => ?_⟩
      exact (h.blocks.writeWord_agree hm hl hr).2 b hb fun heq => hne (by rw [heq])
    | alloc hok =>
      obtain ⟨s₁, bs₁, hset, hal⟩ := allocate_ok hP h hsize hok
      refine ⟨s₁, bs₁, hset, by simp, fun b hb _ x h1 h2 => (hal.frame x ?_).symm⟩
      have := ((h.settled hset).blocks.bounds hb).2.2
      omega
    | collect hok =>
      obtain ⟨s'', live, hok', hc⟩ := collect_spec hP.stackMaps h
      rw [hok] at hok'
      cases hok'
      exact ⟨_, _, Or.inr ⟨live, hok, hc, rfl⟩, by simp, fun b _ _ => .refl _ _ _⟩

theorem HeapRun.preserves (hP : TablesOk P) (h : HeapTiled P s bs) (hsize : s.heapSize ≤ 65536)
    (run : HeapRun P s s') : (∃ bs', HeapTiled P s' bs') ∧ s'.heapSize ≤ 65536 := by
  induction run with
  | refl => exact ⟨⟨bs, h⟩, hsize⟩
  | tail _ hstep ih =>
    obtain ⟨⟨bs', h'⟩, hsize'⟩ := ih
    obtain ⟨e, hstep⟩ := hstep
    obtain ⟨ht, hcap⟩ := hstep.preserves hP h' hsize'
    exact ⟨ht, by omega⟩

theorem fresh_tiled (args : List String) (io : W) : HeapTiled P (VM.fresh args io) [] :=
  ⟨by simp [VM.fresh, HEAP_START, HEAP_SIZE, NULL_ADDR], ⟨.nil _, by simp⟩, by simp⟩

theorem HeapRun.alloc (r : Request) {ref : ℕ} (h : s.allocate P r = .ok (ref, s')) :
    HeapRun P s s' := .single ⟨_, .alloc h⟩

theorem fillLiterals_run (texts : List (ℕ × String)) (s : VM W) :
    (∀ s', s.fillLiterals P texts = .ok s' → HeapRun P s s') ∧
    ∀ e, s.fillLiterals P texts = .error e → e = .host "UnicodeEncodeError" ∨
      ∃ s₁ r, HeapRun P s s₁ ∧ s₁.allocate P r = .error e := by
  induction texts generalizing s with
  | nil =>
    refine ⟨fun s' h => ?_, by simp [VM.fillLiterals]⟩
    cases h
    exact .refl
  | cons entry rest ih =>
    obtain ⟨sid, text⟩ := entry
    rw [VM.fillLiterals]
    cases latin1 text with
    | none => exact ⟨by simp, fun e h => Or.inl (by cases h; rfl)⟩
    | some data =>
      simp only
      cases hal : s.allocString P data with
      | error e =>
        refine ⟨by simp, fun e' h => Or.inr ⟨s, .string data, .refl, ?_⟩⟩
        cases h
        exact hal
      | ok res =>
        obtain ⟨ref, s₁⟩ := res
        simp only
        have hrun : HeapRun P s { s₁ with literals := s₁.literals.set sid ref } :=
          (HeapRun.alloc (.string data) hal).tail ⟨_, .roots rfl rfl rfl⟩
        obtain ⟨hok, herr⟩ := ih { s₁ with literals := s₁.literals.set sid ref }
        refine ⟨fun s' h => hrun.trans (hok s' h), fun e h => ?_⟩
        exact (herr e h).imp_right fun ⟨s₂, r, h2, h3⟩ => ⟨s₂, r, hrun.trans h2, h3⟩

theorem fillVariants_run (layouts : List (Option StructLayout)) (typeId : ℕ) (s : VM W) :
    (∀ s', s.fillVariants P typeId layouts = .ok s' → HeapRun P s s') ∧
    ∀ e, s.fillVariants P typeId layouts = .error e →
      ∃ s₁ r, HeapRun P s s₁ ∧ s₁.allocate P r = .error e := by
  induction layouts generalizing s typeId with
  | nil =>
    refine ⟨fun s' h => ?_, by simp [VM.fillVariants]⟩
    cases h
    exact .refl
  | cons layout rest ih =>
    rw [VM.fillVariants]
    split
    · cases hal : s.allocStruct P typeId with
      | error e =>
        refine ⟨by simp, fun e' h => ⟨s, .struct typeId, .refl, ?_⟩⟩
        cases h
        exact hal
      | ok res =>
        obtain ⟨ref, s₁⟩ := res
        simp only
        have hrun : HeapRun P s { s₁ with variants := s₁.variants.set typeId ref } :=
          (HeapRun.alloc (.struct typeId) hal).tail ⟨_, .roots rfl rfl rfl⟩
        obtain ⟨hok, herr⟩ := ih (typeId + 1) { s₁ with variants := s₁.variants.set typeId ref }
        refine ⟨fun s' h => hrun.trans (hok s' h), fun e h => ?_⟩
        obtain ⟨s₂, r, h2, h3⟩ := herr e h
        exact ⟨s₂, r, hrun.trans h2, h3⟩
    · exact ih (typeId + 1) s

/-- Filling the literal table is a run of string allocations. -/
theorem materialiseLiterals_run (s : VM W) :
    (∀ s', s.materialiseLiterals P = .ok s' → HeapRun P s s') ∧
    ∀ e, s.materialiseLiterals P = .error e → e = .host "UnicodeEncodeError" ∨
      ∃ s₁ r, HeapRun P s s₁ ∧ s₁.allocate P r = .error e := by
  unfold VM.materialiseLiterals
  simp only
  set s₀ : VM W := { s with literals := _ } with hs₀
  have hrun : HeapRun P s s₀ := .single ⟨_, .roots rfl rfl rfl⟩
  obtain ⟨hok, herr⟩ := fillLiterals_run (P := P) P.strings s₀
  refine ⟨fun s' h => hrun.trans (hok s' h), fun e h => ?_⟩
  exact (herr e h).imp_right fun ⟨s₂, r, h2, h3⟩ => ⟨s₂, r, hrun.trans h2, h3⟩

/-- Filling the variant table is a run of struct allocations. -/
theorem materialiseVariants_run (s : VM W) :
    (∀ s', s.materialiseVariants P = .ok s' → HeapRun P s s') ∧
    ∀ e, s.materialiseVariants P = .error e → ∃ s₁ r, HeapRun P s s₁ ∧ s₁.allocate P r = .error e := by
  unfold VM.materialiseVariants
  set s₀ : VM W := { s with variants := _ } with hs₀
  have hrun : HeapRun P s s₀ := .single ⟨_, .roots rfl rfl rfl⟩
  obtain ⟨hok, herr⟩ := fillVariants_run (P := P) P.structs 0 s₀
  refine ⟨fun s' h => hrun.trans (hok s' h), fun e h => ?_⟩
  obtain ⟨s₂, r, h2, h3⟩ := herr e h
  exact ⟨s₂, r, hrun.trans h2, h3⟩

/-- Every heap a program can reach is tiled and allocates soundly; the two tables
are filled by runs of the same allocations. -/
theorem heap_run_sound (hP : TablesOk P) {args : List String} {io : W}
    (run : HeapRun P (VM.fresh args io) s) :
    (∃ bs, HeapSound P s bs) ∧
    (∀ s', s.materialiseLiterals P = .ok s' ∨ s.materialiseVariants P = .ok s' → HeapRun P s s') ∧
    ∀ e, s.materialiseLiterals P = .error e ∨ s.materialiseVariants P = .error e →
      e = .host "UnicodeEncodeError" ∨ ∃ s₁ r, HeapRun P s s₁ ∧ s₁.allocate P r = .error e := by
  obtain ⟨⟨bs, h⟩, hsize⟩ := run.preserves hP (fresh_tiled args io) (by simp [VM.fresh, HEAP_SIZE])
  refine ⟨⟨bs, h.sound hP hsize⟩, ?_, ?_⟩
  · rintro s' (hl | hv)
    · exact (materialiseLiterals_run s).1 s' hl
    · exact (materialiseVariants_run s).1 s' hv
  · rintro e (hl | hv)
    · exact (materialiseLiterals_run s).2 e hl
    · exact Or.inr ((materialiseVariants_run s).2 e hv)

/-- One struct type, a list node: a word and a reference. -/
def nodeProgram : CompiledProgram := ⟨[], [], [], [some ⟨"Node", 2, [1], [], false⟩], {}⟩

theorem nodeProgram_tablesOk : TablesOk nodeProgram := by
  refine ⟨fun o ho => ⟨_, List.mem_singleton.mp ho, by decide, by decide⟩, by decide, ?_⟩
  exact List.forall_mem_nil _

/-- A node made, held by the program and given a word, and then a collection. -/
theorem nodeProgram_heap : ∃ s₁ s₂ s₃ s, (VM.fresh [] ()).allocate nodeProgram (.struct 0) = .ok (6, s₁) ∧
    s₂ = { s₁ with stack := [⟨6, true⟩] } ∧ HeapStep nodeProgram s₂ (.store 2) s₃ ∧ readWord s₃.heap 6 = 7 ∧
    s₃.collect nodeProgram = .ok s ∧ HeapRun nodeProgram (VM.fresh [] ()) s ∧
    (∃ bs, HeapSound nodeProgram s bs) ∧
    (∀ s', s.materialiseLiterals nodeProgram = .ok s' ∨ s.materialiseVariants nodeProgram = .ok s' →
      HeapRun nodeProgram s s') ∧
    ∀ e, s.materialiseLiterals nodeProgram = .error e ∨ s.materialiseVariants nodeProgram = .error e →
      e = .host "UnicodeEncodeError" ∨
        ∃ s₁ r, HeapRun nodeProgram s s₁ ∧ s₁.allocate nodeProgram r = .error e := by
  obtain ⟨s₁, halloc, hstop⟩ : ∃ s₁, (VM.fresh [] ()).allocate nodeProgram (.struct 0) = .ok (6, s₁) ∧
      stopOf nodeProgram s₁.heap 2 = 10 := ⟨_, rfl, rfl⟩
  obtain ⟨s₀, bs₀, hset, hal⟩ := allocate_ok nodeProgram_tablesOk (fresh_tiled [] ()) (by simp [VM.fresh, HEAP_SIZE]) halloc
  -- a heap with nothing in it is what the allocation bumps, collected or not
  obtain rfl : bs₀ = [] := by
    rcases hset with ⟨-, rfl⟩ | ⟨live, -, hc, rfl⟩
    · rfl
    · rw [List.sublist_nil.mp hc.sublist, List.map_nil]
  have htiled : HeapTiled nodeProgram s₁ [2] := by
    have hptr : 2 + HEADER_BYTES = s₀.heapPtr + HEADER_BYTES := hal.ref_eq
    rw [Nat.add_right_cancel hptr]
    exact hal.tiled
  obtain ⟨s₂, hs₂⟩ : ∃ s₂ : VM Unit, s₂ = { s₁ with stack := [⟨6, true⟩] } := ⟨_, rfl⟩
  have hroots : HeapStep nodeProgram s₁ .roots s₂ := hs₂ ▸ .roots rfl rfl rfl
  have htiled₂ : HeapTiled nodeProgram s₂ [2] := hs₂ ▸ htiled.write (fun _ _ => .refl _ _ _) rfl rfl
  have hstore : HeapStep nodeProgram s₂ (.store 2) { s₂ with heap := writeWord s₂.heap 6 7 } := by
    refine .store 7 htiled₂.blocks.blocksFrom List.mem_cons_self le_rfl ?_
    rw [hs₂, hstop]
    decide
  have held : HeapRun nodeProgram (VM.fresh [] ()) _ := ((HeapRun.alloc _ halloc).tail ⟨_, hroots⟩).tail ⟨_, hstore⟩
  obtain ⟨⟨bs, h⟩, -⟩ := held.preserves nodeProgram_tablesOk (fresh_tiled [] ()) (by simp [VM.fresh, HEAP_SIZE])
  obtain ⟨s, live, hcollect, -⟩ := collect_spec nodeProgram_tablesOk.stackMaps h
  have run := held.tail ⟨_, .collect hcollect⟩
  exact ⟨s₁, s₂, _, s, halloc, hs₂, hstore, readWord_writeWord_of_lt _ (by decide), hcollect, run, heap_run_sound nodeProgram_tablesOk run⟩

end QuinLang
