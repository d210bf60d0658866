import QuinLang.Runtime.Allocator
import QuinLang.Collection.Collect

/-! What an allocation does to a tiled heap: one block is added at its end, after a
collection when there was no room, and no other block changes. -/

namespace QuinLang

open ByteMem Tiling

variable {W : Type} {P : CompiledProgram} {s s' s₁ : VM W} {bs bs₁ live : List ℕ}

/-- What code generation promises the allocator: every type id has a layout, and
type ids and stack maps are such that headers and frames can be trusted. -/
structure TablesOk (P : CompiledProgram) : Prop where
  layouts : ∀ o ∈ P.structs, ∃ l, o = some l ∧ l.WellFormed
  typeIds : P.structs.length ≤ 65536
  stackMaps : StackMapsOk P

/-- A request to the allocator. -/
inductive Request
  | struct (typeId : ℕ)
  | array (count : ℤ) (holdsRefs : Bool)
  | raw (size : ℤ)
  | string (data : List UInt8)

def VM.allocate (P : CompiledProgram) (s : VM W) : Request → Except Fault (ℕ × VM W)
  | .struct typeId => s.allocStruct P typeId
  | .array count holdsRefs => s.allocArray P count holdsRefs
  | .raw size => s.allocRaw P size
  | .string data => s.allocString P data

namespace Request

def kind : Request → ℕ
  | struct _ => KIND_STRUCT
  | array _ holdsRefs => if holdsRefs then KIND_REFARRAY else KIND_VALARRAY
  | raw _ => KIND_RAW
  | string _ => KIND_STRING

/-- Payload bytes asked for, rounded as the allocator rounds them. -/
def payload (P : CompiledProgram) : Request → ℕ
  | struct typeId => roundPayload (((P.structs[typeId]?.join).elim 0 StructLayout.wordSize) * 2)
  | array count _ => roundPayload (count.toNat * 2)
  | raw size => roundPayload size.toNat
  | string data => roundPayload data.length

def detail (P : CompiledProgram) : Request → ℕ
  | struct typeId => typeId
  | array count _ => count.toNat
  | raw size => payload P (raw size)
  | string data => data.length

/-- A new block holds zeros, or exactly the bytes of the string it was made for. -/
def Filled (m : Mem) (ref stop : ℕ) : Request → Prop
  | string data => readBytes m ref data.length = data ∧ (data.length % 2 = 1 → m (ref + data.length) = 0)
  | _ => ∀ x, ref ≤ x → x < stop → m x = 0

end Request

/-- `s'` is `s` with one block more, at the top of the heap. -/
structure Allocated (P : CompiledProgram) (r : Request) (s : VM W) (bs : List ℕ) (ref : ℕ)
    (s' : VM W) : Prop where
  ref_eq : ref = s.heapPtr + HEADER_BYTES
  heapPtr : s'.heapPtr = ref + r.payload P
  tiled : HeapTiled P s' (bs ++ [s.heapPtr])
  kind : kind s'.heap s.heapPtr = r.kind
  detail : detail s'.heap s.heapPtr = r.detail P
  filled : r.Filled s'.heap ref s'.heapPtr
  frame : ∀ x, x < s.heapPtr → s'.heap x = s.heap x
  rest : ∃ m, s' = { s with
    heap := m, heapPtr := s'.heapPtr
    stats := { s.stats with objectsAllocated := s.stats.objectsAllocated + 1 } }

/-- The heap an allocation bumps: the one it found, or what a collection left of it. -/
def Settled (P : CompiledProgram) (s : VM W) (bs : List ℕ) (s₁ : VM W) (bs₁ : List ℕ) : Prop :=
  s₁ = s ∧ bs₁ = bs ∨ ∃ live, s.collect P = .ok s₁ ∧ Collected P s s₁ bs live ∧
    bs₁ = live.map (destOf P s.heap live)

/-- The blocks reachable from the roots, in address order. -/
noncomputable def reachableBlocks (P : CompiledProgram) (s : VM W) (bs : List ℕ) : List ℕ :=
  open Classical in bs.filter fun b => Reachable P s.heap bs (s.roots P) b

/-- Bytes of the blocks reachable from the roots, headers included. -/
noncomputable def reachableBytes (P : CompiledProgram) (s : VM W) (bs : List ℕ) : ℕ :=
  ((reachableBlocks P s bs).map (blockBytes P s.heap)).sum

theorem Collected.live_eq (hc : Collected P s s' bs live) (h : HeapTiled P s bs) :
    live = reachableBlocks P s bs := by
  classical
  have hs := h.blocks.tiles.sorted
  have hperm : live.Perm (reachableBlocks P s bs) := by
    refine (List.perm_ext_iff_of_nodup ?_ ?_).mpr fun b => ?_
    · exact h.blocks.tiles.nodup.sublist hc.sublist
    · exact h.blocks.tiles.nodup.sublist List.filter_sublist
    · rw [hc.mem_live, reachableBlocks, List.mem_filter, decide_eq_true_eq]
  exact hperm.eq_of_pairwise (fun a b _ _ h1 h2 => by omega) (hs.sublist hc.sublist)
    (hs.sublist List.filter_sublist)

theorem Collected.heapPtr_eq (hc : Collected P s s' bs live) (h : HeapTiled P s bs) :
    s'.heapPtr = HEAP_START + reachableBytes P s bs := by
  rw [hc.heapPtr, packEnd, hc.live_eq h, reachableBytes]

theorem HeapTiled.settled (hc : Settled P s bs s₁ bs₁) (h : HeapTiled P s bs) :
    HeapTiled P s₁ bs₁ := by
  rcases hc with ⟨rfl, rfl⟩ | ⟨live, -, hc, rfl⟩
  · exact h
  · exact hc.tiled

theorem Settled.heapSize (hc : Settled P s bs s₁ bs₁) : s₁.heapSize = s.heapSize := by
  rcases hc with ⟨rfl, rfl⟩ | ⟨live, -, hc, rfl⟩
  · rfl
  · exact hc.rest.2.2.2.1

/-- A heap stays tiled whatever is written to payloads. -/
theorem HeapTiled.write (h : HeapTiled P s bs) (ha : HeadersAgree bs s.heap s'.heap)
    (hp : s'.heapPtr = s.heapPtr) (hs : s'.heapSize = s.heapSize) : HeapTiled P s' bs := by
  refine ⟨by rw [hp, hs]; exact h.fits, ?_, fun b hb => (ha.isMarked hb).trans (h.unmarked b hb)⟩
  rw [hp]
  exact h.blocks.congr ha.sameHeaders

theorem roundPayload_ge (n : ℕ) : MIN_PAYLOAD ≤ roundPayload n ∧ n ≤ roundPayload n := by
  unfold roundPayload MIN_PAYLOAD
  simp only
  split_ifs <;> omega

theorem readWord_writeHeader {m : Mem} {hdr k d : ℕ} (hk : k < 65536) (hd : d < 65536) :
    readWord (writeHeader m hdr k d) hdr = k ∧ readWord (writeHeader m hdr k d) (hdr + 2) = d := by
  unfold writeHeader
  rw [readWord_writeWord_frame _ (Or.inl le_rfl), readWord_writeWord_of_lt _ hk,
    readWord_writeWord_of_lt _ hd]
  exact ⟨rfl, rfl⟩

theorem writeHeader_frame {m : Mem} {hdr k d x : ℕ} (h : x < hdr ∨ hdr + HEADER_BYTES ≤ x) :
    writeHeader m hdr k d x = m x := by
  simp only [HEADER_BYTES] at h
  rw [writeHeader, writeWord_frame _ (by omega), writeWord_frame _ (by omega)]

/-- A bump that finds room appends one block whose header is the request's. -/
theorem bump_spec (h : HeapTiled P s bs) {payload k d ref : ℕ} (hk : k ≤ KIND_VALARRAY) (hd : d < 65536)
    (hshape : ∀ m hdr, kind m hdr = k → detail m hdr = d →
      BlockShape P m hdr ∧ payloadBytes P m hdr = payload)
    (hb : s.bump payload k d = some (ref, s')) :
    ref = s.heapPtr + HEADER_BYTES ∧ s'.heapPtr = ref + payload ∧ s'.heapPtr ≤ s.heapSize ∧
      HeapTiled P s' (bs ++ [s.heapPtr]) ∧ kind s'.heap s.heapPtr = k ∧ detail s'.heap s.heapPtr = d ∧
      (∀ x, x < s.heapPtr → s'.heap x = s.heap x) ∧
      s' = { s with
        heap := s'.heap, heapPtr := s'.heapPtr
        stats := { s.stats with objectsAllocated := s.stats.objectsAllocated + 1 } } := by
  unfold VM.bump at hb
  simp only at hb
  split at hb
  · cases hb
  rename_i hroom
  obtain ⟨rfl, rfl⟩ := Prod.mk.inj (Option.some.inj hb)
  have hkb : k < MARK_BIT := by
    simp only [KIND_VALARRAY] at hk
    simp only [MARK_BIT]
    omega
  set m := writeHeader s.heap s.heapPtr k d with hm
  obtain ⟨hw, hw2⟩ := @readWord_writeHeader s.heap s.heapPtr k d
    (show k < 65536 by simp only [MARK_BIT] at hkb; omega) hd
  have hkind : kind m s.heapPtr = k := by rw [kind, hw, Nat.mod_eq_of_lt hkb]
  obtain ⟨hsh, hpay⟩ := hshape m s.heapPtr hkind hw2
  have hframe : ∀ x, x < s.heapPtr → m x = s.heap x := fun x hx => writeHeader_frame (Or.inl hx)
  have hagree : HeadersAgree bs s.heap m := by
    intro b hb x hl hr
    have := h.blocks.bounds hb
    simp only [HEADER_BYTES] at hr
    exact (hframe x (by omega)).symm
  have hstop : stopOf P m s.heapPtr = s.heapPtr + HEADER_BYTES + payload := by rw [stopOf, hpay]
  refine ⟨rfl, rfl, by simp only; omega, ⟨by simp only; omega, ⟨?_, ?_⟩, ?_⟩, hkind, hw2, hframe, rfl⟩
  · have ht := (h.blocks.congr hagree.sameHeaders).tiles
    have hlt : s.heapPtr < stopOf P m s.heapPtr := by
      rw [hstop]
      simp only [HEADER_BYTES]
      omega
    have := ht.snoc hlt
    rwa [hstop] at this
  · intro b hb
    rcases List.mem_append.mp hb with hb | hb
    · exact (h.blocks.congr hagree.sameHeaders).shape b hb
    · rw [List.mem_singleton.mp hb]
      exact hsh
  · intro b hb
    rcases List.mem_append.mp hb with hb | hb
    · exact (hagree.isMarked hb).trans (h.unmarked b hb)
    · rw [List.mem_singleton.mp hb]
      simp only [isMarked, decide_eq_false_iff_not]
      rw [hw]
      omega

theorem bump_none {payload k d : ℕ} (h : s.bump payload k d = none) :
    s.heapSize < s.heapPtr + HEADER_BYTES + payload := by
  unfold VM.bump at h
  simp only at h
  split at h
  · assumption
  · cases h

/-- Reserving either bumps a settled heap, or fails because even what is reachable
leaves no room. -/
theorem reserve_cases (hP : TablesOk P) (h : HeapTiled P s bs) (payload k d : ℕ) :
    (∃ s₁ bs₁ r, s.reserve P payload k d = .ok r ∧ Settled P s bs s₁ bs₁ ∧
      s₁.bump (roundPayload payload) k d = some r) ∨
    (s.reserve P payload k d = .error (.vmError "Heap out of memory") ∧
      s.heapSize < HEAP_START + reachableBytes P s bs + HEADER_BYTES + roundPayload payload) := by
  unfold VM.reserve
  cases hb : s.bump (roundPayload payload) k d with
  | some r => exact Or.inl ⟨s, bs, r, by simp [hb], Or.inl ⟨rfl, rfl⟩, hb⟩
  | none =>
    obtain ⟨s₁, live, hok, hc⟩ := collect_spec hP.stackMaps h
    cases hb₁ : s₁.bump (roundPayload payload) k d with
    | some r =>
      exact Or.inl ⟨s₁, _, r, by simp [hb, hok, hb₁], Or.inr ⟨live, hok, hc, rfl⟩, hb₁⟩
    | none =>
      refine Or.inr ⟨by simp [hb, hok, hb₁], ?_⟩
      have := bump_none hb₁
      rwa [hc.heapPtr_eq h, hc.rest.2.2.2.1] at this

/-- The requests the allocator tries to serve. -/
def Request.Accepted (P : CompiledProgram) : Request → Prop
  | .struct typeId => typeId < P.structs.length
  | .array count _ => 0 ≤ count ∧ count ≤ 0x7FFF
  | .raw size => 0 ≤ size
  | .string data => data.length ≤ 0x7FFF

theorem roundPayload_even {n : ℕ} (h : n % 2 = 0) : roundPayload n = max n MIN_PAYLOAD := by
  unfold roundPayload MIN_PAYLOAD
  simp only
  split_ifs <;> omega

theorem roundPayload_pad (n : ℕ) : roundPayload n = max (n + n % 2) MIN_PAYLOAD := by
  unfold roundPayload MIN_PAYLOAD
  simp only
  split_ifs <;> omega

/-- A header written for an accepted request describes the block that was made. -/
theorem Request.shape (hP : TablesOk P) {r : Request} (hr : r.Accepted P) (m : Mem) (hdr : ℕ)
    (hk : QuinLang.kind m hdr = r.kind) (hd : QuinLang.detail m hdr = r.detail P) :
    BlockShape P m hdr ∧ payloadBytes P m hdr = r.payload P := by
  cases r with
  | struct typeId =>
    simp only [Request.kind, Request.detail] at hk hd
    obtain ⟨l, hl, hwf⟩ := hP.layouts _ (List.getElem_mem hr)
    have hget : P.structs[typeId]? = some (some l) := by rw [List.getElem?_eq_getElem hr, hl]
    refine ⟨⟨by simp [hk, KIND_STRUCT], fun _ => ⟨l, by rw [hd, hget], hwf⟩,
      fun h => absurd (hk.symm.trans h) (by decide)⟩, ?_⟩
    rw [payloadBytes, payloadSize, if_pos hk, hd, hget]
    simp only [Request.payload, hget, Option.join_some, Option.elim]
    rw [roundPayload_even (by omega)]
  | array count holdsRefs =>
    simp only [Request.kind, Request.detail] at hk hd
    have hk' : QuinLang.kind m hdr = KIND_REFARRAY ∨ QuinLang.kind m hdr = KIND_VALARRAY := by
      cases holdsRefs
      · exact Or.inr hk
      · exact Or.inl hk
    have hne : QuinLang.kind m hdr ≠ KIND_STRUCT ∧ QuinLang.kind m hdr ≠ KIND_RAW := by
      rcases hk' with h | h <;> (rw [h]; decide)
    refine ⟨⟨hk'.elim (fun h => by rw [h]; decide) Eq.le, fun h => absurd h hne.1,
      fun h => absurd h hne.2⟩, ?_⟩
    rw [payloadBytes, payloadSize, if_neg hne.1, if_pos hk', hd]
    simp only [Request.payload]
    rw [roundPayload_even (by omega)]
  | raw size =>
    simp only [Request.kind, Request.detail] at hk hd
    have hpay : payloadBytes P m hdr = Request.payload P (.raw size) := by
      rw [payloadBytes, payloadSize, hk, hd]
      rfl
    refine ⟨⟨by rw [hk]; decide, fun h => absurd (hk.symm.trans h) (by decide), fun _ => ?_⟩, hpay⟩
    rw [hd]
    refine ⟨(roundPayload_ge _).1, ?_⟩
    simp only [Request.payload, roundPayload_pad, MIN_PAYLOAD]
    omega
  | string data =>
    simp only [Request.kind, Request.detail] at hk hd
    refine ⟨⟨by rw [hk]; decide, fun h => absurd (hk.symm.trans h) (by decide),
      fun h => absurd (hk.symm.trans h) (by decide)⟩, ?_⟩
    rw [payloadBytes, payloadSize, hk, hd]
    simp only [Request.payload, roundPayload_pad]
    rfl

theorem Request.kind_le (r : Request) : r.kind ≤ KIND_VALARRAY := by
  cases r with
  | array count holdsRefs => cases holdsRefs <;> simp [Request.kind, KIND_REFARRAY, KIND_VALARRAY]
  | _ => simp [Request.kind, KIND_STRUCT, KIND_RAW, KIND_STRING, KIND_VALARRAY]

/-- A request that found room has a detail that fits its header word. -/
theorem Request.detail_lt (hP : TablesOk P) {r : Request} (hr : r.Accepted P)
    (hroom : r.payload P < 65536) : r.detail P < 65536 := by
  cases r with
  | struct typeId =>
    have := hP.typeIds
    simp only [Request.Accepted] at hr
    simp only [Request.detail]
    omega
  | array count holdsRefs =>
    simp only [Request.Accepted] at hr
    simp only [Request.detail]
    omega
  | raw size => exact hroom
  | string data =>
    simp only [Request.Accepted] at hr
    simp only [Request.detail]
    omega

theorem Allocated.of_bump (hP : TablesOk P) (h : HeapTiled P s bs) (hsize : s.heapSize ≤ 65536)
    {r : Request} (hr : r.Accepted P) {ref : ℕ}
    (hb : s.bump (r.payload P) r.kind (r.detail P) = some (ref, s')) {m : Mem}
    (hm : ∀ x, x < ref ∨ s'.heapPtr ≤ x → m x = s'.heap x) (hf : r.Filled m ref s'.heapPtr) :
    Allocated P r s bs ref { s' with heap := m } := by
  have hroom : r.payload P < 65536 := by
    by_contra hge
    unfold VM.bump at hb
    simp only [gt_iff_lt, HEADER_BYTES] at hb
    rw [if_pos (by omega)] at hb
    cases hb
  obtain ⟨hr1, hr2, hr3, ht, hk, hd, hfr, hrest⟩ :=
    bump_spec h r.kind_le (r.detail_lt hP hr hroom) (fun m hdr => r.shape hP hr m hdr) hb
  have hagree : Agree s'.heap m s.heapPtr (s.heapPtr + HEADER_BYTES) := fun x h1 h2 =>
    (hm x (Or.inl (by omega))).symm
  refine ⟨hr1, hr2, ht.write ?_ rfl rfl, ?_, ?_, hf, ?_, ⟨m, ?_⟩⟩
  · intro b hb x h1 h2
    refine (hm x (Or.inl ?_)).symm
    rcases List.mem_append.mp hb with hb | hb
    · have := h.blocks.bounds hb
      simp only [HEADER_BYTES] at *
      omega
    · rw [List.mem_singleton.mp hb] at h2
      omega
  · rw [← hk, QuinLang.kind, QuinLang.kind, hagree.readWord le_rfl (by simp [HEADER_BYTES])]
  · rw [← hd, QuinLang.detail, QuinLang.detail,
      hagree.readWord (by omega) (by simp [HEADER_BYTES])]
  · intro x hx
    show m x = s.heap x
    rw [hm x (Or.inl (by omega)), hfr x hx]
  · rw [hrest]

theorem fill_words_frame {m : Mem} {addr n x : ℕ} (h : x < addr ∨ addr + (n + n % 2) ≤ x) :
    fill m 0 (wordsFrom addr n) x = m x := by
  refine fill_frame m 0 fun a ha => ?_
  obtain ⟨i, hi, rfl⟩ := List.mem_map.mp ha
  have := List.mem_range.mp hi
  omega

theorem fill_words_zero {m : Mem} {addr n x : ℕ} (h : addr ≤ x) (h' : x < addr + n) :
    fill m 0 (wordsFrom addr n) x = 0 := by
  refine fill_zero_at m ⟨addr + (x - addr) / 2 * 2, ?_, by omega, by omega⟩
  exact List.mem_map.mpr ⟨(x - addr) / 2, List.mem_range.mpr (by omega), rfl⟩

/-- Reserving for a request and then filling the payload serves the request. -/
theorem reserve_filled (hP : TablesOk P) (h : HeapTiled P s bs) (hsize : s.heapSize ≤ 65536)
    {r : Request} (hr : r.Accepted P) {payload : ℕ} (hpay : roundPayload payload = r.payload P)
    (filler : ℕ → Mem → Mem)
    (hframe : ∀ addr m x, x < addr ∨ addr + r.payload P ≤ x → filler addr m x = m x)
    (hfill : ∀ addr m, r.Filled (filler addr m) addr (addr + r.payload P)) :
    (∃ ref s₂ s₁ bs₁, s.reserve P payload r.kind (r.detail P) = .ok (ref, s₂) ∧
      Settled P s bs s₁ bs₁ ∧ Allocated P r s₁ bs₁ ref { s₂ with heap := filler ref s₂.heap }) ∨
    (s.reserve P payload r.kind (r.detail P) = .error (.vmError "Heap out of memory") ∧
      s.heapSize < HEAP_START + reachableBytes P s bs + HEADER_BYTES + r.payload P) := by
  rcases reserve_cases hP h payload r.kind (r.detail P) with ⟨s₁, bs₁, ⟨ref, s₂⟩, hok, hset, hb⟩ | hoom
  · rw [hpay] at hb
    have htop : s₂.heapPtr = ref + r.payload P := by
      unfold VM.bump at hb
      simp only at hb
      split at hb
      · cases hb
      · obtain ⟨rfl, rfl⟩ := Prod.mk.inj (Option.some.inj hb)
        rfl
    refine Or.inl ⟨ref, s₂, s₁, bs₁, hok, hset, ?_⟩
    refine .of_bump hP (h.settled hset) (by rw [hset.heapSize]; exact hsize) hr hb ?_ ?_
    · intro x hx
      rw [htop] at hx
      exact hframe ref s₂.heap x hx
    · rw [htop]
      exact hfill ref s₂.heap
  · rw [hpay] at hoom
    exact Or.inr hoom

theorem fill_words_filled {m : Mem} {addr n x : ℕ} (hn : n % 2 = 0) :
    (x < addr ∨ addr + n ≤ x → fill m 0 (wordsFrom addr n) x = m x) ∧
      (addr ≤ x → x < addr + n → fill m 0 (wordsFrom addr n) x = 0) :=
  ⟨fun h => fill_words_frame (by omega), fill_words_zero⟩

/-- The bytes of a string followed by its padding. -/
theorem write_string_spec {m : Mem} {addr : ℕ} {data : List UInt8} :
    let m' := if data.length % 2 = 1 then writeBytes (writeBytes m addr data) (addr + data.length) [0]
      else writeBytes m addr data
    (∀ x, x < addr ∨ addr + roundPayload data.length ≤ x → m' x = m x) ∧
      readBytes m' addr data.length = data ∧ (data.length % 2 = 1 → m' (addr + data.length) = 0) := by
  have hround := roundPayload_pad data.length
  simp only [MIN_PAYLOAD] at hround
  simp only
  split_ifs with hodd
  · refine ⟨fun x hx => ?_, ?_, fun _ => ?_⟩
    · rw [writeBytes_frame _ (by simp only [List.length_singleton]; omega),
        writeBytes_frame _ (by omega)]
    · have hag : Agree (writeBytes m addr data)
          (writeBytes (writeBytes m addr data) (addr + data.length) [0]) addr (addr + data.length) :=
        fun x _ h => (writeBytes_frame _ (Or.inl h)).symm
      rw [← hag.readBytes le_rfl le_rfl, readBytes_writeBytes]
    · simp [writeBytes]
  · exact ⟨fun x hx => writeBytes_frame _ (by omega), readBytes_writeBytes m addr data,
      fun h => absurd h hodd⟩

/-- An accepted request adds exactly the block asked for, or runs out of memory
because even what is reachable leaves no room for it. -/
theorem allocate_accepted (hP : TablesOk P) (h : HeapTiled P s bs) (hsize : s.heapSize ≤ 65536)
    {r : Request} (hr : r.Accepted P) :
    (∃ ref s' s₁ bs₁, s.allocate P r = .ok (ref, s') ∧ Settled P s bs s₁ bs₁ ∧
      Allocated P r s₁ bs₁ ref s') ∨
    (s.allocate P r = .error (.vmError "Heap out of memory") ∧
      s.heapSize < HEAP_START + reachableBytes P s bs + HEADER_BYTES + r.payload P) := by
  cases r with
  | struct typeId =>
    obtain ⟨l, hl, -⟩ := hP.layouts _ (List.getElem_mem hr)
    have hget : P.structs[typeId]? = some (some l) := by rw [List.getElem?_eq_getElem hr, hl]
    have hpay : roundPayload (l.wordSize * 2) = Request.payload P (.struct typeId) := by
      simp [Request.payload, hget]
    have hround : Request.payload P (.struct typeId) = max (l.wordSize * 2) MIN_PAYLOAD := by
      rw [← hpay, roundPayload_even (by omega)]
    have heven : max (l.wordSize * 2) MIN_PAYLOAD % 2 = 0 := by simp only [MIN_PAYLOAD]; omega
    rcases reserve_filled hP h hsize hr hpay
      (fun addr m => fill m 0 (wordsFrom addr (max (l.wordSize * 2) MIN_PAYLOAD)))
      (fun addr m x hx => (fill_words_filled heven).1 (by rwa [hround] at hx))
      (fun addr m x h1 h2 => (fill_words_filled heven).2 h1 (by rwa [hround] at h2))
      with ⟨ref, s₂, s₁, bs₁, hok, hset, hal⟩ | ⟨herr, hlt⟩
    · refine Or.inl ⟨ref, _, s₁, bs₁, ?_, hset, hal⟩
      simp only [Request.kind, Request.detail] at hok
      simp only [VM.allocate, VM.allocStruct, hget, hok]
    · refine Or.inr ⟨?_, hlt⟩
      simp only [Request.kind, Request.detail] at herr
      simp only [VM.allocate, VM.allocStruct, hget, herr]
  | array count holdsRefs =>
    obtain ⟨h0, h1⟩ := hr
    have hround : Request.payload P (.array count holdsRefs) = max (count.toNat * 2) MIN_PAYLOAD := by
      rw [Request.payload, roundPayload_even (by omega)]
    have heven : max (count.toNat * 2) MIN_PAYLOAD % 2 = 0 := by simp only [MIN_PAYLOAD]; omega
    rcases reserve_filled hP h hsize (r := .array count holdsRefs) ⟨h0, h1⟩ rfl
      (fun addr m => fill m 0 (wordsFrom addr (max (count.toNat * 2) MIN_PAYLOAD)))
      (fun addr m x hx => (fill_words_filled heven).1 (by rwa [hround] at hx))
      (fun addr m x h1 h2 => (fill_words_filled heven).2 h1 (by rwa [hround] at h2))
      with ⟨ref, s₂, s₁, bs₁, hok, hset, hal⟩ | ⟨herr, hlt⟩
    · refine Or.inl ⟨ref, _, s₁, bs₁, ?_, hset, hal⟩
      simp only [Request.kind, Request.detail] at hok
      simp only [VM.allocate, VM.allocArray, if_neg (not_lt.mpr h0), gt_iff_lt,
        if_neg (not_lt.mpr h1), hok]
    · refine Or.inr ⟨?_, hlt⟩
      simp only [Request.kind, Request.detail] at herr
      simp only [VM.allocate, VM.allocArray, if_neg (not_lt.mpr h0), gt_iff_lt,
        if_neg (not_lt.mpr h1), herr]
  | raw size =>
    have hrr : roundPayload (roundPayload size.toNat) = roundPayload size.toNat := by
      simp only [roundPayload_pad, MIN_PAYLOAD]
      omega
    have hcode : max (if size.toNat % 2 = 1 then size.toNat + 1 else size.toNat) MIN_PAYLOAD =
        roundPayload size.toNat := by
      simp only [roundPayload_pad, MIN_PAYLOAD]
      split_ifs <;> omega
    have heven : roundPayload size.toNat % 2 = 0 := by
      simp only [roundPayload_pad, MIN_PAYLOAD]
      omega
    rcases reserve_filled hP h hsize (r := .raw size) hr hrr
      (fun addr m => fill m 0 (wordsFrom addr (roundPayload size.toNat)))
      (fun addr m x hx => (fill_words_filled heven).1 hx)
      (fun addr m x h1 h2 => (fill_words_filled heven).2 h1 h2)
      with ⟨ref, s₂, s₁, bs₁, hok, hset, hal⟩ | ⟨herr, hlt⟩
    · refine Or.inl ⟨ref, _, s₁, bs₁, ?_, hset, hal⟩
      simp only [Request.kind, Request.detail, Request.payload] at hok
      simp only [VM.allocate, VM.allocRaw, if_neg (not_lt.mpr hr), hcode, hok]
    · refine Or.inr ⟨?_, hlt⟩
      simp only [Request.kind, Request.detail, Request.payload] at herr
      simp only [VM.allocate, VM.allocRaw, if_neg (not_lt.mpr hr), hcode, herr]
  | string data =>
    have hlen : ¬ data.length > 0x7FFF := not_lt.mpr hr
    rcases reserve_filled hP h hsize (r := .string data) hr rfl
      (fun addr m =>
        if data.length % 2 = 1 then writeBytes (writeBytes m addr data) (addr + data.length) [0]
        else writeBytes m addr data)
      (fun addr m x hx => write_string_spec.1 x hx)
      (fun addr m => write_string_spec.2)
      with ⟨ref, s₂, s₁, bs₁, hok, hset, hal⟩ | ⟨herr, hlt⟩
    · refine Or.inl ⟨ref, _, s₁, bs₁, ?_, hset, hal⟩
      simp only [Request.kind, Request.detail] at hok
      simp only [VM.allocate, VM.allocString, if_neg hlen, hok]
    · refine Or.inr ⟨?_, hlt⟩
      simp only [Request.kind, Request.detail] at herr
      simp only [VM.allocate, VM.allocString, if_neg hlen, herr]

theorem toString_text (t : String) : toString t = t := rfl

/-- Any other request is refused with a message of its own. -/
theorem allocate_refused {r : Request} (hr : ¬ r.Accepted P) :
    ∃ msg, s.allocate P r = .error (.vmError msg) ∧ msg ≠ "Heap out of memory" := by
  cases r with
  | struct typeId =>
    simp only [Request.Accepted, not_lt] at hr
    refine ⟨_, by simp only [VM.allocate, VM.allocStruct, List.getElem?_eq_none hr]; rfl, ?_⟩
    intro h
    simpa [toString_text] using congrArg (fun t => t.toList.head?) h
  | array count holdsRefs =>
    simp only [Request.Accepted, not_and, not_le] at hr
    by_cases h0 : count < 0
    · refine ⟨_, by simp only [VM.allocate, VM.allocArray, if_pos h0]; rfl, fun h => ?_⟩
      simpa [toString_text] using congrArg (fun t => t.toList.head?) h
    · refine ⟨_, by simp only [VM.allocate, VM.allocArray, if_neg h0, gt_iff_lt, if_pos (hr (by omega))]; rfl,
        fun h => ?_⟩
      simpa [toString_text] using congrArg (fun t => t.toList.head?) h
  | raw size =>
    simp only [Request.Accepted, not_le] at hr
    refine ⟨_, by simp only [VM.allocate, VM.allocRaw, if_pos hr]; rfl, fun h => ?_⟩
    simpa [toString_text] using congrArg (fun t => t.toList.head?) h
  | string data =>
    simp only [Request.Accepted, not_le] at hr
    refine ⟨_, by simp only [VM.allocate, VM.allocString, gt_iff_lt, if_pos hr]; rfl, fun h => ?_⟩
    simpa [toString_text] using congrArg (fun t => t.toList.head?) h

end QuinLang
