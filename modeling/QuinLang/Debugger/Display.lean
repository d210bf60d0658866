import QuinLang.Compiler.Spelling
import QuinLang.Debugger.Transparency
import QuinLang.Runtime.FloatText
import QuinLang.Runtime.StraightLine

/-! Displaying a value ends: the cap bounds how deep structs are opened, and a type has only
so many arrays in it. -/

namespace QuinLang.Debugger

section Answering

variable {W α β : Type} {s : VM W}

/-- A computation that leaves the machine as it is and answers with the property. -/
def Answers (x : Exec W α) (s : VM W) (Q : α → Prop) : Prop := ∃ a, x s = .ok (a, s) ∧ Q a

theorem answers_pure {a : α} {Q : α → Prop} (h : Q a) : Answers (pure a) s Q := ⟨a, rfl, h⟩

theorem Answers.bind {x : Exec W α} {f : α → Exec W β} {Q : α → Prop} {R : β → Prop} (hx : Answers x s Q)
    (hf : ∀ a, x s = .ok (a, s) → Q a → Answers (f a) s R) : Answers (x >>= f) s R := by
  obtain ⟨a, ha, hQ⟩ := hx
  obtain ⟨b, hb, hR⟩ := hf a ha hQ
  exact ⟨b, (StateExcept.bind_eq ha).trans hb, hR⟩

theorem Answers.imp {x : Exec W α} {Q R : α → Prop} (hx : Answers x s Q) (h : ∀ a, Q a → R a) : Answers x s R := by
  obtain ⟨a, ha, hQ⟩ := hx
  exact ⟨a, ha, h a hQ⟩

theorem answers_mapM {f : α → Exec W β} {Q : β → Prop} {xs : List α} (h : ∀ a ∈ xs, Answers (f a) s Q) :
    Answers (xs.mapM f) s fun bs => ∀ b ∈ bs, Q b := by
  induction xs with
  | nil => exact answers_pure (by simp)
  | cons x xs ih =>
    rw [List.mapM_cons]
    refine (h x List.mem_cons_self).bind fun b _ hb => ?_
    refine (ih fun a ha => h a (List.mem_cons_of_mem x ha)).bind fun bs _ hbs => answers_pure ?_
    exact List.forall_mem_cons.mpr ⟨hb, hbs⟩

theorem answers_recover {x : Exec W α} {caught : Fault → Bool} {other : α} {Q : α → Prop}
    (h : Answers x s Q ∨ ∃ e, x s = .error e ∧ caught e = true) (hother : Q other) : Answers (recover caught other x) s Q := by
  rcases h with ⟨a, ha, hQ⟩ | ⟨e, he, hcaught⟩
  · exact ⟨a, by rw [recover, ha], hQ⟩
  · exact ⟨other, by rw [recover, he]; exact if_pos hcaught, hother⟩

theorem readHeap_cases (addr : ℕ) (s : VM W) :
    (∃ w, readHeap addr s = .ok (w, s)) ∨ readHeap addr s = .error (.host "IndexError") := by
  change (∃ w, (if addr + 1 < s.heapSize then (pure (ByteMem.readWord s.heap addr) : Exec W ℕ) else raise "IndexError") s = .ok (w, s)) ∨
    (if addr + 1 < s.heapSize then (pure (ByteMem.readWord s.heap addr) : Exec W ℕ) else raise "IndexError") s = _
  split
  · exact .inl ⟨_, rfl⟩
  · exact .inr rfl

/-- Whatever is wrong with an object is a fault or an index outside the heap. -/
theorem arrayAt_cases (ref : ℕ) (opName : String) (s : VM W) :
    (∃ found, arrayAt ref opName s = .ok (found, s)) ∨ ∃ message, arrayAt ref opName s = .error (.vmError message) := by
  by_cases hnull : ref = NULL_ADDR
  · exact .inr ⟨s!"Null reference in {opName}", by rw [arrayAt, if_pos hnull]; rfl⟩
  · rw [arrayAt, if_neg hnull]
    cases hhdr : headerOf ref with
    | none => exact .inr ⟨_, rfl⟩
    | some hdr =>
      change (∃ found, (if kind s.heap hdr = KIND_REFARRAY ∨ kind s.heap hdr = KIND_VALARRAY then
          (pure (detail s.heap hdr, kind s.heap hdr == KIND_REFARRAY) : Exec W (ℕ × Bool))
        else fault s!"Value at {ref} is not an array") s = .ok (found, s)) ∨
        ∃ message, (if kind s.heap hdr = KIND_REFARRAY ∨ kind s.heap hdr = KIND_VALARRAY then
          (pure (detail s.heap hdr, kind s.heap hdr == KIND_REFARRAY) : Exec W (ℕ × Bool))
        else fault s!"Value at {ref} is not an array") s = .error (.vmError message)
      split
      · exact .inl ⟨_, rfl⟩
      · exact .inr ⟨_, rfl⟩

theorem stringText_cases (addr : ℕ) (s : VM W) :
    (∃ text, stringText addr s = .ok (text, s)) ∨ ∃ message, stringText addr s = .error (.vmError message) := by
  have hbytes : (∃ bytes, stringBytes addr s = .ok (bytes, s)) ∨ ∃ message, stringBytes addr s = .error (.vmError message) := by
    by_cases hnull : addr = NULL_ADDR
    · exact .inr ⟨"Null pointer dereference on a string", by rw [stringBytes, if_pos hnull]; rfl⟩
    · rw [stringBytes, if_neg hnull]
      cases hhdr : headerOf addr with
      | none => exact .inr ⟨_, rfl⟩
      | some hdr =>
        change (∃ bytes, (if kind s.heap hdr ≠ KIND_STRING then fault s!"Value at {addr} is not a string"
          else (pure (ByteMem.readBytes s.heap addr (min (detail s.heap hdr) (s.heapSize - addr))) : Exec W (List UInt8))) s =
            .ok (bytes, s)) ∨
          ∃ message, (if kind s.heap hdr ≠ KIND_STRING then fault s!"Value at {addr} is not a string"
            else (pure (ByteMem.readBytes s.heap addr (min (detail s.heap hdr) (s.heapSize - addr))) : Exec W (List UInt8))) s =
              .error (.vmError message)
        split
        · exact .inr ⟨_, rfl⟩
        · exact .inl ⟨_, rfl⟩
  rcases hbytes with ⟨bytes, hbytes⟩ | ⟨message, hbytes⟩
  · exact .inl ⟨ofLatin1 bytes, StateExcept.bind_eq hbytes⟩
  · exact .inr ⟨message, StateExcept.bind_error hbytes⟩

/-- The layout of an object is one of the program's, if there is one. -/
theorem answers_layoutAt (P : CompiledProgram) (ref : ℕ) :
    Answers (layoutAt P ref) s fun layout => ∀ l, layout = some l → some l ∈ P.structs := by
  have hnone : ∀ l : StructLayout, none = some l → some l ∈ P.structs := fun l hl => by cases hl
  rw [layoutAt]
  split
  · exact answers_pure hnone
  · refine answers_recover ?_ hnone
    rcases readHeap_cases (ref - HEADER_BYTES) s with ⟨w, hw⟩ | hout
    · rw [Answers, StateExcept.bind_eq hw]
      by_cases hkind : w % MARK_BIT ≠ KIND_STRUCT
      · rw [if_pos hkind]
        exact .inl (answers_pure hnone)
      · rw [if_neg hkind]
        rcases readHeap_cases (ref - HEADER_BYTES + 2) s with ⟨w', hw'⟩ | hout
        · refine .inl ⟨_, StateExcept.bind_eq hw', fun l hl => ?_⟩
          exact List.mem_of_getElem? (Option.join_eq_some_iff.mp hl)
        · exact .inr ⟨_, StateExcept.bind_error hout, rfl⟩
    · exact .inr ⟨_, StateExcept.bind_error hout, rfl⟩

theorem endsWith_iff {pat text : String} : text.endsWith pat = true ↔ pat.toList <:+ text.toList := by
  change text.toSlice.endsWith pat = true ↔ _
  rw [String.Slice.endsWith_string_iff, String.copy_toSlice]

/-- Each result of a computation for all of a list is that for one of its members. -/
theorem mapM_ok {f : α → Exec W β} (hf : ∀ a, Reads (f a)) {xs : List α} {bs : List β} {s' : VM W}
    (h : xs.mapM f s = .ok (bs, s')) : ∀ a ∈ xs, ∃ b ∈ bs, f a s = .ok (b, s) := by
  induction xs generalizing bs s' with
  | nil => exact List.forall_mem_nil _
  | cons x xs ih =>
    rw [List.mapM_cons] at h
    obtain ⟨b, s₁, hb, h⟩ := StateExcept.bind_ok.mp h
    obtain ⟨bs', s₂, hbs, h⟩ := StateExcept.bind_ok.mp h
    obtain ⟨rfl, -⟩ := Prod.mk.inj (StateExcept.pure_ok.mp h)
    obtain rfl := hf x s b s₁ hb
    refine List.forall_mem_cons.mpr ⟨⟨b, List.mem_cons_self, hb⟩, fun a ha => ?_⟩
    obtain ⟨b', hmem, hb'⟩ := ih hbs a ha
    exact ⟨b', List.mem_cons_of_mem _ hmem, hb'⟩

/-- No exception of the computation is one that an inspection catches. -/
def Passes (x : Exec W α) : Prop := ∀ s e, x s = .error e → isUnreadable e = false

theorem passes_pure (a : α) : Passes (pure a : Exec W α) := by
  intro s e h
  cases h

theorem Passes.bind {x : Exec W α} {f : α → Exec W β} (hx : Passes x) (hf : ∀ a, Passes (f a)) : Passes (x >>= f) := by
  intro s e h
  cases hxs : x s with
  | ok r => exact hf r.1 r.2 e ((StateExcept.bind_eq hxs).symm.trans h)
  | error e' =>
    obtain rfl := Except.error.inj ((StateExcept.bind_error hxs).symm.trans h)
    exact hx s e' hxs

theorem passes_mapM {f : α → Exec W β} (hf : ∀ a, Passes (f a)) (xs : List α) : Passes (xs.mapM f) := by
  induction xs with
  | nil => exact passes_pure []
  | cons x xs ih =>
    rw [List.mapM_cons]
    exact (hf x).bind fun b => ih.bind fun bs => passes_pure (b :: bs)

theorem passes_recover (other : α) (x : Exec W α) : Passes (recover isUnreadable other x) := by
  intro s e h
  unfold recover at h
  split at h
  · cases h
  · split at h
    · cases h
    · rename_i hcaught
      cases h
      simpa using hcaught

theorem Answers.passes {x : Exec W α} {Q : VM W → α → Prop} (h : ∀ s, Answers x s (Q s)) : Passes x := by
  intro s e he
  obtain ⟨a, ha, -⟩ := h s
  rw [ha] at he
  cases he

/-- A computation that was not interrupted. -/
theorem recover_ok {x : Exec W α} {other a : α} {s' : VM W} (h : recover isUnreadable other x s = .ok (a, s'))
    (hx : ∀ e, x s = .error e → isUnreadable e = false) : x s = .ok (a, s') := by
  unfold recover at h
  cases hxs : x s with
  | ok r =>
    rw [hxs] at h
    exact h
  | error e =>
    rw [hxs] at h
    simp only [hx e hxs] at h
    cases h

end Answering

section Floats

variable {W : Type} {F : FloatOps} {value : F.Fl} {s : VM W}

/-- No attempt at a text for the float overflows before one reads back. -/
def Printable (F : FloatOps) (value : F.Fl) : Prop :=
  ∀ d, 1 ≤ d → d ≤ 9 → F.pack (F.parse (F.formatG d value)) = none →
    ∃ d' bits, 1 ≤ d' ∧ d' < d ∧ F.pack (F.parse (F.formatG d' value)) = some bits ∧ F.eq (F.ofBits bits) value = true

theorem answers_shortest (h : Printable F value) {remaining d : ℕ} (hd : 1 ≤ d) (hend : d + remaining ≤ 10)
    (hbefore : ∀ d' bits, 1 ≤ d' → d' < d → F.pack (F.parse (F.formatG d' value)) = some bits → F.eq (F.ofBits bits) value ≠ true) :
    Answers (shortest F value remaining d) s fun _ => True := by
  induction remaining generalizing d with
  | zero => exact answers_pure trivial
  | succ remaining ih =>
    rw [shortest]
    cases hpack : F.pack (F.parse (F.formatG d value)) with
    | none =>
      obtain ⟨d', bits, hd', hlt, hpack', heq⟩ := h d hd (by omega) hpack
      exact absurd heq (hbefore d' bits hd' hlt hpack')
    | some bits =>
      dsimp only
      split
      · exact answers_pure trivial
      · next hne =>
        refine ih (by omega) (by omega) fun d' bits' hd' hlt hpack' => ?_
        obtain hlt | rfl := Nat.lt_succ_iff_lt_or_eq.mp hlt
        · exact hbefore d' bits' hd' hlt hpack'
        · rw [hpack] at hpack'
          cases hpack'
          exact hne

theorem answers_formatFloat (h : Printable F value) : Answers (formatFloat F value) s fun _ => True := by
  refine (answers_shortest h le_rfl (by omega) fun d' bits hd' hlt => by omega).bind fun text _ _ => ?_
  split
  · exact answers_pure trivial
  · exact answers_pure trivial

/-- Where an attempt overflows, one before it has read back. -/
theorem shortest_ok {remaining d : ℕ} {text : String} {s' : VM W} (h : shortest F value remaining d s = .ok (text, s')) {k : ℕ}
    (hd : d ≤ k) (hk : k < d + remaining) (hpack : F.pack (F.parse (F.formatG k value)) = none) :
    ∃ d' bits, d ≤ d' ∧ d' < k ∧ F.pack (F.parse (F.formatG d' value)) = some bits ∧ F.eq (F.ofBits bits) value = true := by
  induction remaining generalizing d with
  | zero => omega
  | succ remaining ih =>
    rw [shortest] at h
    cases hat : F.pack (F.parse (F.formatG d value)) with
    | none =>
      rw [hat] at h
      cases h
    | some bits =>
      have hne : d ≠ k := by
        rintro rfl
        rw [hat] at hpack
        cases hpack
      rw [hat] at h
      dsimp only at h
      split at h
      · next heq => exact ⟨d, bits, le_rfl, by omega, hat, heq⟩
      · obtain ⟨d', bits', hd', hlt, hpack', heq⟩ := ih h (by omega) (by omega)
        exact ⟨d', bits', by omega, hlt, hpack', heq⟩

theorem printable_of_ok {text : String} {s' : VM W} (h : formatFloat F value s = .ok (text, s')) : Printable F value := by
  obtain ⟨text', s₁, hshortest, -⟩ := StateExcept.bind_ok.mp h
  exact fun d hd hle hpack => shortest_ok hshortest hd (by omega) hpack

theorem passes_shortest (value : F.Fl) (remaining d : ℕ) : Passes (shortest F value remaining d : Exec W String) := by
  induction remaining generalizing d with
  | zero => exact passes_pure _
  | succ remaining ih =>
    rw [shortest]
    cases F.pack (F.parse (F.formatG d value)) with
    | none =>
      intro s e h
      cases h
      decide
    | some bits =>
      dsimp only
      split
      · exact passes_pure _
      · exact ih (d + 1)

theorem passes_describeFloat (F : FloatOps) (bits : ℕ) (typeName : String) : Passes (describeFloat F bits typeName : Exec W Value) := by
  refine ((passes_shortest (bitsToFloat F bits) 9 1).bind fun text => ?_).bind fun text => passes_pure _
  split
  · exact passes_pure _
  · exact passes_pure _

end Floats

section Showing

variable {W : Type} (P : CompiledProgram) (F : FloatOps) (frame : FrameView) (info : LocalInfo) (s : VM W)

/-- What comes before the bracket of a frame array's type. -/
def elementName (typeName : String) : String := String.ofList (typeName.toList.takeWhile (· ≠ '['))

/-- The slots of a local that are shown, and the types they are shown as. -/
def slotsOf : List (ℕ × String) :=
  if info.typeName.endsWith "]" then (List.range info.words).map fun i => (info.slot + i, elementName info.typeName)
  else [(info.slot, info.typeName)]

/-- What a word of a type leads to. -/
inductive Content
  | nothing
  | object
  | elements (typeName : String)

def contentOf (typeName : String) : Content :=
  if typeName ∈ ["bool", "str", "int", "heapptr", "ptr"] ∨ typeName.startsWith "fn(" then .nothing
  else
    match elementType typeName with
    | some element => .elements element
    | none => .object

mutual
/-- A word that a local shows, and the type it is shown as: that of a slot, or that of a
place on the heap. -/
inductive Shown : ℕ → String → Prop
  | slot {slot : ℕ} {typeName : String} (hslot : (slot, typeName) ∈ slotsOf info) (hword : typeName ≠ "float") :
      Shown (slotAt frame.locals slot) typeName
  | place {addr w : ℕ} {typeName : String} (h : Placed addr typeName) (hword : typeName ≠ "float")
      (hread : readHeap addr s = .ok (w, s)) : Shown w typeName

/-- An element of an array that is shown, or a field of an object that is. -/
inductive Placed : ℕ → String → Prop
  | element {ref i count : ℕ} {holdsRefs : Bool} {typeName element : String} (h : Shown ref typeName)
      (htype : contentOf typeName = .elements element) (hfound : arrayAt ref "print" s = .ok ((count, holdsRefs), s))
      (hi : i < min count ARRAY_PREVIEW) : Placed (ref + i * 2) element
  | field {ref : ℕ} {typeName : String} {layout : StructLayout} {field : FieldLayout} (h : Shown ref typeName)
      (htype : contentOf typeName = .object) (hlayout : layoutAt P ref s = .ok (some layout, s)) (hfield : field ∈ layout.fields) :
      Placed (ref + field.offset * 2) field.typeName
end

/-- The bits of a float that a local shows. -/
inductive ShownFloat : ℕ → Prop
  | slot {slot : ℕ} (hslot : (slot, "float") ∈ slotsOf info) : ShownFloat (slotAt frame.locals slot ||| slotAt frame.locals (slot + 1) <<< 16)
  | place {addr low high : ℕ} (h : Placed P frame info s addr "float") (hlow : readHeap addr s = .ok (low, s))
      (hhigh : readHeap (addr + 2) s = .ok (high, s)) : ShownFloat (low ||| high <<< 16)

/-- A type name that ends in a bracket opens it, as `int[3]` does, and what is before that is
no such name where there are elements to show. -/
def Bracketed : Prop :=
  info.typeName.endsWith "]" = true →
    '[' ∈ info.typeName.toList ∧ (0 < info.words → (elementName info.typeName).endsWith "]" = false)

/-- Every float that the local shows can be printed. -/
structure Displayable : Prop where
  bracketed : Bracketed info
  floats : ∀ bits, ShownFloat P frame info s bits → Printable F (bitsToFloat F bits)

/-- A type with at most so many arrays one inside another. -/
inductive NestsWithin : ℕ → String → Prop
  | word {k : ℕ} {typeName : String} (h : ∀ element, contentOf typeName ≠ .elements element) : NestsWithin k typeName
  | array {k : ℕ} {typeName element : String} (h : contentOf typeName = .elements element) (he : NestsWithin k element) :
      NestsWithin (k + 1) typeName

/-- The types written beside locals and fields nest at most so many arrays. -/
structure Shallow (N : ℕ) : Prop where
  locals : ∀ fn ∈ P.functions, ∀ info ∈ fn.locals, ∀ slot ∈ slotsOf info, NestsWithin N slot.2
  fields : ∀ layout, some layout ∈ P.structs → ∀ field ∈ layout.fields, NestsWithin N field.typeName

/-- A value all of whose parts are shown, with at most so many arrays one inside another. -/
inductive Within : ℕ → Value → Prop
  | leaf {k : ℕ} {value : Value} (hkind : value.kind ≠ .array)
      (h : value.address = 0 ∨ ∃ typeName, Shown P frame info s value.address typeName ∧ contentOf typeName = .object) : Within k value
  | array {k : ℕ} {value : Value} (hkind : value.kind = .array) (h : ∀ e ∈ value.elements, Within k e.2) : Within (k + 1) value

/-- The values a front end meets that opens a value, its children, and so on. -/
inductive Opened (value : Value) : Value → Prop
  | self : Opened value value
  | child {parent : Value} {children : List (String × Value)} {c : String × Value} (h : Opened value parent)
      (hchildren : childrenOf P F parent s = .ok (children, s)) (hc : c ∈ children) : Opened value c.2

/-- The local is formatted, and it and all that can be opened from it are described. -/
structure Displays : Prop where
  formats : ∃ text, formatLocal P F frame info s = .ok (text, s)
  describes : ∃ value, describeLocal P F frame info s = .ok (value, s) ∧
    ∀ v, Opened P F s value v → ∃ children, childrenOf P F v s = .ok (children, s)

end Showing

section Spelled

/-- A type none of whose names holds a closing bracket. -/
inductive Unbracketed : TypeName → Prop
  | named {n : String} (h : ']' ∉ n.toList) : Unbracketed (.named n)
  | frameArray (length : ℕ) : Unbracketed (.frameArray length)
  | app {base : String} {args : List TypeName} (h : ']' ∉ base.toList) (hargs : ∀ t ∈ args, Unbracketed t) : Unbracketed (.app base args)
  | fn {params : List TypeName} {ret : TypeName} (hparams : ∀ t ∈ params, Unbracketed t) (hret : Unbracketed ret) :
      Unbracketed (.fn params ret)

/-- An opening bracket comes before any that closes. -/
def Opens (cs : List Char) : Prop := ∀ xs ys, cs = xs ++ ']' :: ys → '[' ∈ xs

theorem opens_of_notMem {cs : List Char} (h : ']' ∉ cs) : Opens cs := by
  rintro xs ys rfl
  exact absurd (by simp) h

theorem opens_append {a b : List Char} (ha : Opens a) (hb : Opens b) : Opens (a ++ b) := by
  intro xs ys h
  obtain ⟨cs, rfl, hbs⟩ | ⟨cs, has, hys⟩ := List.append_eq_append_iff.mp h
  · exact List.mem_append_right a (hb cs ys hbs)
  · cases cs with
    | nil => exact absurd (hb [] ys hys.symm) List.not_mem_nil
    | cons c cs =>
      cases hys
      exact ha xs cs has

theorem opens_cons {a b : List Char} (ha : ']' ∉ a) : Opens (a ++ '[' :: b) := by
  intro xs ys h
  obtain ⟨cs, rfl, hbs⟩ | ⟨cs, has, hys⟩ := List.append_eq_append_iff.mp h
  · cases cs with
    | nil => exact absurd (List.cons.inj hbs).1 (by decide)
    | cons c cs =>
      cases hbs
      simp
  · cases cs with
    | nil => exact absurd (List.cons.inj hys).1 (by decide)
    | cons c cs =>
      cases hys
      exact absurd (by simp [has]) ha

theorem opens_join {ss : List (List Char)} (h : ∀ s ∈ ss, Opens s) : Opens (join ss) := by
  induction ss with
  | nil => exact opens_of_notMem List.not_mem_nil
  | cons s ss ih =>
    obtain ⟨hs, hss⟩ := List.forall_mem_cons.mp h
    cases ss with
    | nil =>
      rw [join_singleton]
      exact hs
    | cons t ss =>
      rw [join_cons]
      exact opens_append hs (opens_append (a := [',']) (opens_of_notMem (by simp)) (ih hss))

theorem Unbracketed.opens {n : TypeName} (h : Unbracketed n) : Opens n.letters := by
  induction h with
  | named h => exact opens_of_notMem h
  | frameArray length =>
    rw [TypeName.letters_frameArray]
    exact opens_cons (a := ['i', 'n', 't']) (by simp)
  | app hbase _ ih =>
    rw [TypeName.letters_app]
    refine opens_append (opens_of_notMem hbase) (opens_append (a := ['<']) (opens_of_notMem (by simp)) (opens_append (opens_join ?_)
      (opens_of_notMem (by simp))))
    intro s hs
    obtain ⟨t, ht, rfl⟩ := List.mem_map.mp hs
    exact ih t ht
  | fn _ _ ih hret =>
    rw [TypeName.letters_fn]
    refine opens_append (opens_of_notMem (by simp [FUNC_PREFIX])) (opens_append (opens_join ?_)
      (opens_append (a := [')', ':']) (opens_of_notMem (by simp)) hret))
    intro s hs
    obtain ⟨t, ht, rfl⟩ := List.mem_map.mp hs
    exact ih t ht

/-- The types that the compiler writes beside the locals are bracketed. -/
theorem Unbracketed.bracketed {n : TypeName} (h : Unbracketed n) {info : LocalInfo} (hinfo : info.typeName = n.spell) : Bracketed info := by
  intro hends
  rw [hinfo] at hends ⊢
  obtain ⟨xs, hxs⟩ := endsWith_iff.mp hends
  have hopen : '[' ∈ xs := h.opens xs [] hxs.symm
  refine ⟨hxs ▸ List.mem_append_left _ hopen, fun _ => ?_⟩
  rw [Bool.eq_false_iff, ne_eq, endsWith_iff, elementName]
  rintro ⟨ys, hys⟩
  have hbefore : ys ++ [']'] = n.spell.toList.takeWhile (· ≠ '[') := hys.trans String.toList_ofList
  have hmem : '[' ∈ ys := by
    refine h.opens ys (n.spell.toList.dropWhile (· ≠ '[')) ?_
    calc n.spell.toList = n.spell.toList.takeWhile (· ≠ '[') ++ n.spell.toList.dropWhile (· ≠ '[') := List.takeWhile_append_dropWhile.symm
      _ = ys ++ ']' :: n.spell.toList.dropWhile (· ≠ '[') := by rw [← hbefore, List.append_assoc]; rfl
  exact absurd (List.mem_takeWhile_imp (hbefore ▸ List.mem_append_left _ hmem)) (by decide)

end Spelled

section Describing

variable {W : Type} {P : CompiledProgram} {F : FloatOps} {frame : FrameView} {info : LocalInfo} {s : VM W} {N k : ℕ}

theorem Within.mono {j : ℕ} {value : Value} (h : Within P frame info s j value) : ∀ {k : ℕ}, j ≤ k → Within P frame info s k value := by
  induction h with
  | leaf hkind haddress => exact fun _ => .leaf hkind haddress
  | @array j value hkind helements ih =>
    intro k hle
    obtain ⟨k, rfl⟩ := Nat.exists_eq_succ_of_ne_zero (show k ≠ 0 by omega)
    exact .array hkind fun e he => ih e he (by omega)

theorem within_scalar (summary typeName : String) : Within P frame info s k (scalar summary typeName) :=
  .leaf (by simp [scalar, Value.kind]) (.inl rfl)

theorem answers_describeFloat {bits : ℕ} (h : Printable F (bitsToFloat F bits)) (typeName : String) :
    Answers (describeFloat F bits typeName) s (Within P frame info s k) :=
  (answers_formatFloat h).bind fun text _ _ => answers_pure (within_scalar text typeName)

theorem answers_describeObject {ref : ℕ} {typeName : String} (h : Shown P frame info s ref typeName) (htype : contentOf typeName = .object) :
    Answers (describeObject P ref typeName) s (Within P frame info s k) := by
  rw [describeObject]
  split
  · exact answers_pure (within_scalar _ _)
  · refine (answers_layoutAt P ref).bind fun layout _ _ => ?_
    cases layout with
    | none => exact answers_pure (within_scalar _ _)
    | some layout =>
      dsimp only
      split_ifs
      · exact answers_pure (.leaf (by simp [Value.kind]) (.inl rfl))
      · exact answers_pure (within_scalar _ _)
      · exact answers_pure (.leaf (by simp [Value.kind]) (.inr ⟨typeName, h, htype⟩))
      · exact answers_pure (.leaf (by simp [Value.kind]) (.inr ⟨typeName, h, htype⟩))

/-- A place is described as a word of its type is, if its float can be printed. -/
theorem answers_fieldWith (hD : Displayable P F frame info s) {describe : ℕ → String → Exec W Value} {addr : ℕ} {typeName : String}
    (h : Placed P frame info s addr typeName)
    (hdescribe : ∀ w, Shown P frame info s w typeName → Answers (describe w typeName) s (Within P frame info s k)) :
    Answers (fieldWith F describe addr typeName) s (Within P frame info s k) := by
  refine answers_recover ?_ (within_scalar _ _)
  by_cases hfloat : typeName = "float"
  · subst hfloat
    rw [if_pos rfl]
    rcases readHeap_cases addr s with ⟨low, hlow⟩ | hout
    · rcases readHeap_cases (addr + 2) s with ⟨high, hhigh⟩ | hout
      · refine .inl ?_
        rw [Answers, StateExcept.bind_eq hlow, StateExcept.bind_eq hhigh]
        exact answers_describeFloat (hD.floats _ (.place h hlow hhigh)) _
      · exact .inr ⟨_, (StateExcept.bind_eq hlow).trans (StateExcept.bind_error hout), rfl⟩
    · exact .inr ⟨_, StateExcept.bind_error hout, rfl⟩
  · rw [if_neg hfloat]
    rcases readHeap_cases addr s with ⟨w, hw⟩ | hout
    · refine .inl ?_
      rw [Answers, StateExcept.bind_eq hw]
      exact hdescribe w (.place h hfloat hw)
    · exact .inr ⟨_, StateExcept.bind_error hout, rfl⟩

theorem recover_arrayAt {ref count : ℕ} {holdsRefs : Bool} (hfound : arrayAt ref "print" s = .ok ((count, holdsRefs), s)) :
    recover isUnreadable none (some <$> arrayAt ref "print") s = .ok (some (count, holdsRefs), s) := by
  have hsome : (arrayAt ref "print" >>= fun found => pure (some found) : Exec W _) s = .ok (some (count, holdsRefs), s) :=
    StateExcept.bind_eq hfound
  rw [recover, map_eq_pure_bind, hsome]

theorem answers_describeArray (hD : Displayable P F frame info s) {describe : ℕ → String → Exec W Value} {ref : ℕ}
    {typeName element : String} (h : Shown P frame info s ref typeName) (htype : contentOf typeName = .elements element)
    (hdescribe : ∀ w, Shown P frame info s w element → Answers (describe w element) s (Within P frame info s k)) :
    Answers (describeArray F describe ref typeName element) s (Within P frame info s (k + 1)) := by
  rw [describeArray]
  split
  · exact answers_pure (within_scalar _ _)
  · rcases arrayAt_cases ref "print" s with ⟨⟨count, holdsRefs⟩, hfound⟩ | ⟨message, hfault⟩
    · rw [Answers, StateExcept.bind_eq (recover_arrayAt hfound)]
      refine (answers_mapM (Q := fun e => Within P frame info s k e.2) fun i hi => ?_).bind fun elements _ helements => ?_
      case refine_2 => exact answers_pure (.array rfl helements)
      refine (answers_fieldWith hD (.element h htype hfound (List.mem_range.mp hi)) hdescribe).bind fun value _ hvalue => ?_
      exact answers_pure hvalue
    · have hrecover : recover isUnreadable none (some <$> arrayAt ref "print") s = .ok (none, s) := by
        have hsome : (arrayAt ref "print" >>= fun found => pure (some found) : Exec W _) s = .error (.vmError message) :=
          StateExcept.bind_error hfault
        rw [recover, map_eq_pure_bind, hsome]
        rfl
      rw [Answers, StateExcept.bind_eq hrecover]
      exact answers_pure (within_scalar _ _)

/-- The cases of `describeWord` are those of `contentOf`. -/
theorem describeWord_elements {frames w : ℕ} {typeName element : String} (h : contentOf typeName = .elements element) :
    describeWord (W := W) P F (frames + 4) w typeName = describeArray F (describeWord P F frames) w typeName element := by
  unfold contentOf at h
  split at h
  · cases h
  · rename_i hplain
    simp only [List.mem_cons, List.not_mem_nil, or_false, not_or] at hplain
    obtain ⟨⟨hbool, hstr, hint, hheap, hptr⟩, hfn⟩ := hplain
    rw [describeWord, if_neg hbool, if_neg hstr, if_neg (by simp [hint, hheap, hptr]), if_neg hfn]
    split at h
    · rename_i element' hsome
      cases h
      rw [hsome]
    · cases h

theorem describeWord_object {frames w : ℕ} {typeName : String} (h : contentOf typeName = .object) :
    describeWord (W := W) P F (frames + 4) w typeName = describeObject P w typeName := by
  unfold contentOf at h
  split at h
  · cases h
  · rename_i hplain
    simp only [List.mem_cons, List.not_mem_nil, or_false, not_or] at hplain
    obtain ⟨⟨hbool, hstr, hint, hheap, hptr⟩, hfn⟩ := hplain
    rw [describeWord, if_neg hbool, if_neg hstr, if_neg (by simp [hint, hheap, hptr]), if_neg hfn]
    split at h
    · cases h
    · rename_i hnone
      rw [hnone]

/-- Of the rest there is nothing to follow. -/
theorem describeWord_nothing {frames w : ℕ} {typeName : String} (h : contentOf typeName = .nothing) {Q : Value → Prop}
    (hQ : ∀ summary, Q (scalar summary typeName)) : Answers (describeWord P F (frames + 4) w typeName) s Q := by
  rw [describeWord]
  split
  · exact answers_pure (hQ _)
  · next hbool =>
    split
    · split
      · exact answers_pure (hQ _)
      · refine answers_recover ?_ (hQ _)
        rcases stringText_cases w s with ⟨text, htext⟩ | ⟨message, hfault⟩
        · exact .inl ⟨_, StateExcept.bind_eq htext, hQ _⟩
        · exact .inr ⟨_, StateExcept.bind_error hfault, rfl⟩
    · next hstr =>
      split
      · exact answers_pure (hQ _)
      · next hint =>
        split
        · cases P.functions[w]? with
          | none => exact answers_pure (hQ _)
          | some fn => exact answers_pure (hQ _)
        · next hfn =>
          have hplain : ¬(typeName ∈ ["bool", "str", "int", "heapptr", "ptr"] ∨ typeName.startsWith "fn(" = true) := by
            simp only [List.mem_cons, List.not_mem_nil, or_false] at hint ⊢
            tauto
          unfold contentOf at h
          rw [if_neg hplain] at h
          split at h <;> cases h

theorem answers_describeWord (hD : Displayable P F frame info s) {frames w : ℕ} {typeName : String} (h : Shown P frame info s w typeName)
    (hnest : NestsWithin k typeName) (hframes : 4 * (k + 1) ≤ frames) :
    Answers (describeWord P F frames w typeName) s (Within P frame info s k) := by
  induction hnest generalizing frames w with
  | @word k typeName hno =>
    obtain ⟨frames, rfl⟩ := Nat.exists_eq_add_of_le' (show 4 ≤ frames by omega)
    cases hcontent : contentOf typeName with
    | nothing => exact describeWord_nothing hcontent fun summary => within_scalar summary typeName
    | object =>
      rw [describeWord_object hcontent]
      exact answers_describeObject h hcontent
    | elements element => exact absurd hcontent (hno element)
  | @array k typeName element hcontent _ ih =>
    obtain ⟨frames, rfl⟩ := Nat.exists_eq_add_of_le' (show 4 ≤ frames by omega)
    rw [describeWord_elements hcontent]
    exact answers_describeArray hD h hcontent fun w hw => ih hw (by omega)

theorem contentOf_ne_elements {typeName : String} (h : ¬"Array<".toList <+: typeName.toList) (element : String) :
    contentOf typeName ≠ .elements element := by
  have hnone : elementType typeName = none := by
    rw [elementType, if_neg]
    exact fun hboth => h (String.startsWith_string_iff.mp hboth.1)
  rw [contentOf, hnone]
  split <;> exact Content.noConfusion

theorem NestsWithin.mono {j : ℕ} {typeName : String} (h : NestsWithin j typeName) : ∀ {k : ℕ}, j ≤ k → NestsWithin k typeName := by
  induction h with
  | word hno => exact fun _ => .word hno
  | @array j typeName element hcontent _ ih =>
    intro k hle
    obtain ⟨k, rfl⟩ := Nat.exists_eq_succ_of_ne_zero (show k ≠ 0 by omega)
    exact .array hcontent (ih (by omega))

theorem NestsWithin.element {typeName element : String} (h : NestsWithin k typeName) (htype : contentOf typeName = .elements element) :
    NestsWithin k element := by
  cases h with
  | word hno => exact absurd htype (hno element)
  | @array k _ element' hcontent he =>
    obtain rfl : element' = element := Content.elements.inj (hcontent.symm.trans htype)
    exact he.mono (Nat.le_succ k)

theorem Shallow.slots (hN : Shallow P N) (hinfo : info ∈ localsOf P frame) : ∀ slot ∈ slotsOf info, NestsWithin N slot.2 := by
  unfold localsOf at hinfo
  cases hfn : P.functions[frame.fnIndex]? with
  | none =>
    rw [hfn] at hinfo
    cases hinfo
  | some fn =>
    rw [hfn] at hinfo
    exact hN.locals fn (List.mem_of_getElem? hfn) info hinfo

-- what is shown is shown as one of the types of the program, or as part of one
mutual
theorem Shown.nests (hN : Shallow P N) (hinfo : info ∈ localsOf P frame) {w : ℕ} {typeName : String} :
    Shown P frame info s w typeName → NestsWithin N typeName
  | .slot hslot _ => hN.slots hinfo _ hslot
  | .place h _ _ => h.nests hN hinfo

theorem Placed.nests (hN : Shallow P N) (hinfo : info ∈ localsOf P frame) {addr : ℕ} {typeName : String} :
    Placed P frame info s addr typeName → NestsWithin N typeName
  | .element h htype _ _ => (h.nests hN hinfo).element htype
  | @Placed.field _ _ _ _ _ ref _ layout field _ _ hlayout hfield => by
    obtain ⟨layout', hanswer, hmem⟩ := answers_layoutAt (s := s) P ref
    rw [hlayout] at hanswer
    cases hanswer
    exact hN.fields layout (hmem layout rfl) field hfield
end

section Answers

variable (hD : Displayable P F frame info s) (hN : Shallow P N) (hinfo : info ∈ localsOf P frame)
include hD hN hinfo

theorem answers_describeSlot (hframes : 4 * (N + 1) ≤ INSPECTION_FRAMES) {slot : ℕ} {typeName : String}
    (hslot : (slot, typeName) ∈ slotsOf info) (hplain : typeName.endsWith "]" = false) :
    Answers (describeSlot P F frame.locals slot typeName) s (Within P frame info s N) := by
  rw [describeSlot, if_neg (by rw [hplain]; exact Bool.false_ne_true)]
  split
  · next hfloat =>
    subst hfloat
    exact answers_describeFloat (hD.floats _ (.slot hslot)) _
  · next hword => exact answers_describeWord hD (.slot hslot hword) (hN.slots hinfo _ hslot) hframes

theorem answers_describeLocal (hframes : 4 * (N + 1) ≤ INSPECTION_FRAMES) :
    Answers (describeLocal P F frame info) s (Within P frame info s (N + 1)) := by
  rw [describeLocal, describeSlots]
  by_cases hends : info.typeName.endsWith "]" = true
  · obtain ⟨hopen, hplain⟩ := hD.bracketed hends
    have hbase : (baseName info.typeName : Exec W String) s = .ok (elementName info.typeName, s) := by
      rw [baseName, if_pos (by simpa using hopen)]
      rfl
    rw [if_pos hends, Answers, StateExcept.bind_eq hbase]
    refine (answers_mapM (Q := fun e => Within P frame info s N e.2) fun i hi => ?_).bind fun elements _ helements => ?_
    case refine_2 => exact answers_pure (.array rfl helements)
    have hslot : (info.slot + i, elementName info.typeName) ∈ slotsOf info := by
      rw [slotsOf, if_pos hends]
      exact List.mem_map.mpr ⟨i, hi, rfl⟩
    have hwords := hplain (Nat.zero_lt_of_lt (List.mem_range.mp hi))
    exact (answers_describeSlot hD hN hinfo hframes hslot hwords).bind fun value _ hvalue => answers_pure hvalue
  · have hslot : (info.slot, info.typeName) ∈ slotsOf info := by
      rw [slotsOf, if_neg hends]
      exact List.mem_singleton.mpr rfl
    rw [if_neg hends]
    exact (answers_describeSlot hD hN hinfo hframes hslot (by simpa using hends)).imp fun value hvalue => hvalue.mono (Nat.le_succ N)

/-- The children of a value are shown too; those of an array have an array less in them. -/
theorem answers_childrenWithin {frames : ℕ} (hframes : 4 * (N + 1) ≤ frames) {value : Value} (h : Within P frame info s k value) :
    Answers (childrenWithin P F frames value) s fun children =>
      ∀ c ∈ children, if value.kind = .array then ∃ j, k = j + 1 ∧ Within P frame info s j c.2 else Within P frame info s N c.2 := by
  rw [childrenWithin]
  cases h with
  | array hkind helements =>
    rw [if_pos hkind]
    refine answers_pure fun c hc => ?_
    rw [if_pos hkind]
    exact ⟨_, rfl, helements c hc⟩
  | leaf hkind haddress =>
    rw [if_neg hkind]
    split
    · exact answers_pure (by simp)
    · next hzero =>
      obtain ⟨typeName, hshown, htype⟩ := haddress.resolve_left hzero
      refine (answers_layoutAt P value.address).bind fun layout hlayout _ => ?_
      cases layout with
      | none => exact answers_pure (by simp)
      | some layout =>
        dsimp only
        refine answers_mapM fun field hfield => ?_
        have hplaced : Placed P frame info s (value.address + field.1.offset * 2) field.1.typeName :=
          .field hshown htype hlayout (List.fst_mem_of_mem_zipIdx hfield)
        have hdescribe : Answers (describeField P F frames (value.address + field.1.offset * 2) field.1.typeName) s
            (Within P frame info s N) :=
          answers_fieldWith hD hplaced fun w hw => answers_describeWord hD hw (hw.nests hN hinfo) hframes
        exact hdescribe.bind fun child _ hchild => answers_pure hchild

/-- The measure is the arrays left in the value, after those that each further level of
structs may have; below them all a last description needs its room. -/
theorem answers_flatten {frames depth : ℕ} {value : Value} (h : Within P frame info s k value)
    (hframes : 2 * ((MAX_STRUCT_DEPTH - depth) * (N + 1) + k + 1) + 4 * (N + 1) ≤ frames) :
    Answers (flatten P F frames value depth) s fun _ => True := by
  induction frames using Nat.twoStepInduction generalizing value depth k with
  | zero => omega
  | one => omega
  | more frames ih _ =>
    have hchildren := answers_childrenWithin hD hN hinfo (show 4 * (N + 1) ≤ frames by omega) h
    have hnested : ∀ children : List (String × Value), depth < MAX_STRUCT_DEPTH → (∀ c ∈ children, Within P frame info s N c.2) →
        Answers (children.mapM fun c => flatten P F frames c.2 (depth + 1)) s fun _ => True := by
      intro children hdepth hall
      refine (answers_mapM (Q := fun _ => True) fun c hc => ih (hall c hc) ?_).imp fun _ _ => trivial
      have hlevel : (MAX_STRUCT_DEPTH - depth) * (N + 1) = (MAX_STRUCT_DEPTH - (depth + 1)) * (N + 1) + (N + 1) := by
        rw [← Nat.succ_mul]
        congr 1
        omega
      omega
    rw [flatten]
    cases hkind : value.kind with
    | scalar => exact answers_pure trivial
    | array =>
      refine hchildren.bind fun children _ hall => ?_
      refine (answers_mapM (Q := fun _ => True) fun c hc => ?_).bind fun _ _ _ => answers_pure trivial
      obtain ⟨j, rfl, hj⟩ := by simpa [hkind] using hall c hc
      exact ih hj (by omega)
    | variant =>
      dsimp only
      split
      · exact answers_pure trivial
      · refine hchildren.bind fun children _ hall => ?_
        exact (hnested children (by omega) (by simpa [hkind] using hall)).bind fun _ _ _ => answers_pure trivial
    | struct =>
      dsimp only
      split
      · exact answers_pure trivial
      · refine hchildren.bind fun children _ hall => ?_
        exact (hnested children (by omega) (by simpa [hkind] using hall)).bind fun _ _ _ => answers_pure trivial

theorem Within.opened (hframes : 4 * (N + 1) ≤ INSPECTION_FRAMES) {k : ℕ} {value v : Value} (h : Within P frame info s k value)
    (hv : Opened P F s value v) : ∃ j, Within P frame info s j v := by
  induction hv with
  | self => exact ⟨k, h⟩
  | child _ hrun hc ih =>
    obtain ⟨j, hj⟩ := ih
    obtain ⟨children, hchildren, hall⟩ := answers_childrenWithin hD hN hinfo hframes hj
    obtain rfl : children = _ := (Prod.mk.inj (Except.ok.inj (hchildren.symm.trans hrun))).1
    have hwithin := hall _ hc
    split at hwithin
    · obtain ⟨i, -, hi⟩ := hwithin
      exact ⟨i, hi⟩
    · exact ⟨N, hwithin⟩

/-- Where its floats can be printed, a local is displayed. -/
theorem Displayable.displays (hframes : (2 * (MAX_STRUCT_DEPTH + 2) + 4) * (N + 1) ≤ INSPECTION_FRAMES) : Displays P F frame info s := by
  have hroom : 4 * (N + 1) ≤ INSPECTION_FRAMES := by
    rw [Nat.add_mul] at hframes
    omega
  obtain ⟨value, hvalue, hwithin⟩ := answers_describeLocal hD hN hinfo hroom
  obtain ⟨text, htext, -⟩ := answers_flatten hD hN hinfo hwithin
    (show 2 * ((MAX_STRUCT_DEPTH - 0) * (N + 1) + (N + 1) + 1) + 4 * (N + 1) ≤ INSPECTION_FRAMES by
      rw [MAX_STRUCT_DEPTH] at hframes ⊢
      omega)
  refine ⟨⟨text, (StateExcept.bind_eq hvalue).trans htext⟩, value, hvalue, fun v hv => ?_⟩
  obtain ⟨j, hj⟩ := hwithin.opened hD hN hinfo hroom hv
  obtain ⟨children, hchildren, -⟩ := answers_childrenWithin hD hN hinfo hroom hj
  exact ⟨children, hchildren⟩

end Answers

end Describing

section Exposing

variable {W : Type} {P : CompiledProgram} {F : FloatOps} {frame : FrameView} {info : LocalInfo} {s : VM W}

theorem passes_describeObject (P : CompiledProgram) (ref : ℕ) (typeName : String) : Passes (describeObject P ref typeName : Exec W Value) := by
  rw [describeObject]
  split
  · exact passes_pure _
  · refine (Answers.passes fun s => answers_layoutAt P ref).bind fun layout => ?_
    cases layout with
    | none => exact passes_pure _
    | some layout =>
      dsimp only
      split_ifs <;> exact passes_pure _

theorem passes_describeArray (F : FloatOps) (describe : ℕ → String → Exec W Value) (ref : ℕ) (typeName element : String) :
    Passes (describeArray F describe ref typeName element) := by
  rw [describeArray]
  split
  · exact passes_pure _
  · refine (passes_recover _ _).bind fun found => ?_
    cases found with
    | none => exact passes_pure _
    | some found =>
      exact (passes_mapM (fun i => (passes_recover _ _).bind fun _ => passes_pure _) _).bind fun _ => passes_pure _

theorem passes_describeWord : ∀ (frames w : ℕ) (typeName : String), Passes (describeWord P F frames w typeName : Exec W Value)
  | frames + 4, w, typeName => by
    cases hcontent : contentOf typeName with
    | nothing => exact Answers.passes fun s => describeWord_nothing (Q := fun _ => True) hcontent fun _ => trivial
    | object =>
      rw [describeWord_object hcontent]
      exact passes_describeObject P w typeName
    | elements element =>
      rw [describeWord_elements hcontent]
      exact passes_describeArray F _ w typeName element
  | 0, _, _ | 1, _, _ | 2, _, _ | 3, _, _ => by
    intro s e h
    cases h
    decide

/-- A description that was made had the frames for it. -/
theorem describeWord_frames {frames w : ℕ} {typeName : String} {v : Value} (h : describeWord P F frames w typeName s = .ok (v, s)) :
    ∃ frames', frames = frames' + 4 := by
  match frames, h with
  | frames + 4, _ => exact ⟨frames, rfl⟩

variable {value : Value} (hvalue : describeLocal P F frame info s = .ok (value, s))

theorem childrenOf_array {v : Value} (h : v.kind = .array) : childrenOf P F v s = .ok (v.elements, s) := by
  rw [childrenOf, childrenWithin, if_pos h]
  rfl

include hvalue in
theorem bracketed_of_described : Bracketed info := by
  intro hends
  rw [describeLocal, describeSlots, if_pos hends] at hvalue
  obtain ⟨base, s₁, hbase, hrest⟩ := StateExcept.bind_ok.mp hvalue
  obtain ⟨elements, s₂, helements, -⟩ := StateExcept.bind_ok.mp hrest
  unfold baseName at hbase
  split at hbase
  · rename_i hopen
    obtain ⟨rfl, rfl⟩ := Prod.mk.inj (StateExcept.pure_ok.mp hbase)
    refine ⟨by simpa using hopen, fun hwords => ?_⟩
    obtain ⟨e, -, he⟩ := mapM_ok (fun i => (reads_describeSlot P F _ _ _).bind fun _ => reads_pure _) helements 0 (List.mem_range.mpr hwords)
    obtain ⟨v, s₃, hslot, -⟩ := StateExcept.bind_ok.mp he
    change describeSlot P F frame.locals (info.slot + 0) (elementName info.typeName) s = _ at hslot
    rw [Bool.eq_false_iff]
    intro hbad
    rw [describeSlot, if_pos hbad] at hslot
    cases hslot
  · cases hbase

include hvalue in
/-- Each slot of a local that was described was, and is opened with it. -/
theorem described_slots : ∀ slot ∈ slotsOf info, ∃ v, describeSlot P F frame.locals slot.1 slot.2 s = .ok (v, s) ∧ Opened P F s value v := by
  intro slot hslot
  rw [describeLocal, describeSlots] at hvalue
  unfold slotsOf at hslot
  by_cases hends : info.typeName.endsWith "]" = true
  · rw [if_pos hends] at hvalue hslot
    obtain ⟨base, s₁, hbase, hrest⟩ := StateExcept.bind_ok.mp hvalue
    obtain ⟨elements, s₂, helements, hmade⟩ := StateExcept.bind_ok.mp hrest
    obtain ⟨rfl, rfl⟩ := Prod.mk.inj (StateExcept.pure_ok.mp hmade)
    obtain ⟨i, hi, rfl⟩ := List.mem_map.mp hslot
    unfold baseName at hbase
    split at hbase
    · obtain ⟨rfl, rfl⟩ := Prod.mk.inj (StateExcept.pure_ok.mp hbase)
      obtain ⟨e, hmem, he⟩ := mapM_ok (fun i => (reads_describeSlot P F _ _ _).bind fun _ => reads_pure _) helements i hi
      obtain ⟨v, s₃, hslot, hpair⟩ := StateExcept.bind_ok.mp he
      obtain ⟨rfl, rfl⟩ := Prod.mk.inj (StateExcept.pure_ok.mp hpair)
      exact ⟨v, hslot, .child (c := (_, v)) .self (childrenOf_array rfl) hmem⟩
    · cases hbase
  · rw [if_neg hends] at hvalue hslot
    obtain rfl := List.mem_singleton.mp hslot
    exact ⟨value, hvalue, .self⟩

variable (hall : ∀ v, Opened P F s value v → ∃ children, childrenOf P F v s = .ok (children, s))

/-- The elements of an array that was described were. -/
theorem described_element {frames ref i count : ℕ} {holdsRefs : Bool} {typeName element : String} {v : Value}
    (hv : describeWord P F frames ref typeName s = .ok (v, s)) (hopened : Opened P F s value v)
    (htype : contentOf typeName = .elements element) (hfound : arrayAt ref "print" s = .ok ((count, holdsRefs), s))
    (hi : i < min count ARRAY_PREVIEW) :
    ∃ frames' v', fieldWith F (describeWord P F frames') (ref + i * 2) element s = .ok (v', s) ∧ Opened P F s value v' := by
  obtain ⟨frames, rfl⟩ := describeWord_frames hv
  rw [describeWord_elements htype, describeArray] at hv
  have hnull : ref ≠ 0 := by
    rintro rfl
    rw [arrayAt, if_pos (show 0 = NULL_ADDR from rfl)] at hfound
    cases hfound
  rw [if_neg hnull, StateExcept.bind_eq (recover_arrayAt hfound)] at hv
  obtain ⟨elements, s₁, helements, hmade⟩ := StateExcept.bind_ok.mp hv
  obtain ⟨rfl, rfl⟩ := Prod.mk.inj (StateExcept.pure_ok.mp hmade)
  obtain ⟨e, hmem, he⟩ := mapM_ok
    (fun i => (reads_fieldWith F (reads_describeWord P F frames) _ _).bind fun _ => reads_pure _) helements i (List.mem_range.mpr hi)
  obtain ⟨v', s₂, hfield, hpair⟩ := StateExcept.bind_ok.mp he
  obtain ⟨rfl, rfl⟩ := Prod.mk.inj (StateExcept.pure_ok.mp hpair)
  exact ⟨frames, v', hfield, .child hopened (childrenOf_array rfl) hmem⟩

include hall in
/-- The fields of an object that was opened were described. -/
theorem described_field {frames ref : ℕ} {typeName : String} {layout : StructLayout} {field : FieldLayout} {v : Value}
    (hv : describeWord P F frames ref typeName s = .ok (v, s)) (hopened : Opened P F s value v)
    (htype : contentOf typeName = .object) (hlayout : layoutAt P ref s = .ok (some layout, s)) (hfield : field ∈ layout.fields) :
    ∃ frames' v', fieldWith F (describeWord P F frames') (ref + field.offset * 2) field.typeName s = .ok (v', s) ∧ Opened P F s value v' := by
  obtain ⟨frames, rfl⟩ := describeWord_frames hv
  have hnull : ref ≠ 0 := by
    rintro rfl
    cases hlayout
  have hfields : layout.fields ≠ [] := List.ne_nil_of_mem hfield
  have hobject : v.kind ≠ .array ∧ v.address = ref := by
    rw [describeWord_object htype, describeObject, if_neg hnull, StateExcept.bind_eq hlayout] at hv
    dsimp only at hv
    rw [if_neg hfields] at hv
    split at hv
    · obtain ⟨rfl, -⟩ := Prod.mk.inj (StateExcept.pure_ok.mp hv)
      exact ⟨by simp [Value.kind], rfl⟩
    · obtain ⟨rfl, -⟩ := Prod.mk.inj (StateExcept.pure_ok.mp hv)
      exact ⟨by simp [Value.kind], rfl⟩
  obtain ⟨hkind, rfl⟩ := hobject
  obtain ⟨children, hchildren⟩ := hall v hopened
  have hrun := hchildren
  rw [childrenOf, childrenWithin, if_neg hkind, if_neg hnull, StateExcept.bind_eq hlayout] at hrun
  obtain ⟨i, hi⟩ := List.mem_iff_getElem?.mp hfield
  have hat : (field, i) ∈ layout.fields.zipIdx := List.mem_zipIdx_iff_getElem?.mpr hi
  obtain ⟨c, hc, hmade⟩ := mapM_ok
    (fun e => (reads_fieldWith F (reads_describeWord P F INSPECTION_FRAMES) _ _).bind fun _ => reads_pure _) hrun _ hat
  obtain ⟨v', s₁, hdescribed, hpair⟩ := StateExcept.bind_ok.mp hmade
  obtain ⟨rfl, rfl⟩ := Prod.mk.inj (StateExcept.pure_ok.mp hpair)
  exact ⟨_, v', hdescribed, .child hopened hchildren hc⟩

/-- A word at a place that was described was. -/
theorem described_word {frames addr w : ℕ} {typeName : String} {v : Value}
    (hv : fieldWith F (describeWord P F frames) addr typeName s = .ok (v, s)) (hword : typeName ≠ "float")
    (hread : readHeap addr s = .ok (w, s)) : describeWord P F frames w typeName s = .ok (v, s) := by
  have hinner := StateExcept.bind_eq (f := fun w => describeWord P F frames w typeName) hread
  rw [fieldWith, if_neg hword] at hv
  refine hinner.symm.trans (recover_ok hv fun e he => ?_)
  exact passes_describeWord frames w typeName s e (hinner.symm.trans he)

-- a word that is shown was described when the local was, or when the value it is part of was opened
mutual
theorem Shown.described (hvalue : describeLocal P F frame info s = .ok (value, s))
    (hall : ∀ v, Opened P F s value v → ∃ children, childrenOf P F v s = .ok (children, s)) {w : ℕ} {typeName : String} :
    Shown P frame info s w typeName → ∃ frames v, describeWord P F frames w typeName s = .ok (v, s) ∧ Opened P F s value v
  | .slot hslot hword => by
    obtain ⟨v, hv, hopened⟩ := described_slots hvalue _ hslot
    have hends : ¬typeName.endsWith "]" = true := by
      intro hends
      rw [describeSlot, if_pos hends] at hv
      cases hv
    rw [describeSlot, if_neg hends, if_neg hword] at hv
    exact ⟨_, v, hv, hopened⟩
  | .place h hword hread => by
    obtain ⟨frames, v, hv, hopened⟩ := h.described hvalue hall
    exact ⟨frames, v, described_word hv hword hread, hopened⟩

theorem Placed.described (hvalue : describeLocal P F frame info s = .ok (value, s))
    (hall : ∀ v, Opened P F s value v → ∃ children, childrenOf P F v s = .ok (children, s)) {addr : ℕ} {typeName : String} :
    Placed P frame info s addr typeName → ∃ frames v, fieldWith F (describeWord P F frames) addr typeName s = .ok (v, s) ∧ Opened P F s value v
  | .element h htype hfound hi => by
    obtain ⟨frames, v, hv, hopened⟩ := h.described hvalue hall
    exact described_element hv hopened htype hfound hi
  | .field h htype hlayout hfield => by
    obtain ⟨frames, v, hv, hopened⟩ := h.described hvalue hall
    exact described_field hall hv hopened htype hlayout hfield
end

theorem printable_of_described {bits : ℕ} {typeName : String} {v : Value} {s' : VM W} (h : describeFloat F bits typeName s = .ok (v, s')) :
    Printable F (bitsToFloat F bits) := by
  obtain ⟨text, s₁, htext, -⟩ := StateExcept.bind_ok.mp h
  exact printable_of_ok htext

/-- A local that is displayed shows only floats that can be printed. -/
theorem Displays.displayable (h : Displays P F frame info s) : Displayable P F frame info s := by
  obtain ⟨value, hvalue, hall⟩ := h.describes
  refine ⟨bracketed_of_described hvalue, fun bits hbits => ?_⟩
  cases hbits with
  | slot hslot =>
    obtain ⟨v, hv, -⟩ := described_slots hvalue _ hslot
    rw [describeSlot] at hv
    split at hv
    · cases hv
    · rw [if_pos rfl] at hv
      exact printable_of_described hv
  | @place addr low high hplaced hlow hhigh =>
    obtain ⟨frames, v, hv, -⟩ := hplaced.described hvalue hall
    have hinner : (do
        let low ← readHeap addr
        let high ← readHeap (addr + 2)
        describeFloat F (low ||| high <<< 16) "float") s = describeFloat F (low ||| high <<< 16) "float" s :=
      (StateExcept.bind_eq hlow).trans (StateExcept.bind_eq hhigh)
    rw [fieldWith, if_pos rfl] at hv
    exact printable_of_described (hinner.symm.trans (recover_ok hv fun e he => passes_describeFloat F _ _ s e (hinner.symm.trans he)))

end Exposing

section Termination

variable {W : Type} {P : CompiledProgram} {F : FloatOps} {frame : FrameView} {info : LocalInfo} {s : VM W} {N : ℕ}

/-- Whatever the heap looks like, a local is formatted, and it and all that can be opened from
it are described, just where the floats shown can be printed. `N` nested arrays are few enough
for the host's stack. -/
theorem display_ends (hN : Shallow P N) (hframes : (2 * (MAX_STRUCT_DEPTH + 2) + 4) * (N + 1) ≤ INSPECTION_FRAMES)
    (hinfo : info ∈ localsOf P frame) : Displays P F frame info s ↔ Displayable P F frame info s :=
  ⟨Displays.displayable, fun hD => hD.displays hN hinfo hframes⟩

/-- `struct Node { next: Node, weight: float }`, and a local of it. -/
def ringProgram : CompiledProgram :=
  { code := []
    functions := [⟨"main", 0, 1, 0, [], [], [⟨"node", 0, "Node", 1, false⟩], "main.ql"⟩]
    strings := []
    structs := [some ⟨"Node", 3, [0], [⟨"next", "Node", 0⟩, ⟨"weight", "float", 1⟩], false⟩] }

def ringFrame : FrameView := ⟨0, 0, "main", "main.ql", 0, none, none, [6]⟩

/-- A node at 6 that is its own next one, of weight 3.0. -/
def ring : VM Unit := { io := (), heap := ByteMem.writeWord (ByteMem.writeWord (fun _ => 0) 6 6) 10 0x4040 }

theorem slotsOf_node : slotsOf ⟨"node", 0, "Node", 1, false⟩ = [(0, "Node")] := by
  have hends : ¬("Node").endsWith "]" = true := by
    rw [endsWith_iff]
    decide
  rw [slotsOf, if_neg hends]

-- the ring shows its one node, over and over
mutual
theorem shown_ring {w : ℕ} {typeName : String} :
    Shown ringProgram ringFrame ⟨"node", 0, "Node", 1, false⟩ ring w typeName → w = 6 ∧ typeName = "Node"
  | .slot hslot _ => by
    rw [slotsOf_node] at hslot
    obtain ⟨rfl, rfl⟩ := Prod.mk.inj (List.mem_singleton.mp hslot)
    exact ⟨rfl, rfl⟩
  | .place h hword hread => by
    rcases placed_ring h with ⟨rfl, rfl⟩ | ⟨rfl, rfl⟩
    · have hsix : readHeap 6 ring = .ok (6, ring) := rfl
      rw [hsix] at hread
      cases hread
      exact ⟨rfl, rfl⟩
    · exact absurd rfl hword

theorem placed_ring {addr : ℕ} {typeName : String} : Placed ringProgram ringFrame ⟨"node", 0, "Node", 1, false⟩ ring addr typeName →
    addr = 6 ∧ typeName = "Node" ∨ addr = 8 ∧ typeName = "float"
  | .element h htype _ _ => by
    obtain ⟨rfl, rfl⟩ := shown_ring h
    exact absurd htype (contentOf_ne_elements (by decide) _)
  | .field h _ hlayout hfield => by
    obtain ⟨rfl, rfl⟩ := shown_ring h
    have hnode : layoutAt ringProgram 6 ring =
        .ok (some ⟨"Node", 3, [0], [⟨"next", "Node", 0⟩, ⟨"weight", "float", 1⟩], false⟩, ring) := rfl
    rw [hnode] at hlayout
    cases hlayout
    rcases List.mem_cons.mp hfield with rfl | hfield
    · exact .inl ⟨rfl, rfl⟩
    · obtain rfl := List.mem_singleton.mp hfield
      exact .inr ⟨rfl, rfl⟩
end

theorem decodeSingle_three : decodeSingle 0x40400000 = 3 := by
  norm_num [decodeSingle]

theorem ring_displayable : Displayable ringProgram (rationalFloats fun _ _ => "3") ringFrame ⟨"node", 0, "Node", 1, false⟩ ring := by
  refine ⟨fun hends => ?_, fun bits hbits => ?_⟩
  · rw [endsWith_iff] at hends
    exact absurd hends (by decide)
  · cases hbits with
    | slot hslot =>
      rw [slotsOf_node] at hslot
      exact absurd hslot (by simp)
    | place h hlow hhigh =>
      obtain ⟨-, hword⟩ | ⟨rfl, -⟩ := placed_ring h
      · exact absurd hword (by decide)
      · have hlow' : readHeap 8 ring = .ok (0, ring) := rfl
        have hhigh' : readHeap 10 ring = .ok (0x4040, ring) := rfl
        have hbits : 0 ||| 0x4040 <<< 16 = 0x40400000 := by decide
        rw [hlow'] at hlow
        rw [hhigh'] at hhigh
        cases hlow
        cases hhigh
        rw [hbits]
        show Printable (rationalFloats fun _ _ => "3") (decodeSingle 0x40400000)
        rw [decodeSingle_three]
        obtain ⟨text, htext, -⟩ := formatFloat_shortest_three
        exact printable_of_ok htext

theorem ring_shallow : Shallow ringProgram 0 := by
  refine ⟨fun fn hfn info hinfo slot hslot => ?_, fun layout hlayout field hfield => ?_⟩
  · obtain rfl := List.mem_singleton.mp hfn
    obtain rfl := List.mem_singleton.mp hinfo
    rw [slotsOf_node] at hslot
    obtain rfl := List.mem_singleton.mp hslot
    exact .word (contentOf_ne_elements (by decide))
  · obtain rfl := Option.some.inj (List.mem_singleton.mp hlayout)
    rcases List.mem_cons.mp hfield with rfl | hfield
    · exact .word (contentOf_ne_elements (by decide))
    · obtain rfl := List.mem_singleton.mp hfield
      exact .word (contentOf_ne_elements (by decide))

/-- The ring is displayed. -/
theorem display_ends_ring : Displays ringProgram (rationalFloats fun _ _ => "3") ringFrame ⟨"node", 0, "Node", 1, false⟩ ring ∧
    (Displays ringProgram (rationalFloats fun _ _ => "3") ringFrame ⟨"node", 0, "Node", 1, false⟩ ring ↔
      Displayable ringProgram (rationalFloats fun _ _ => "3") ringFrame ⟨"node", 0, "Node", 1, false⟩ ring) := by
  have hinfo : (⟨"node", 0, "Node", 1, false⟩ : LocalInfo) ∈ localsOf ringProgram ringFrame := List.mem_singleton.mpr rfl
  have hiff := display_ends (F := rationalFloats fun _ _ => "3") (s := ring) ring_shallow (by decide) hinfo
  exact ⟨hiff.mpr ring_displayable, hiff⟩

/-- `let x: float = 340282346638528859811704183484516925440.0;`. -/
def floatProgram : CompiledProgram :=
  { code := [.pushFloat 0x7F7FFFFF, .storeLocalF 0]
    functions := [⟨"main", 0, 2, 0, [], [], [⟨"x", 0, "float", 2, false⟩], "main.ql"⟩]
    strings := []
    structs := [] }

theorem floatProgram_runs {W : Type} (F : FloatOps) (io : ProgramIO W) (w : W) (hfinite : F.isFinite (F.ofBits 0x7F7FFFFF) = true)
    (hpack : F.pack (F.ofBits 0x7F7FFFFF) = some 0x7F7FFFFF) :
    runMain floatProgram F io [] w 2 = .ok (.running { io := w, pc := 2, locals := [0xFFFF, 0x7F7F] }) := by
  have hbits : ∀ s : VM W, floatToBits F (F.ofBits 0x7F7FFFFF) s = .ok (0x7F7FFFFF, s) := by
    intro s
    rw [floatToBits, hfinite, hpack]
    rfl
  have hpushed : VM.step floatProgram F io { io := w, locals := [0, 0] } =
      .ok (.running { io := w, pc := 1, locals := [0, 0], stack := [⟨0x7F7FFFFF, false⟩] }) := rfl
  have hexecute : execute floatProgram F io (.storeLocalF 0)
      ({ io := w, pc := 2, locals := [0, 0], stack := [⟨0x7F7FFFFF, false⟩] } : VM W) =
        .ok ((), { io := w, pc := 2, locals := [0xFFFF, 0x7F7F] }) := by
    have hpop : popFloat F ({ io := w, pc := 2, locals := [0, 0], stack := [⟨0x7F7FFFFF, false⟩] } : VM W) =
        .ok (F.ofBits 0x7F7FFFFF, { io := w, pc := 2, locals := [0, 0] }) := rfl
    refine (StateExcept.bind_eq hpop).trans ?_
    rw [setLocalFloat, StateExcept.bind_eq (hbits _)]
    rfl
  have hstored := step_eq (s := { io := w, pc := 1, locals := [0, 0], stack := [⟨0x7F7FFFFF, false⟩] }) rfl (by simp) hexecute
  have hstart : VM.start floatProgram [] w = .ok { io := w, locals := [0, 0] } := rfl
  rw [runMain, hstart]
  dsimp only
  rw [steps_succ hpushed, steps_succ hstored]
  rfl

theorem decodeSingle_largest : decodeSingle 0x7F7FFFFF = largest := by
  norm_num [decodeSingle, largest]

/-- The largest float cannot be printed, and nothing in the debugger catches that. -/
theorem display_raises : ∃ s, runMain floatProgram (rationalFloats largestTexts) transcript [] [] 2 = .ok (.running s) ∧
      ∃ frame ∈ framesOf floatProgram s, ∃ info ∈ localsOf floatProgram frame,
        formatLocal floatProgram (rationalFloats largestTexts) frame info s = .error (.host "OverflowError") := by
  have hfinite : (rationalFloats largestTexts).isFinite ((rationalFloats largestTexts).ofBits 0x7F7FFFFF) = true := by
    change decide (|decodeSingle 0x7F7FFFFF| < 2 ^ 1024) = true
    rw [decodeSingle_largest, decide_eq_true_iff]
    exact isSingle_largest.lt.trans (pow_lt_pow_right₀ (by norm_num) (by norm_num))
  have hpack : (rationalFloats largestTexts).pack ((rationalFloats largestTexts).ofBits 0x7F7FFFFF) = some 0x7F7FFFFF := by
    decide +kernel
  refine ⟨_, floatProgram_runs _ transcript [] hfinite hpack, _, List.mem_singleton.mpr rfl, ⟨"x", 0, "float", 2, false⟩,
    List.mem_singleton.mpr rfl, StateExcept.bind_error ?_⟩
  have hplain : ¬("float").endsWith "]" = true := by
    rw [endsWith_iff]
    decide
  rw [describeLocal, describeSlots, if_neg hplain, describeSlot, if_neg hplain, if_pos rfl]
  refine StateExcept.bind_error ?_
  change formatFloat (rationalFloats largestTexts) (decodeSingle 0x7F7FFFFF) _ = _
  rw [decodeSingle_largest]
  exact largest_raises _

end Termination

end QuinLang.Debugger
