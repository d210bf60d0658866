import QuinLang.Debugger.Control
import QuinLang.Lib.StateExcept

/-! A debugger that only looks does not change the run. -/

namespace QuinLang.Debugger

section Reading

variable {W α β : Type}

/-- A computation that leaves the machine as it was. -/
def Reads (x : Exec W α) : Prop := ∀ s a s', x s = .ok (a, s') → s' = s

theorem reads_pure (a : α) : Reads (pure a : Exec W α) := by
  intro s b s' h
  cases h
  rfl

theorem reads_get : Reads (get : Exec W (VM W)) := by
  intro s b s' h
  cases h
  rfl

theorem reads_fault (message : String) : Reads (fault message : Exec W α) := by
  intro s a s' h
  cases h

theorem reads_raise (exception : String) : Reads (raise exception : Exec W α) := by
  intro s a s' h
  cases h

theorem Reads.bind {x : Exec W α} {f : α → Exec W β} (hx : Reads x) (hf : ∀ a, Reads (f a)) : Reads (x >>= f) := by
  intro s b s' h
  obtain ⟨a, s₁, h₁, h₂⟩ := StateExcept.bind_ok.mp h
  rw [hx s a s₁ h₁] at h₂
  exact hf a s b s' h₂

theorem Reads.ite {c : Prop} [Decidable c] {x y : Exec W α} (hx : Reads x) (hy : Reads y) :
    Reads (if c then x else y) := by
  split
  · exact hx
  · exact hy

theorem Reads.map {x : Exec W α} (hx : Reads x) (f : α → β) : Reads (f <$> x) :=
  hx.bind fun a => reads_pure (f a)

theorem Reads.recover {x : Exec W α} (hx : Reads x) (caught : Fault → Bool) (other : α) :
    Reads (recover caught other x) := by
  intro s a s' h
  unfold Debugger.recover at h
  cases hr : x s with
  | ok r =>
    rw [hr] at h
    cases h
    exact hx s a s' hr
  | error e =>
    rw [hr] at h
    simp only at h
    split at h <;> cases h
    rfl

theorem reads_mapM {f : α → Exec W β} (hf : ∀ a, Reads (f a)) (xs : List α) : Reads (xs.mapM f) := by
  induction xs with
  | nil => exact reads_pure []
  | cons x xs ih =>
    rw [List.mapM_cons]
    exact (hf x).bind fun b => ih.bind fun bs => reads_pure (b :: bs)

/-! The accessors the debugger shares with the interpreter. -/

theorem reads_readHeap (addr : ℕ) : Reads (readHeap addr : Exec W ℕ) := by
  refine reads_get.bind fun s => ?_
  split
  · exact reads_pure _
  · exact reads_raise _

theorem reads_stringBytes (addr : ℕ) : Reads (stringBytes addr : Exec W (List UInt8)) := by
  have hread : ∀ header, Reads (do
      let s ← (get : Exec W (VM W))
      match header with
      | some hdr =>
        if kind s.heap hdr ≠ KIND_STRING then fault s!"Value at {addr} is not a string"
        else return ByteMem.readBytes s.heap addr (min (detail s.heap hdr) (s.heapSize - addr))
      | none => fault s!"Value at {addr} is not a string") := by
    intro header
    refine reads_get.bind fun s => ?_
    cases header with
    | none => exact reads_fault _
    | some hdr => exact .ite (reads_fault _) (reads_pure _)
  exact .ite ((reads_fault _).bind fun _ => hread (headerOf addr)) (hread (headerOf addr))

theorem reads_stringText (addr : ℕ) : Reads (stringText addr : Exec W String) :=
  (reads_stringBytes addr).bind fun _ => reads_pure _

theorem reads_arrayAt (ref : ℕ) (opName : String) : Reads (arrayAt ref opName : Exec W (ℕ × Bool)) := by
  have hread : ∀ header, Reads (do
      let s ← (get : Exec W (VM W))
      match header with
      | some hdr =>
        if kind s.heap hdr = KIND_REFARRAY ∨ kind s.heap hdr = KIND_VALARRAY then
          return (detail s.heap hdr, kind s.heap hdr == KIND_REFARRAY)
        else fault s!"Value at {ref} is not an array"
      | none => fault s!"Value at {ref} is not an array") := by
    intro header
    refine reads_get.bind fun s => ?_
    cases header with
    | none => exact reads_fault _
    | some hdr => exact .ite (reads_pure _) (reads_fault _)
  exact .ite ((reads_fault _).bind fun _ => hread (headerOf ref)) (hread (headerOf ref))

variable (F : FloatOps)

theorem reads_shortest (value : F.Fl) (remaining digits : ℕ) : Reads (shortest F value remaining digits : Exec W String) := by
  induction remaining generalizing digits with
  | zero => exact reads_pure _
  | succ remaining ih =>
    rw [shortest]
    split
    · exact reads_raise _
    · split
      · exact reads_pure _
      · exact ih _

theorem reads_formatFloat (value : F.Fl) : Reads (formatFloat F value : Exec W String) :=
  (reads_shortest F value 9 1).bind fun text => by
    split
    · exact reads_pure _
    · exact reads_pure _

end Reading

section Inspection

variable {W : Type} (P : CompiledProgram) (F : FloatOps)

theorem reads_layoutAt (ref : ℕ) : Reads (layoutAt P ref : Exec W (Option StructLayout)) := by
  unfold layoutAt
  split
  · exact reads_pure _
  · refine Reads.recover ((reads_readHeap _).bind fun w => ?_) _ _
    split
    · exact reads_pure _
    · exact (reads_readHeap _).bind fun _ => reads_pure _

theorem reads_describeFloat (bits : ℕ) (typeName : String) : Reads (describeFloat F bits typeName : Exec W Value) :=
  (reads_formatFloat F _).bind fun _ => reads_pure _

theorem reads_describeObject (ref : ℕ) (typeName : String) : Reads (describeObject P ref typeName : Exec W Value) := by
  unfold describeObject
  split
  · exact reads_pure _
  · refine (reads_layoutAt P ref).bind fun layout => ?_
    cases layout with
    | none => exact reads_pure _
    | some layout => dsimp only; split_ifs <;> exact reads_pure _

theorem reads_fieldWith {describe : ℕ → String → Exec W Value} (hd : ∀ w t, Reads (describe w t)) (addr : ℕ)
    (typeName : String) : Reads (fieldWith F describe addr typeName) := by
  refine Reads.recover ?_ _ _
  split
  · exact (reads_readHeap _).bind fun _ => (reads_readHeap _).bind fun _ => reads_describeFloat F _ _
  · exact (reads_readHeap _).bind fun w => hd w typeName

theorem reads_describeArray {describe : ℕ → String → Exec W Value} (hd : ∀ w t, Reads (describe w t)) (ref : ℕ)
    (typeName element : String) : Reads (describeArray F describe ref typeName element) := by
  unfold describeArray
  split
  · exact reads_pure _
  · refine (Reads.recover ((reads_arrayAt ref "print").map some) _ _).bind fun found => ?_
    cases found with
    | none => exact reads_pure _
    | some found =>
      exact (reads_mapM (fun i => (reads_fieldWith F hd _ _).bind fun _ => reads_pure _) _).bind fun _ => reads_pure _

theorem reads_describeWord : ∀ (frames w : ℕ) (typeName : String), Reads (describeWord P F frames w typeName : Exec W Value)
  | frames + 4, w, typeName => by
    rw [describeWord]
    refine .ite (reads_pure _) (.ite (.ite (reads_pure _) ?_) (.ite (reads_pure _) (.ite ?_ ?_)))
    · exact Reads.recover ((reads_stringText w).bind fun _ => reads_pure _) _ _
    · cases P.functions[w]? with
      | none => exact reads_pure _
      | some fn => exact reads_pure _
    · cases elementType typeName with
      | none => exact reads_describeObject P w typeName
      | some element => exact reads_describeArray F (reads_describeWord frames) w typeName element
  | 0, _, _ | 1, _, _ | 2, _, _ | 3, _, _ => reads_raise _

theorem reads_describeSlot (slots : List ℕ) (slot : ℕ) (typeName : String) :
    Reads (describeSlot P F slots slot typeName : Exec W Value) := by
  unfold describeSlot
  split_ifs
  · exact reads_raise _
  · exact reads_describeFloat F _ _
  · exact reads_describeWord P F _ _ _

theorem reads_describeLocal (frame : FrameView) (info : LocalInfo) :
    Reads (describeLocal P F frame info : Exec W Value) := by
  unfold describeLocal describeSlots
  split
  · refine Reads.bind ?_ fun base => ?_
    · unfold baseName
      split
      · exact reads_pure _
      · exact reads_raise _
    · exact (reads_mapM (fun i => (reads_describeSlot P F _ _ _).bind fun _ => reads_pure _) _).bind
        fun _ => reads_pure _
  · exact reads_describeSlot P F _ _ _

theorem reads_childrenWithin (frames : ℕ) (value : Value) :
    Reads (childrenWithin P F frames value : Exec W (List (String × Value))) := by
  refine .ite (reads_pure _) (.ite (reads_pure _) ((reads_layoutAt P _).bind fun layout => ?_))
  cases layout with
  | none => exact reads_pure _
  | some layout =>
    exact reads_mapM (fun field => (reads_fieldWith F (reads_describeWord P F _) _ _).bind fun _ => reads_pure _) _

theorem reads_childrenOf (value : Value) : Reads (childrenOf P F value : Exec W (List (String × Value))) :=
  reads_childrenWithin P F _ value

theorem reads_flatten : ∀ (frames : ℕ) (value : Value) (depth : ℕ), Reads (flatten P F frames value depth : Exec W String)
  | frames + 2, value, depth => by
    have hchildren := reads_childrenWithin (W := W) P F frames value
    have hrest : ∀ (children : List (String × Value)) (depth : ℕ),
        Reads (children.mapM fun c => (flatten P F frames c.2 depth : Exec W String)) := fun children depth =>
      reads_mapM (fun c => reads_flatten frames c.2 depth) children
    rw [flatten]
    cases value.kind with
    | scalar => exact reads_pure _
    | array => exact hchildren.bind fun children => (hrest children _).bind fun _ => reads_pure _
    | variant =>
      dsimp only
      split
      · exact reads_pure _
      · exact hchildren.bind fun children => (hrest children _).bind fun _ => reads_pure _
    | struct =>
      dsimp only
      split
      · exact reads_pure _
      · exact hchildren.bind fun children => (hrest children _).bind fun _ => reads_pure _
  | 0, _, _ | 1, _, _ => reads_raise _

theorem reads_formatLocal (frame : FrameView) (info : LocalInfo) :
    Reads (formatLocal P F frame info : Exec W String) :=
  (reads_describeLocal P F frame info).bind fun _ => reads_flatten P F _ _ _

end Inspection

section Runs

variable {W σ : Type} {P : CompiledProgram} {F : FloatOps} {io : ProgramIO W} {sep : Char}

theorem inspect_unchanged {β : Type} {x : Exec W β} (hx : Reads x) (d : State) (s : VM W) : (inspect x d s).2 = (d, s) := by
  unfold inspect
  cases hr : x s with
  | error e => rfl
  | ok v => exact congrArg (d, ·) (hx s v.1 v.2 hr)

/-- No command writes to the machine. -/
theorem Command.run_unchanged {β : Type} (c : Command β) (d : State) (s : VM W) : (c.run P F sep d s).2.2 = s := by
  cases c with
  | describeLocal frame info => exact congrArg Prod.snd (inspect_unchanged (reads_describeLocal P F frame info) d s)
  | childrenOf value => exact congrArg Prod.snd (inspect_unchanged (reads_childrenOf P F value) d s)
  | formatLocal frame info => exact congrArg Prod.snd (inspect_unchanged (reads_formatLocal P F frame info) d s)
  | _ => rfl

theorem Session.run_unchanged (session : Session σ) {d : State} {s : VM W} {r : σ × State × VM W}
    (h : session.run P F sep d s = .ok r) : r.2.2 = s := by
  induction session generalizing d s with
  | returned memory =>
    cases h
    rfl
  | quit => cases h
  | raised e => cases h
  | command c next ih => exact (ih _ h).trans (c.run_unchanged d s)

theorem Stopped.run_unchanged {stopped : Stopped W σ} {r : σ × State × VM W} (h : stopped.run P F sep = .ok r) :
    r.2.2 = stopped.vm := by
  unfold Stopped.run at h
  cases hs : stopped.session.run P F sep stopped.debugger stopped.vm with
  | error why =>
    rw [hs] at h
    cases h
  | ok v =>
    rw [hs] at h
    simp only at h
    split at h <;> cases h
    exact stopped.session.run_unchanged hs

/-- The front end resumes: it lets no exception out, and it neither quits nor returns without
choosing how to go on. -/
def Stopped.Resumes (P : CompiledProgram) (F : FloatOps) (sep : Char) (stopped : Stopped W σ) : Prop :=
  ∃ r, stopped.run P F sep = .ok r

variable {front : FrontEnd W σ}

/-- The hook hands back the machine it was given. -/
theorem onInstruction_resumes {pause : Bool} {memory : σ} {d : State} {s : VM W}
    (h : ∀ stopped ∈ (onInstruction P F sep front pause memory d s).1, stopped.Resumes P F sep) :
    ∃ memory' d', (onInstruction P F sep front pause memory d s).2 = .ok (memory', d', s) := by
  unfold onInstruction at h ⊢
  generalize d.stopAt P pause s = at' at h ⊢
  obtain ⟨_ | stop, d'⟩ := at'
  · exact ⟨memory, d', rfl⟩
  · obtain ⟨⟨memory', d'', s'⟩, hr⟩ := h _ (List.mem_singleton_self _)
    obtain rfl : s' = s := Stopped.run_unchanged hr
    exact ⟨memory', d'', hr⟩

theorem faultStop_ending {e : Fault} {left : VM W} {memory : σ} {d : State}
    (h : ∀ stopped ∈ (faultStop P F sep front e left memory d).stops, stopped.Resumes P F sep) :
    (faultStop P F sep front e left memory d).ending = .faulted e := by
  cases e with
  | host exception => rfl
  | vmError message =>
    unfold faultStop at h ⊢
    dsimp only at h ⊢
    obtain ⟨last, hl⟩ : ∃ last, last = stopped front memory d left
        { reason := .fault, frame := innermost P left, error := some message } := ⟨_, rfl⟩
    rw [← hl] at h ⊢
    cases hr : last.run P F sep with
    | ok r => rfl
    | error why =>
      rw [hr] at h
      obtain ⟨r, hr'⟩ := h last (List.mem_singleton_self _)
      rw [hr] at hr'
      cases hr'

/-- Turn for turn, the debugged loop is the plain one. -/
theorem debugLoop_eq {pauses : ℕ → Bool} {left : VM W → VM W} (n : ℕ) {k : ℕ} {memory : σ} {d : State} {s : VM W}
    (h : ∀ stopped ∈ (debugLoop P F io sep front pauses left n k memory d s).stops, stopped.Resumes P F sep) :
    (debugLoop P F io sep front pauses left n k memory d s).visited = (plainLoop P F io n s).1 ∧
      (debugLoop P F io sep front pauses left n k memory d s).ending = (plainLoop P F io n s).2 := by
  induction n generalizing k memory d s with
  | zero => exact ⟨rfl, rfl⟩
  | succ n ih =>
    rw [debugLoop] at h ⊢
    rw [plainLoop]
    set hook := if s.pc < P.code.length then onInstruction P F sep front (pauses k) memory d s
      else ([], .ok (memory, d, s)) with hhook
    have hback : (∀ stopped ∈ hook.1, stopped.Resumes P F sep) → ∃ memory' d', hook.2 = .ok (memory', d', s) := by
      rw [hhook]
      split
      · exact onInstruction_resumes
      · exact fun _ => ⟨memory, d, rfl⟩
    dsimp only at h ⊢
    have hstops : ∀ stopped ∈ hook.1, stopped.Resumes P F sep := by
      intro stopped hm
      refine h stopped ?_
      split
      · exact hm
      · split <;> first | exact List.mem_append_left _ hm | exact hm
    obtain ⟨memory', d', hok⟩ := hback hstops
    simp only [hok] at h ⊢
    cases hstep : s.step P F io with
    | error e =>
      simp only [hstep] at h ⊢
      exact ⟨trivial, faultStop_ending fun stopped hm => h stopped (List.mem_append_right _ hm)⟩
    | ok progress =>
      cases progress with
      | exited code s' => exact ⟨rfl, rfl⟩
      | running s' =>
        simp only [hstep] at h ⊢
        obtain ⟨hv, he⟩ := ih fun stopped hm => h stopped (List.mem_append_right _ hm)
        exact ⟨congrArg (s :: ·) hv, he⟩

/-- Every stop asks the front end. -/
def Asked (front : FrontEnd W σ) (here : Stopped W σ) : Prop :=
  ∃ memory d s stop, here = stopped front memory d s stop

theorem faultStop_asked (e : Fault) (left : VM W) (memory : σ) (d : State) :
    ∀ here ∈ (faultStop P F sep front e left memory d).stops, Asked front here := by
  intro here hm
  cases e with
  | host exception => cases hm
  | vmError message =>
    unfold faultStop at hm
    dsimp only at hm
    split at hm <;> exact ⟨memory, d, left, _, List.mem_singleton.mp hm⟩

theorem debugLoop_asked {pauses : ℕ → Bool} {left : VM W → VM W} (n : ℕ) {k : ℕ} {memory : σ} {d : State}
    {s : VM W} : ∀ here ∈ (debugLoop P F io sep front pauses left n k memory d s).stops, Asked front here := by
  induction n generalizing k memory d s with
  | zero => exact fun here hm => absurd hm List.not_mem_nil
  | succ n ih =>
    intro here hm
    rw [debugLoop] at hm
    set hook := if s.pc < P.code.length then onInstruction P F sep front (pauses k) memory d s
      else ([], .ok (memory, d, s)) with hhook
    have hstops : ∀ here ∈ hook.1, Asked front here := by
      intro here hm
      rw [hhook] at hm
      split at hm
      · unfold onInstruction at hm
        generalize d.stopAt P (pauses k) s = at' at hm
        obtain ⟨_ | stop, d'⟩ := at'
        · cases hm
        · exact ⟨memory, d', s, stop, List.mem_singleton.mp hm⟩
      · cases hm
    dsimp only at hm
    split at hm
    · exact hstops here hm
    · split at hm
      · rcases List.mem_append.mp hm with hm | hm
        · exact hstops here hm
        · exact faultStop_asked _ _ _ _ here hm
      · exact hstops here hm
      · rcases List.mem_append.mp hm with hm | hm
        · exact hstops here hm
        · exact ih here hm

theorem debugLoop_hooked {pauses : ℕ → Bool} {left : VM W → VM W} (n : ℕ) {k : ℕ} {memory : σ} {d : State} {s : VM W} :
    (debugLoop P F io sep front pauses left n k memory d s).hooked = true := by
  cases n with
  | zero => rfl
  | succ n =>
    rw [debugLoop]
    dsimp only
    split
    · rfl
    · split <;> rfl

theorem faultStop_hooked {e : Fault} {left : VM W} {memory : σ} {d : State} : (faultStop P F sep front e left memory d).hooked = true := by
  cases e with
  | host exception => rfl
  | vmError message =>
    unfold faultStop
    dsimp only
    split <;> rfl

-- Derives the equations once, for all the proofs below.
attribute [local simp] Log.unhooked

theorem Log.unhooked_hooked {log : Log W σ} (h : log.hooked = true) : log.unhooked.hooked = log.ending.isRunning := by
  unfold Log.unhooked
  cases he : log.ending with
  | running s => exact h
  | exited | faulted | abandoned => rfl

@[simp] theorem Log.unhooked_visited (log : Log W σ) : log.unhooked.visited = log.visited := by
  unfold Log.unhooked
  split <;> rfl

@[simp] theorem Log.unhooked_stops (log : Log W σ) : log.unhooked.stops = log.stops := by
  unfold Log.unhooked
  split <;> rfl

@[simp] theorem Log.unhooked_ending (log : Log W σ) : log.unhooked.ending = log.ending := by
  unfold Log.unhooked
  split <;> rfl

theorem debugRun_asked {pauses : ℕ → Bool} {left : VM W → VM W} {args : List String} {w : W} {memory : σ} {d : State}
    {n : ℕ} : ∀ here ∈ (debugRun P F io sep front pauses left args w memory d n).stops, Asked front here := by
  intro here hm
  rw [debugRun, Log.unhooked_stops] at hm
  split at hm
  · exact faultStop_asked _ _ _ _ here hm
  · exact debugLoop_asked n here hm

/-- Under a front end that only looks and resumes, a run is the run without a debugger;
its inspections leave the machine alone; and the hook is gone when the run ends. -/
theorem debugging_transparent (front : FrontEnd W σ) (pauses : ℕ → Bool) (left : VM W → VM W) (args : List String)
    (w : W) (memory : σ) (d : State) (n : ℕ)
    (h : ∀ stopped ∈ (debugRun P F io sep front pauses left args w memory d n).stops, stopped.Resumes P F sep) :
    (debugRun P F io sep front pauses left args w memory d n).visited = (plainRun P F io args w n).1 ∧
    (debugRun P F io sep front pauses left args w memory d n).ending = (plainRun P F io args w n).2 ∧
    (∀ stopped ∈ (debugRun P F io sep front pauses left args w memory d n).stops, ∀ memory' d' t,
      stopped.run P F sep = .ok (memory', d', t) → t = stopped.vm) ∧
    (debugRun P F io sep front pauses left args w memory d n).hooked =
      (debugRun P F io sep front pauses left args w memory d n).ending.isRunning := by
  have hrun : (debugRun P F io sep front pauses left args w memory d n).visited = (plainRun P F io args w n).1 ∧
      (debugRun P F io sep front pauses left args w memory d n).ending = (plainRun P F io args w n).2 := by
    rw [debugRun, Log.unhooked_stops] at h
    rw [debugRun, Log.unhooked_visited, Log.unhooked_ending, plainRun]
    cases hs : VM.start P args w with
    | error e =>
      simp only [hs] at h ⊢
      refine ⟨?_, faultStop_ending h⟩
      cases e with
      | host exception => rfl
      | vmError message =>
        unfold faultStop
        dsimp only
        split <;> rfl
    | ok s =>
      simp only [hs] at h ⊢
      exact debugLoop_eq n h
  refine ⟨hrun.1, hrun.2, fun stopped _ memory' d' t hr => Stopped.run_unchanged hr, ?_⟩
  rw [debugRun, Log.unhooked_ending]
  refine Log.unhooked_hooked ?_
  split
  · exact faultStop_hooked
  · exact debugLoop_hooked n

end Runs

section Stepping

/-- A host on which every float is zero. -/
def zeroFloats : FloatOps where
  Fl := Unit
  ofBits _ := ()
  pack _ := some 0
  isFinite _ := true
  repr _ := "0.0"
  formatG _ _ := "0"
  parse _ := ()
  add _ _ := ()
  sub _ _ := ()
  mul _ _ := ()
  div _ _ := ()
  neg _ := ()
  lt _ _ := false
  eq _ _ := true
  ofInt _ := ()
  trunc _ := some 0

/-- Output is kept, and there is nothing to read. -/
def transcript : ProgramIO (List String) where
  write text w := .ok (w ++ [text])
  readLine w := .ok ("", w)
  readFile path w := (.error path, w)
  writeFile path _ _ w := (.error path, w)
  fileExists _ w := (.ok false, w)
  deleteFile path w := (.error path, w)

def greeting : CompiledProgram where
  code := [.pushInt 7, .storeLocal 0, .loadLocal 0, .printlnInt, .pushInt 0, .ret]
  functions := [{ name := "main", entryPc := 0, numLocals := 1, numParams := 0
                  locals := [⟨"x", 0, "int", 1, false⟩] }]
  strings := []
  structs := []
  sourceMap := ⟨[(0, ⟨1, 1⟩), (2, ⟨2, 1⟩), (4, ⟨3, 1⟩)]⟩

/-- Looks for `x` in every frame at every stop, and goes to the next line. -/
def stepper : FrontEnd (List String) (List LocalInfo) := fun memory _ _ stop =>
  .command .frames fun _ => .command (.lookupName stop.frame "x") fun infos =>
    .command (.resume .stepIn 0) fun _ => .returned (memory ++ infos)

theorem greeting_stepped :
    (debugRun greeting zeroFloats transcript '/' stepper (fun _ => false) id [] [] [] {} 10).ending =
      (plainRun greeting zeroFloats transcript [] [] 10).2 := by
  refine (debugging_transparent stepper (fun _ => false) id [] [] [] {} 10 fun here hm => ?_).2.1
  obtain ⟨memory, d, s, stop, rfl⟩ := debugRun_asked here hm
  exact ⟨_, rfl⟩

end Stepping

end QuinLang.Debugger
