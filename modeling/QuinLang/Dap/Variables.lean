import QuinLang.Debugger.Transparency
import QuinLang.Lib.StateExcept
import QuinLang.Lib.Dict

/-! Inspection through numbers: a client asks for a frame's scopes, for a scope's variables and
for the children of a value by the numbers it was given, until the program stops anew. -/

namespace QuinLang.Dap.Inspection

open StateExcept Debugger

inductive FrameNumber
  | frame
  | locals
  deriving DecidableEq

/-- What a frame's number is kept under. -/
structure FrameKey where
  kind : FrameNumber
  depth : ℕ
  deriving DecidableEq

/-- What a number was given out for. -/
inductive Handle
  | keyed (kind : FrameNumber) (depth : ℕ)
  | value (value : Value)

structure Handles where
  entries : List (ℤ × Handle) := []
  frames : List (FrameKey × ℤ) := []
  next : ℤ := 1

/-- A handler of a request, reading a suspended program. -/
abbrev Inspecting := StateT Handles (Except Fault)

namespace Handles

def clear (h : Handles) : Handles := { h with entries := [], frames := [] }

def get (h : Handles) (reference : ℤ) : Option Handle := h.entries.lookup reference

def store (entry : Handle) : Inspecting ℤ := fun h =>
  .ok (h.next, { h with entries := Dict.assign h.entries h.next entry, next := h.next + 1 })

/-- One number per frame per stop, so repeated requests agree. -/
def keyed (kind : FrameNumber) (depth : ℕ) : Inspecting ℤ := do
  match (← getThe Handles).frames.lookup ⟨kind, depth⟩ with
  | some reference => return reference
  | none => do
    let reference ← store (.keyed kind depth)
    modify fun h : Handles => { h with frames := Dict.assign h.frames ⟨kind, depth⟩ reference }
    return reference

def frame (depth : ℕ) : Inspecting ℤ := keyed .frame depth
def locals (depth : ℕ) : Inspecting ℤ := keyed .locals depth

/-- A fresh reference for one expandable value. -/
def value (v : Value) : Inspecting ℤ := if v.kind = .scalar then return 0 else store (.value v)

end Handles

def typeNameOf : Value → String
  | .mk _ typeName _ _ _ _ => typeName

structure Variable where
  name : String
  value : String
  typeName : String
  reference : ℤ
  indexedVariables : Option ℕ
  evaluateName : Option String
  deriving DecidableEq

def variable_ (name : String) (value : Value) (reference : ℤ) (evaluateName : Option String := none) : Variable where
  name := name
  value := value.summary
  typeName := typeNameOf value
  reference := reference
  indexedVariables := if value.kind = .array then some value.elements.length else none
  evaluateName := evaluateName.filter (· ≠ "")

structure StackFrame where
  id : ℤ
  name : String
  line : ℕ
  column : ℕ
  source : Option String
  deriving DecidableEq

inductive Answer
  | stackTrace (frames : List StackFrame) (total : ℕ)
  | scopes (reference : ℤ)
  | variables_ (shown : List Variable)
  /-- the value alone, under no name -/
  | evaluate (result : Variable)
  | refused (message : String)

/-- `xs[start:stop]`, negative bounds counting from the end. -/
def slice {α : Type} (xs : List α) (start : ℤ) (stop : Option ℤ) : List α :=
  let bound (i : ℤ) : ℕ := if i < 0 then (i + xs.length).toNat else i.toNat
  (xs.take (stop.elim xs.length bound)).drop (bound start)

section Handlers

variable {W : Type} (P : CompiledProgram) (F : FloatOps) (isIdentifier : String → Bool) (strip : String → String) (vm : VM W)

/-- What the debugger finds in the program. -/
def look {α : Type} (x : Exec W α) : Inspecting α := fun h =>
  match x vm with
  | .ok r => .ok (r.1, h)
  | .error e => .error e

def stackFrame (view : FrameView) : Inspecting StackFrame := do
  let id ← Handles.frame view.depth
  return ⟨id, view.function, view.line.getD 0, view.col.getD 0, if view.file = "" then none else some view.file⟩

def onStackTrace (start levels : ℤ) : Inspecting Answer := do
  let frames := framesOf P vm
  let window := slice frames start (if levels = 0 then none else some (start + levels))
  return .stackTrace (← window.mapM stackFrame) frames.length

/-- The frame a request named, or the innermost one when it named none. -/
def frameFor (frameId : Option ℤ) (h : Handles) : Option FrameView :=
  match frameId with
  | none => (framesOf P vm).head?
  | some id =>
    match h.get id with
    | some (.keyed .frame depth) => (framesOf P vm)[depth]?
    | _ => none

def onScopes (frameId : Option ℤ) : Inspecting Answer := do
  match frameFor P vm frameId (← get) with
  | none => return .refused "unknown frame"
  | some frame => return .scopes (← Handles.locals frame.depth)

/-- A slot as a variable; one that shares its name with another is told apart by its slot. -/
def localVariable (frame : FrameView) (info : LocalInfo) : Inspecting Variable := do
  let value ← look vm (describeLocal P F frame info)
  let shadowed : Bool := (lookupName P frame info.name).length > 1
  let reference ← Handles.value value
  return variable_ (if shadowed then s!"{info.name} (slot {info.slot})" else info.name) value reference
    (if shadowed then none else some info.name)

def frameVariables (depth : ℕ) : Inspecting (List Variable) :=
  match (framesOf P vm)[depth]? with
  | none => return []
  | some frame => (localsOf P frame).mapM (localVariable P F vm frame)

def childVariable (child : String × Value) : Inspecting Variable := do
  return variable_ child.1 child.2 (← Handles.value child.2)

def childVariables (value : Value) : Inspecting (List Variable) := do
  (← look vm (childrenOf P F value)).mapM childVariable

def onVariables (reference : ℤ) : Inspecting Answer := do
  match (← get).get reference with
  | none => return .refused "unknown or stale variablesReference"
  | some (.keyed .locals depth) => return .variables_ (← frameVariables P F vm depth)
  | some (.value value) => return .variables_ (← childVariables P F vm value)
  -- the number of a frame is no value
  | some (.keyed .frame _) => throw (.host "AttributeError")

/-- A bare variable name, which is what hover and watch ask for. -/
def onEvaluate (frameId : Option ℤ) (text : String) : Inspecting Answer := do
  match frameFor P vm frameId (← get) with
  | none => return .refused "unknown frame"
  | some frame =>
    let expression := strip text
    if !isIdentifier expression then return .refused "only variable names can be evaluated"
    else
      match lookupName P frame expression with
      | [] => return .refused s!"no variable named '{expression}' in {frame.function}"
      | [info] => do
        let value ← look vm (describeLocal P F frame info)
        return .evaluate (variable_ "" value (← Handles.value value))
      | infos => return .refused (s!"'{expression}' names more than one slot here ("
          ++ ", ".intercalate (infos.map fun info => toString info.slot) ++ "); see Locals")

inductive Request
  | stackTrace (start levels : ℤ)
  | scopes (frameId : Option ℤ)
  | variables_ (reference : ℤ)
  | evaluate (frameId : Option ℤ) (text : String)

/-- The number a request is about. -/
def Request.reference : Request → Option ℤ
  | .stackTrace _ _ => none
  | .scopes frameId => frameId
  | .variables_ reference => some reference
  | .evaluate frameId _ => frameId

def Request.handle : Request → Inspecting Answer
  | .stackTrace start levels => onStackTrace P vm start levels
  | .scopes frameId => onScopes P vm frameId
  | .variables_ reference => onVariables P F vm reference
  | .evaluate frameId text => onEvaluate P F isIdentifier strip vm frameId text

end Handlers

section Runs

variable {W : Type} (P : CompiledProgram) (F : FloatOps) (isIdentifier : String → Bool) (strip : String → String)

/-- The client's numbers, and the program while it is stopped. -/
structure Inspected (W : Type) where
  handles : Handles := {}
  suspension : Option (VM W) := none

inductive Happening (W : Type)
  | stopped (vm : VM W)
  | resumed
  | asked (request : Request)

/-- A request, with what it is answered. -/
def Inspected.ask (s : Inspected W) (request : Request) : Except Fault (Answer × Inspected W) :=
  match s.suspension with
  | none => .ok (.refused "the program is not suspended", s)
  | some vm => (request.handle P F isIdentifier strip vm s.handles).map fun r => (r.1, { s with handles := r.2 })

def Inspected.step (s : Inspected W) : Happening W → Except Fault (Inspected W)
  | .stopped vm => .ok { handles := s.handles.clear, suspension := some vm }
  | .resumed => .ok { s with suspension := none }
  | .asked request => (s.ask P F isIdentifier strip request).map Prod.snd

def Inspected.run (s : Inspected W) : List (Happening W) → Except Fault (Inspected W)
  | [] => .ok s
  | h :: hs => do (← s.step P F isIdentifier strip h).run hs

end Runs

namespace Handles

/-- The numbers in use were given out, and a frame has the number it was given. -/
structure Sound (h : Handles) : Prop where
  pos : 1 ≤ h.next
  below : ∀ k x, h.get k = some x → 1 ≤ k ∧ k < h.next
  frames : ∀ kind depth k, h.frames.lookup ⟨kind, depth⟩ = some k → h.get k = some (.keyed kind depth)

/-- More numbers are given out, none anew. -/
structure Grows (h h' : Handles) : Prop where
  next : h.next ≤ h'.next
  kept : ∀ k x, h.get k = some x → h'.get k = some x
  fresh : ∀ k, k < h.next → h.get k = none → h'.get k = none
  frames : ∀ key k, h.frames.lookup key = some k → h'.frames.lookup key = some k

variable {h h' h'' : Handles}

theorem Grows.refl (h : Handles) : Grows h h :=
  ⟨le_refl _, fun _ _ hk => hk, fun _ _ hk => hk, fun _ _ hk => hk⟩

theorem Grows.trans (hg : Grows h h') (hg' : Grows h' h'') : Grows h h'' :=
  ⟨hg.next.trans hg'.next, fun k x hk => hg'.kept k x (hg.kept k x hk),
    fun k hlt hk => hg'.fresh k (hlt.trans_le hg.next) (hg.fresh k hlt hk), fun key k hk => hg'.frames key k (hg.frames key k hk)⟩

theorem sound_start : Sound {} := ⟨le_refl _, fun k x hk => (by cases hk), fun kind depth k hk => (by cases hk)⟩

theorem Sound.clear (hs : Sound h) : Sound h.clear := ⟨hs.pos, fun k x hk => (by cases hk), fun kind depth k hk => (by cases hk)⟩

theorem Sound.none_of_le (hs : Sound h) {k : ℤ} (hk : h.next ≤ k) : h.get k = none := by
  cases hx : h.get k with
  | none => rfl
  | some x =>
    have := (hs.below k x hx).2
    omega

end Handles

/-- What a handler answers, `Q` being what it tells of the numbers. -/
def Gives {α : Type} (m : Inspecting α) (Q : α → Handles → Prop) : Prop :=
  ∀ h a h', h.Sound → m h = .ok (a, h') → h'.Sound ∧ h.Grows h' ∧ Q a h'

/-- What goes on being true while numbers are given out. -/
def Stable (Q : Handles → Prop) : Prop := ∀ h h', h.Grows h' → Q h → Q h'

section Gives

variable {α β : Type} {m : Inspecting α} {Q : α → Handles → Prop}

theorem Gives.pure {a : α} (hQ : ∀ h, Q a h) : Gives (Pure.pure a : Inspecting α) Q := by
  intro h b h' hs hm
  cases hm
  exact ⟨hs, .refl h, hQ h⟩

theorem Gives.bind {f : α → Inspecting β} {Q' : β → Handles → Prop} (hm : Gives m Q)
    (hf : ∀ a, Gives (f a) fun b h' => (∀ h, h.Grows h' → Q a h → Q' b h')) : Gives (m >>= f) Q' := by
  intro h b h'' hs hrun
  obtain ⟨a, h', ha, hb⟩ := bind_ok.mp hrun
  obtain ⟨hs', hg, hQ⟩ := hm h a h' hs ha
  obtain ⟨hs'', hg', hQ'⟩ := hf a h' b h'' hs' hb
  exact ⟨hs'', hg.trans hg', hQ' h' hg' hQ⟩

theorem Gives.weaken {Q' : α → Handles → Prop} (hm : Gives m Q) (hQ : ∀ a h, Q a h → Q' a h) : Gives m Q' := by
  intro h a h' hs hrun
  obtain ⟨hs', hg, h⟩ := hm h a h' hs hrun
  exact ⟨hs', hg, hQ a h' h⟩

theorem Gives.mapM {xs : List α} {f : α → Inspecting β} {Q' : α → β → Handles → Prop} (hstable : ∀ x b, Stable (Q' x b))
    (hf : ∀ x ∈ xs, Gives (f x) (Q' x)) : Gives (xs.mapM f) fun bs h => List.Forall₂ (fun x b => Q' x b h) xs bs := by
  induction xs with
  | nil => exact Gives.pure fun h => .nil
  | cons x xs ih =>
    rw [List.mapM_cons]
    refine (hf x List.mem_cons_self).bind fun b => ?_
    refine (ih fun x hx => hf x (List.mem_cons_of_mem _ hx)).bind fun bs => ?_
    exact Gives.pure fun h'' h' hg' hall h hg hx => .cons (hstable x b h h'' hg hx) (hall.imp fun x b => hstable x b h' h'' hg')

end Gives

section Numbers

/-- A number that leads to the value, or 0 where there is nothing to open. -/
def Leads (v : Value) (reference : ℤ) (h : Handles) : Prop :=
  if v.kind = .scalar then reference = 0 else h.get reference = some (.value v)

/-- The number of a frame, or of its locals. -/
def Numbers (kind : FrameNumber) (depth : ℕ) (reference : ℤ) (h : Handles) : Prop :=
  h.frames.lookup ⟨kind, depth⟩ = some reference ∧ h.get reference = some (.keyed kind depth)

theorem leads_stable (v : Value) (reference : ℤ) : Stable (Leads v reference) := by
  intro h h' hg hl
  unfold Leads at hl ⊢
  split_ifs at hl ⊢
  · exact hl
  · exact hg.kept _ _ hl

theorem numbers_stable (kind : FrameNumber) (depth : ℕ) (reference : ℤ) : Stable (Numbers kind depth reference) :=
  fun _ _ hg hn => ⟨hg.frames _ _ hn.1, hg.kept _ _ hn.2⟩

theorem store_gives (x : Handle) : Gives (Handles.store x) fun k h => h.get k = some x := by
  intro h k h' hs hrun
  cases hrun
  have hget (k : ℤ) : Handles.get { h with entries := Dict.assign h.entries h.next x, next := h.next + 1 } k =
      if k = h.next then some x else h.get k := Dict.lookup_assign h.entries h.next k x
  have hnext := hs.none_of_le (le_refl h.next)
  have hne {k : ℤ} {y : Handle} (hk : h.get k = some y) : k ≠ h.next := by
    rintro rfl
    rw [hnext] at hk
    cases hk
  refine ⟨⟨?_, fun k y hk => ?_, fun kind depth k hk => ?_⟩, ⟨?_, fun k y hk => ?_, fun k hlt hk => ?_, fun key k hk => hk⟩, ?_⟩
  · have := hs.pos
    dsimp only
    omega
  · rw [hget] at hk
    split_ifs at hk with hkn
    · have := hs.pos
      dsimp only
      omega
    · have := hs.below k y hk
      dsimp only
      omega
  · have hkept := hs.frames kind depth k hk
    rw [hget, if_neg (hne hkept), hkept]
  · dsimp only
    omega
  · rw [hget, if_neg (hne hk), hk]
  · rw [hget, if_neg (by omega), hk]
  · exact (hget h.next).trans (if_pos rfl)

theorem value_gives (v : Value) : Gives (Handles.value v) (Leads v) := by
  unfold Handles.value
  split_ifs with hscalar
  · exact Gives.pure fun h => (if_pos hscalar).mpr rfl
  · exact (store_gives (.value v)).weaken fun k h hk => (if_neg hscalar).mpr hk

theorem keyed_gives (kind : FrameNumber) (depth : ℕ) : Gives (Handles.keyed kind depth) (Numbers kind depth) := by
  intro h k h' hs hrun
  unfold Handles.keyed at hrun
  obtain ⟨h₁, h₂, hget, hrun⟩ := bind_ok.mp hrun
  cases hget
  cases hnone : h.frames.lookup ⟨kind, depth⟩ with
  | some k' =>
    simp only [hnone] at hrun
    cases hrun
    exact ⟨hs, .refl h, hnone, hs.frames kind depth k hnone⟩
  | none =>
    simp only [hnone] at hrun
    obtain ⟨k', h₁, hstore, hrun⟩ := bind_ok.mp hrun
    obtain ⟨hs₁, hg₁, hk'⟩ := store_gives _ h k' h₁ hs hstore
    have hframes : h₁.frames = h.frames := by
      cases hstore
      rfl
    cases hrun
    have hlookup (key : FrameKey) : (Dict.assign h₁.frames ⟨kind, depth⟩ k).lookup key =
        if key = ⟨kind, depth⟩ then some k else h₁.frames.lookup key := Dict.lookup_assign ..
    refine ⟨⟨hs₁.pos, hs₁.below, fun kind' depth' k hk => ?_⟩, ⟨hg₁.next, hg₁.kept, hg₁.fresh, fun key k hk => ?_⟩, ?_, hk'⟩
    · dsimp only at hk
      rw [hlookup] at hk
      split_ifs at hk with hkey
      · cases hk
        obtain ⟨rfl, rfl⟩ := FrameKey.mk.inj hkey
        exact hk'
      · exact hs₁.frames kind' depth' k hk
    · dsimp only
      rw [hlookup, hframes]
      split_ifs with hkey
      · rw [hkey, hnone] at hk
        cases hk
      · exact hk
    · dsimp only
      rw [hlookup, if_pos rfl]

end Numbers

def Answer.numbers : Answer → List ℤ
  | .stackTrace frames _ => frames.map StackFrame.id
  | .scopes reference => [reference]
  | .variables_ shown => shown.map Variable.reference
  | .evaluate result => [result.reference]
  | .refused _ => []

/-- Each number answered stands for something. -/
def Answer.Known (a : Answer) (h : Handles) : Prop := ∀ k ∈ a.numbers, k = 0 ∨ h.get k ≠ none

section Handled

variable {W : Type} {P : CompiledProgram} {F : FloatOps} {isIdentifier : String → Bool} {strip : String → String} {vm : VM W}

theorem look_gives {α : Type} (x : Exec W α) : Gives (look vm x) fun a _ => ∃ vm', x vm = .ok (a, vm') := by
  intro h a h' hs hrun
  unfold look at hrun
  split at hrun
  · next r hr =>
    cases hrun
    exact ⟨hs, .refl h, r.2, hr⟩
  · cases hrun

theorem frames_depth {view : FrameView} {d : ℕ} (h : (framesOf P vm)[d]? = some view) : view.depth = d := by
  unfold framesOf at h
  rw [List.getElem?_map, Option.map_eq_some_iff] at h
  obtain ⟨e, he, rfl⟩ := h
  exact (List.getElem?_zipIdx ..).symm.trans he |> fun h => by
    obtain ⟨x, -, rfl⟩ := Option.map_eq_some_iff.mp h
    exact Nat.zero_add d

theorem keyed_again {kind : FrameNumber} {depth : ℕ} {k : ℤ} {h : Handles} (hn : Numbers kind depth k h) :
    Handles.keyed kind depth h = .ok (k, h) := by
  unfold Handles.keyed
  rw [bind_eq (show (getThe Handles : Inspecting Handles) h = .ok (h, h) from rfl)]
  simp only [hn.1]
  rfl

/-- A frame with its number, and what it is shown as as long as it has it. -/
structure Framed (view : FrameView) (f : StackFrame) (h : Handles) : Prop where
  number : Numbers .frame view.depth f.id h
  again : ∀ h', Numbers .frame view.depth f.id h' → stackFrame view h' = .ok (f, h')

theorem framed_stable (view : FrameView) (f : StackFrame) : Stable (Framed view f) :=
  fun _ _ hg hf => ⟨numbers_stable _ _ _ _ _ hg hf.number, hf.again⟩

theorem stackFrame_gives (view : FrameView) : Gives (stackFrame view) (Framed view) :=
  (keyed_gives .frame view.depth).bind fun _ => .pure fun _ _ hg hk =>
    ⟨numbers_stable _ _ _ _ _ hg hk, fun _ hn => bind_eq (keyed_again hn)⟩

/-- A slot shown as a variable. -/
def Shows (P : CompiledProgram) (F : FloatOps) (vm : VM W) (frame : FrameView) (info : LocalInfo) (shown : Variable) (h : Handles) : Prop :=
  ∃ value vm', describeLocal P F frame info vm = .ok (value, vm') ∧ shown.value = value.summary ∧ shown.typeName = typeNameOf value ∧
    shown.name = (if (lookupName P frame info.name).length > 1 then s!"{info.name} (slot {info.slot})" else info.name) ∧
    Leads value shown.reference h

theorem shows_stable (frame : FrameView) (info : LocalInfo) (shown : Variable) : Stable (Shows P F vm frame info shown) := by
  rintro h h' hg ⟨value, vm', hd, hv, ht, hname, hl⟩
  exact ⟨value, vm', hd, hv, ht, hname, leads_stable _ _ _ _ hg hl⟩

theorem localVariable_gives (frame : FrameView) (info : LocalInfo) :
    Gives (localVariable P F vm frame info) (Shows P F vm frame info) := by
  refine (look_gives _).bind fun value => ?_
  refine (value_gives value).bind fun k => ?_
  rintro h a h' hs hrun
  cases hrun
  refine ⟨hs, .refl h, fun h₁ hg₁ hk h₀ _ hd => ?_⟩
  obtain ⟨vm', hd⟩ := hd
  exact ⟨value, vm', hd, rfl, rfl, by simp [variable_], leads_stable _ _ _ _ hg₁ hk⟩

theorem known_of_leads {v : Value} {k : ℤ} {h : Handles} (hl : Leads v k h) : k = 0 ∨ h.get k ≠ none := by
  unfold Leads at hl
  split_ifs at hl
  · exact .inl hl
  · exact .inr (by rw [hl]; exact Option.some_ne_none _)

theorem known_of_get {k : ℤ} {x : Handle} {h : Handles} (hk : h.get k = some x) : k = 0 ∨ h.get k ≠ none :=
  .inr (by rw [hk]; exact Option.some_ne_none x)

theorem exists_of_forall₂ {α β : Type} {R : α → β → Prop} {xs : List α} {bs : List β} (h : List.Forall₂ R xs bs) {b : β} (hb : b ∈ bs) :
    ∃ x ∈ xs, R x b := by
  induction h with
  | nil => cases hb
  | cons hx _ ih =>
    rcases List.mem_cons.mp hb with rfl | hb
    · exact ⟨_, List.mem_cons_self, hx⟩
    · obtain ⟨x, hmem, hR⟩ := ih hb
      exact ⟨x, List.mem_cons_of_mem _ hmem, hR⟩

/-- The frames of a stack trace, each with its number. -/
theorem stackTrace_gives (start levels : ℤ) : Gives (onStackTrace P vm start levels) fun a h => ∃ frames,
    a = .stackTrace frames (framesOf P vm).length ∧ List.Forall₂ (fun view f => Framed view f h)
      (slice (framesOf P vm) start (if levels = 0 then none else some (start + levels))) frames := by
  refine (Gives.mapM framed_stable fun view _ => stackFrame_gives view).bind fun frames => ?_
  exact .pure fun h' h hg hall => ⟨frames, rfl, hall.imp fun view f => framed_stable view f h h' hg⟩

theorem frameVariables_gives {d : ℕ} {frame : FrameView} (hframe : (framesOf P vm)[d]? = some frame) :
    Gives (frameVariables P F vm d) fun shown h => List.Forall₂ (fun info v => Shows P F vm frame info v h) (localsOf P frame) shown := by
  unfold frameVariables
  rw [hframe]
  exact Gives.mapM (fun info v => shows_stable frame info v) fun info _ => localVariable_gives frame info

theorem childVariables_gives (v : Value) : Gives (childVariables P F vm v) fun shown h => ∃ children vm',
    childrenOf P F v vm = .ok (children, vm') ∧
      List.Forall₂ (fun c s => s.name = c.1 ∧ s.value = c.2.summary ∧ Leads c.2 s.reference h) children shown := by
  refine (look_gives _).bind fun children => ?_
  have hchild (c : String × Value) :
      Gives (childVariable c) fun s h => s.name = c.1 ∧ s.value = c.2.summary ∧ Leads c.2 s.reference h :=
    (value_gives c.2).bind fun k => .pure fun h' h hg hk => ⟨rfl, rfl, leads_stable _ _ _ _ hg hk⟩
  have hstable (c : String × Value) (s : Variable) : Stable fun h => s.name = c.1 ∧ s.value = c.2.summary ∧ Leads c.2 s.reference h :=
    fun h h' hg hs => ⟨hs.1, hs.2.1, leads_stable _ _ _ _ hg hs.2.2⟩
  refine (Gives.mapM hstable fun c _ => hchild c).weaken fun shown h hall h₀ _ hd => ?_
  obtain ⟨vm', hd⟩ := hd
  exact ⟨children, vm', hd, hall⟩

/-- Every number that is answered stands for something. -/
theorem handle_gives (request : Request) : Gives (request.handle P F isIdentifier strip vm) Answer.Known := by
  cases request with
  | stackTrace start levels =>
    refine (stackTrace_gives start levels).weaken ?_
    rintro a h ⟨frames, rfl, hall⟩ k hk
    obtain ⟨f, hf, rfl⟩ := List.mem_map.mp hk
    obtain ⟨view, -, hn⟩ := exists_of_forall₂ hall hf
    exact known_of_get hn.number.2
  | scopes frameId =>
    intro h a h' hs hrun
    obtain ⟨h₁, h₂, hget, hrun⟩ := bind_ok.mp hrun
    cases hget
    cases hframe : frameFor P vm frameId h with
    | none =>
      simp only [hframe] at hrun
      cases hrun
      exact ⟨hs, .refl h, fun k hk => by cases hk⟩
    | some frame =>
      simp only [hframe] at hrun
      obtain ⟨k, h₁, hk, hrun⟩ := bind_ok.mp hrun
      cases hrun
      obtain ⟨hs', hg, hn⟩ := keyed_gives .locals frame.depth h k h' hs hk
      refine ⟨hs', hg, fun k' hk' => ?_⟩
      obtain rfl := List.mem_singleton.mp hk'
      exact known_of_get hn.2
  | variables_ reference =>
    intro h a h' hs hrun
    obtain ⟨h₁, h₂, hget, hrun⟩ := bind_ok.mp hrun
    cases hget
    cases hx : h.get reference with
    | none =>
      simp only [hx] at hrun
      cases hrun
      exact ⟨hs, .refl h, fun k hk => by cases hk⟩
    | some x =>
      simp only [hx] at hrun
      cases x with
      | keyed kind depth =>
        cases kind with
        | frame => cases hrun
        | locals =>
          obtain ⟨shown, h₁, hshown, hrun⟩ := bind_ok.mp hrun
          cases hrun
          cases hframe : (framesOf P vm)[depth]? with
          | none =>
            unfold frameVariables at hshown
            rw [hframe] at hshown
            cases hshown
            exact ⟨hs, .refl h, fun k hk => by cases hk⟩
          | some frame =>
            obtain ⟨hs', hg, hall⟩ := frameVariables_gives hframe h shown h' hs hshown
            refine ⟨hs', hg, fun k hk => ?_⟩
            obtain ⟨v, hv, rfl⟩ := List.mem_map.mp hk
            obtain ⟨info, -, value, vm', -, -, -, -, hl⟩ := exists_of_forall₂ hall hv
            exact known_of_leads hl
      | value value =>
        obtain ⟨shown, h₁, hshown, hrun⟩ := bind_ok.mp hrun
        cases hrun
        obtain ⟨hs', hg, children, vm', -, hall⟩ := childVariables_gives value h shown h' hs hshown
        refine ⟨hs', hg, fun k hk => ?_⟩
        obtain ⟨v, hv, rfl⟩ := List.mem_map.mp hk
        obtain ⟨c, -, -, -, hl⟩ := exists_of_forall₂ hall hv
        exact known_of_leads hl
  | evaluate frameId text =>
    intro h a h' hs hrun
    have hrefused {message : String} (hr : (pure (.refused message) : Inspecting Answer) h = .ok (a, h')) :
        h'.Sound ∧ h.Grows h' ∧ a.Known h' := by
      cases hr
      exact ⟨hs, .refl h, fun k hk => by cases hk⟩
    obtain ⟨h₁, h₂, hget, hrun⟩ := bind_ok.mp hrun
    cases hget
    cases hframe : frameFor P vm frameId h with
    | none =>
      simp only [hframe] at hrun
      exact hrefused hrun
    | some frame =>
      simp only [hframe] at hrun
      split at hrun
      · exact hrefused hrun
      · cases hinfos : lookupName P frame (strip text) with
        | nil =>
          simp only [hinfos] at hrun
          exact hrefused hrun
        | cons info infos =>
          cases infos with
          | nil =>
            simp only [hinfos] at hrun
            obtain ⟨value, h₁, hlook, hrun⟩ := bind_ok.mp hrun
            obtain ⟨hs₁, hg₁, -⟩ := look_gives _ h value h₁ hs hlook
            obtain ⟨k, h₂, hk, hrun⟩ := bind_ok.mp hrun
            obtain ⟨hs₂, hg₂, hl⟩ := value_gives value h₁ k h₂ hs₁ hk
            cases hrun
            refine ⟨hs₂, hg₁.trans hg₂, fun k' hk' => ?_⟩
            obtain rfl := List.mem_singleton.mp hk'
            exact known_of_leads hl
          | cons info' infos =>
            simp only [hinfos] at hrun
            exact hrefused hrun

end Handled

section Sessions

variable {W : Type} {P : CompiledProgram} {F : FloatOps} {isIdentifier : String → Bool} {strip : String → String} {s s' : Inspected W}
  {a : Answer} {request : Request} {happenings : List (Happening W)}

theorem ask_gives (hs : s.handles.Sound) (h : s.ask P F isIdentifier strip request = .ok (a, s')) :
    s'.handles.Sound ∧ s.handles.Grows s'.handles ∧ a.Known s'.handles ∧ s'.suspension = s.suspension := by
  unfold Inspected.ask at h
  cases hvm : s.suspension with
  | none =>
    simp only [hvm] at h
    cases h
    exact ⟨hs, .refl _, (fun k hk => by cases hk), hvm⟩
  | some vm =>
    simp only [hvm] at h
    cases hr : request.handle P F isIdentifier strip vm s.handles with
    | error e =>
      rw [hr] at h
      cases h
    | ok r =>
      rw [hr] at h
      cases h
      obtain ⟨hs', hg, hk⟩ := handle_gives request s.handles r.1 r.2 hs hr
      exact ⟨hs', hg, hk, rfl⟩

/-- Numbers are given out in order; a stop takes all of them back. -/
theorem step_gives (hs : s.handles.Sound) {happening : Happening W} (h : s.step P F isIdentifier strip happening = .ok s') :
    s'.handles.Sound ∧ s.handles.next ≤ s'.handles.next ∧
      (∀ k, k < s.handles.next → s.handles.get k = none → s'.handles.get k = none) ∧
      ((∀ vm, happening ≠ .stopped vm) → s.handles.Grows s'.handles) ∧
      (∀ vm, happening = .stopped vm → ∀ k, s'.handles.get k = none) := by
  cases happening with
  | stopped vm =>
    cases h
    exact ⟨hs.clear, le_refl _, fun k _ _ => rfl, fun h => absurd rfl (h vm), fun vm' _ k => rfl⟩
  | resumed =>
    cases h
    exact ⟨hs, le_refl _, fun k _ hk => hk, fun _ => .refl _, fun vm h => by cases h⟩
  | asked request =>
    unfold Inspected.step at h
    cases hr : s.ask P F isIdentifier strip request with
    | error e =>
      simp only [hr] at h
      cases h
    | ok r =>
      simp only [hr] at h
      cases h
      obtain ⟨hs', hg, -, -⟩ := ask_gives hs hr
      exact ⟨hs', hg.next, hg.fresh, fun _ => hg, fun vm h => by cases h⟩

theorem run_gives (hs : s.handles.Sound) (h : s.run P F isIdentifier strip happenings = .ok s') :
    s'.handles.Sound ∧ s.handles.next ≤ s'.handles.next ∧
      (∀ k, k < s.handles.next → s.handles.get k = none → s'.handles.get k = none) ∧
      ((∀ vm, .stopped vm ∉ happenings) → s.handles.Grows s'.handles) ∧
      (∀ vm, .stopped vm ∈ happenings → ∀ k, k < s.handles.next → s'.handles.get k = none) := by
  induction happenings generalizing s with
  | nil =>
    cases h
    exact ⟨hs, le_refl _, fun k _ hk => hk, fun _ => .refl _, fun vm h => by cases h⟩
  | cons happening happenings ih =>
    rw [Inspected.run] at h
    cases hstep : s.step P F isIdentifier strip happening with
    | error e =>
      rw [hstep] at h
      cases h
    | ok s₁ =>
      rw [hstep] at h
      obtain ⟨hs₁, hle, hdead, hgrows, hstop⟩ := step_gives hs hstep
      obtain ⟨hs', hle', hdead', hgrows', hstop'⟩ := ih hs₁ h
      refine ⟨hs', hle.trans hle', fun k hk hn => hdead' k (hk.trans_le hle) (hdead k hk hn), fun hno => ?_, fun vm hvm k hk => ?_⟩
      · exact (hgrows fun vm heq => hno vm (heq ▸ List.mem_cons_self)).trans
          (hgrows' fun vm hmem => hno vm (List.mem_cons_of_mem _ hmem))
      · rcases List.mem_cons.mp hvm with heq | hmem
        · exact hdead' k (hk.trans_le hle) (hstop vm heq.symm k)
        · exact hstop' vm hmem k (hk.trans_le hle)

/-- A number that stands for nothing is refused. -/
theorem ask_refused {k : ℤ} (hk : s.handles.get k = none) (hr : request.reference = some k) :
    ∃ message, s.ask P F isIdentifier strip request = .ok (.refused message, s) := by
  cases hvm : s.suspension with
  | none =>
    refine ⟨"the program is not suspended", ?_⟩
    unfold Inspected.ask
    simp only [hvm]
  | some vm =>
    have hanswer (message : String) (h : request.handle P F isIdentifier strip vm s.handles = .ok (.refused message, s.handles)) :
        ∃ message, s.ask P F isIdentifier strip request = .ok (.refused message, s) := by
      refine ⟨message, ?_⟩
      have hsame : ({ s with suspension := some vm } : Inspected W) = s := by rw [← hvm]
      unfold Inspected.ask
      simp only [hvm]
      rw [h]
      exact congrArg (fun s' => Except.ok (Answer.refused message, s')) hsame
    have hframe : frameFor P vm (some k) s.handles = none := by
      unfold frameFor
      simp only [hk]
    have hget : (get : Inspecting Handles) s.handles = .ok (s.handles, s.handles) := rfl
    cases request with
    | stackTrace start levels => cases hr
    | scopes frameId =>
      obtain rfl : frameId = some k := hr
      refine hanswer "unknown frame" ((bind_eq hget).trans ?_)
      simp only [hframe]
      rfl
    | variables_ reference =>
      obtain rfl : reference = k := Option.some.inj hr
      refine hanswer "unknown or stale variablesReference" ((bind_eq hget).trans ?_)
      simp only [hk]
      rfl
    | evaluate frameId text =>
      obtain rfl : frameId = some k := hr
      refine hanswer "unknown frame" ((bind_eq hget).trans ?_)
      simp only [hframe]
      rfl

/-- A number once given out keeps its meaning up to the next stop, and from then on it means
nothing: requests about it are refused, and it is not given out again. -/
theorem numbers_once {before : List (Happening W)} {s₁ s₂ s₃ : Inspected W}
    (h₁ : ({} : Inspected W).run P F isIdentifier strip before = .ok s₁) (ha : s₁.ask P F isIdentifier strip request = .ok (a, s₂))
    (h₃ : s₂.run P F isIdentifier strip happenings = .ok s₃) {k : ℤ} (hk : k ∈ a.numbers) (hk0 : k ≠ 0) :
    ((∀ vm, .stopped vm ∉ happenings) → s₃.handles.get k = s₂.handles.get k ∧ s₃.handles.get k ≠ none) ∧
      ∀ vm, .stopped vm ∈ happenings → s₃.handles.get k = none ∧
        (∀ request', request'.reference = some k →
          ∃ message, s₃.ask P F isIdentifier strip request' = .ok (.refused message, s₃)) ∧
        ∀ request' a' s₄, s₃.ask P F isIdentifier strip request' = .ok (a', s₄) → k ∉ a'.numbers := by
  have hs₁ := (run_gives Handles.sound_start h₁).1
  obtain ⟨hs₂, -, hknown, -⟩ := ask_gives hs₁ ha
  obtain ⟨hs₃, hle, -, hgrows, hstop⟩ := run_gives hs₂ h₃
  have hsome : s₂.handles.get k ≠ none := (hknown k hk).resolve_left hk0
  obtain ⟨x, hx⟩ := Option.ne_none_iff_exists'.mp hsome
  have hlt := (hs₂.below k x hx).2
  refine ⟨fun hno => ?_, fun vm hvm => ?_⟩
  · have hkept := (hgrows hno).kept k x hx
    exact ⟨hkept.trans hx.symm, by rw [hkept]; exact Option.some_ne_none x⟩
  · have hdead := hstop vm hvm k hlt
    refine ⟨hdead, fun request' => ask_refused hdead, fun request' a' s₄ ha' hmem => ?_⟩
    obtain ⟨-, hg, hknown', -⟩ := ask_gives hs₃ ha'
    exact (hknown' k hmem).resolve_left hk0 (hg.fresh k (hlt.trans_le hle) hdead)

section Opening

variable {vm : VM W}

theorem mapM_again {views : List FrameView} {frames : List StackFrame} {h : Handles}
    (hall : List.Forall₂ (fun view f => Framed view f h) views frames) : views.mapM stackFrame h = .ok (frames, h) := by
  induction hall with
  | nil => rfl
  | cons hf _ ih =>
    rw [List.mapM_cons, bind_eq (hf.again h hf.number), bind_eq ih]
    rfl

/-- Requests leave the program where it is. -/
theorem asks_gives {requests : List Request} (hs : s.handles.Sound) (h : s.run P F isIdentifier strip (requests.map .asked) = .ok s') :
    s'.handles.Sound ∧ s.handles.Grows s'.handles ∧ s'.suspension = s.suspension := by
  induction requests generalizing s with
  | nil =>
    cases h
    exact ⟨hs, .refl _, rfl⟩
  | cons request requests ih =>
    rw [List.map_cons, Inspected.run, Inspected.step] at h
    cases hr : s.ask P F isIdentifier strip request with
    | error e =>
      rw [hr] at h
      cases h
    | ok r =>
      rw [hr] at h
      obtain ⟨hs₁, hg, -, hvm⟩ := ask_gives hs hr
      obtain ⟨hs', hg', hvm'⟩ := ih hs₁ h
      exact ⟨hs', hg.trans hg', hvm'.trans hvm⟩

theorem ask_eq {r : Answer × Handles} (hvm : s.suspension = some vm) (h : request.handle P F isIdentifier strip vm s.handles = .ok r) :
    s.ask P F isIdentifier strip request = .ok (r.1, { s with handles := r.2 }) := by
  unfold Inspected.ask
  simp only [hvm]
  rw [h]
  rfl

theorem mem_slice {α : Type} {xs : List α} {start : ℤ} {stop : Option ℤ} {x : α} (h : x ∈ slice xs start stop) : x ∈ xs :=
  List.mem_of_mem_take (List.mem_of_mem_drop h)

/-- Throughout a stop, whatever else is asked, the frames of a stack trace keep their numbers, the
number of each opens its scope, and that of the scope its variables. -/
theorem frames_open {before : List (Happening W)} {s₁ s₂ s₃ : Inspected W} {start levels : ℤ} {frames : List StackFrame} {total : ℕ}
    {requests : List Request} {i : ℕ} {view : FrameView} {f : StackFrame}
    (h₁ : ({} : Inspected W).run P F isIdentifier strip before = .ok s₁) (hvm : s₁.suspension = some vm)
    (h₂ : s₁.ask P F isIdentifier strip (.stackTrace start levels) = .ok (.stackTrace frames total, s₂))
    (h₃ : s₂.run P F isIdentifier strip (requests.map .asked) = .ok s₃)
    (hview : (slice (framesOf P vm) start (if levels = 0 then none else some (start + levels)))[i]? = some view)
    (hf : frames[i]? = some f) :
    s₃.ask P F isIdentifier strip (.stackTrace start levels) = .ok (.stackTrace frames total, s₃) ∧
      ∃ k s₄, s₃.ask P F isIdentifier strip (.scopes (some f.id)) = .ok (.scopes k, s₄) ∧
        ∀ (requests' : List Request) (s₅ s₆ : Inspected W) (a : Answer), s₄.run P F isIdentifier strip (requests'.map .asked) = .ok s₅ →
          s₅.ask P F isIdentifier strip (.variables_ k) = .ok (a, s₆) → ∃ shown, a = .variables_ shown ∧
            List.Forall₂ (fun info v => Shows P F vm view info v s₆.handles) (localsOf P view) shown := by
  have hs₁ := (run_gives Handles.sound_start h₁).1
  obtain ⟨hs₂, -, -, hvm₂⟩ := ask_gives hs₁ h₂
  obtain ⟨hs₃, hg₃, hvm₃⟩ := asks_gives hs₂ h₃
  have hvm₃ : s₃.suspension = some vm := hvm₃.trans (hvm₂.trans hvm)
  -- the trace as it was given
  have hall : List.Forall₂ (fun view f => Framed view f s₃.handles)
      (slice (framesOf P vm) start (if levels = 0 then none else some (start + levels))) frames ∧ total = (framesOf P vm).length := by
    unfold Inspected.ask at h₂
    simp only [hvm] at h₂
    cases hr : (Request.stackTrace start levels).handle P F isIdentifier strip vm s₁.handles with
    | error e =>
      rw [hr] at h₂
      cases h₂
    | ok r =>
      obtain ⟨a, h'⟩ := r
      rw [hr] at h₂
      cases h₂
      obtain ⟨-, -, frames', heq, hall⟩ := stackTrace_gives start levels s₁.handles _ _ hs₁ hr
      obtain ⟨rfl, rfl⟩ := Answer.stackTrace.inj heq
      exact ⟨hall.imp fun view f => framed_stable view f _ _ hg₃, rfl⟩
  obtain ⟨hall, rfl⟩ := hall
  have hframed : Framed view f s₃.handles := by
    obtain ⟨hlen, hget⟩ := List.forall₂_iff_get.mp hall
    obtain ⟨hi, rfl⟩ := List.getElem?_eq_some_iff.mp hview
    obtain ⟨hi', rfl⟩ := List.getElem?_eq_some_iff.mp hf
    exact hget i hi hi'
  have hat : (framesOf P vm)[view.depth]? = some view := by
    obtain ⟨d, hd⟩ := List.mem_iff_getElem?.mp (mem_slice (List.mem_iff_getElem?.mpr ⟨i, hview⟩))
    rw [frames_depth hd, hd]
  refine ⟨?_, ?_⟩
  · refine ask_eq (r := (.stackTrace frames (framesOf P vm).length, s₃.handles)) hvm₃ ?_
    exact bind_eq (mapM_again hall)
  · have hfor : frameFor P vm (some f.id) s₃.handles = some view := by
      unfold frameFor
      simp only [hframed.number.2]
      exact hat
    obtain ⟨k, h', hk⟩ : ∃ k h', Handles.keyed .locals view.depth s₃.handles = .ok (k, h') := by
      unfold Handles.keyed
      cases hl : s₃.handles.frames.lookup ⟨.locals, view.depth⟩ with
      | some k => exact ⟨k, _, by simp only [bind_eq (show (getThe Handles : Inspecting Handles) s₃.handles = .ok (_, _) from rfl), hl]; rfl⟩
      | none => exact ⟨_, _, by simp only [bind_eq (show (getThe Handles : Inspecting Handles) s₃.handles = .ok (_, _) from rfl), hl]; rfl⟩
    obtain ⟨hs', hg', hn⟩ := keyed_gives .locals view.depth s₃.handles k h' hs₃ hk
    have hscopes : (Request.scopes (some f.id)).handle P F isIdentifier strip vm s₃.handles = .ok (.scopes k, h') := by
      refine (bind_eq (show (get : Inspecting Handles) s₃.handles = .ok (_, _) from rfl)).trans ?_
      simp only [hfor]
      exact bind_eq hk
    refine ⟨k, { s₃ with handles := h' }, ask_eq hvm₃ hscopes, fun requests' s₅ s₆ a h₅ ha => ?_⟩
    obtain ⟨hs₅, hg₅, hvm₅⟩ := asks_gives (s := { s₃ with handles := h' }) hs' h₅
    have hvm₅ : s₅.suspension = some vm := hvm₅.trans hvm₃
    have hget : s₅.handles.get k = some (.keyed .locals view.depth) := hg₅.kept k _ hn.2
    unfold Inspected.ask at ha
    simp only [hvm₅] at ha
    cases hr : (Request.variables_ k).handle P F isIdentifier strip vm s₅.handles with
    | error e =>
      rw [hr] at ha
      cases ha
    | ok r =>
      rw [hr] at ha
      cases ha
      obtain ⟨h₁, h₂, hread, hrun⟩ := bind_ok.mp hr
      cases hread
      simp only [hget] at hrun
      obtain ⟨shown, h₆, hshown, hrun⟩ := bind_ok.mp hrun
      obtain ⟨-, -, hall'⟩ := frameVariables_gives hat s₅.handles shown h₆ hs₅ hshown
      obtain rfl := pure_ok.mp hrun
      exact ⟨shown, rfl, hall'⟩

end Opening

end Sessions

section Counter

/-- `main`, with a number and an array, and `tick`, which it calls. -/
def counterProgram : CompiledProgram where
  code := [.pushInt 5, .call 1, .ret, .loadLocal 0, .ret]
  functions := [
    { name := "main", entryPc := 0, numLocals := 3, numParams := 0, locals := [⟨"x", 0, "int", 1, false⟩, ⟨"xs", 1, "int[2]", 2, false⟩] },
    { name := "tick", entryPc := 3, numLocals := 1, numParams := 1, locals := [⟨"n", 0, "int", 1, true⟩] }]
  strings := []
  structs := []
  sourceMap := ⟨[(0, ⟨4, 3⟩), (3, ⟨2, 3⟩)]⟩

/-- In `tick`, called by `main`. -/
def counterVm : VM (List String) := { locals := [5], currentFn := 1, pc := 3, callStack := [⟨2, [7, 8, 9], 0, 0⟩], io := [] }

def counterStopped : Inspected (List String) := { suspension := some counterVm }

/-- Once the stack trace has been asked for. -/
def counterTraced : Inspected (List String) where
  handles := { entries := [(1, .keyed .frame 0), (2, .keyed .frame 1)], frames := [(⟨.frame, 0⟩, 1), (⟨.frame, 1⟩, 2)], next := 3 }
  suspension := some counterVm

/-- And then the scope of `tick`. -/
def counterScoped : Inspected (List String) where
  handles := {
    entries := [(1, .keyed .frame 0), (2, .keyed .frame 1), (3, .keyed .locals 0)]
    frames := [(⟨.frame, 0⟩, 1), (⟨.frame, 1⟩, 2), (⟨.locals, 0⟩, 3)]
    next := 4 }
  suspension := some counterVm

theorem counter_traced : ({} : Inspected (List String)).run counterProgram zeroFloats (fun _ => true) id [.stopped counterVm] =
    .ok counterStopped ∧ counterStopped.ask counterProgram zeroFloats (fun _ => true) id (.stackTrace 0 0) =
      .ok (.stackTrace [⟨1, "tick", 2, 3, none⟩, ⟨2, "main", 4, 3, none⟩] 2, counterTraced) := ⟨rfl, rfl⟩

theorem counter_forgotten : ∃ s, counterTraced.run counterProgram zeroFloats (fun _ => true) id [.resumed, .stopped counterVm] = .ok s ∧
    s.handles.get 2 = none ∧
      (∀ request, request.reference = some 2 →
        ∃ message, s.ask counterProgram zeroFloats (fun _ => true) id request = .ok (.refused message, s)) ∧
      ∀ request a s', s.ask counterProgram zeroFloats (fun _ => true) id request = .ok (a, s') → 2 ∉ a.numbers := by
  have h : counterTraced.run counterProgram zeroFloats (fun _ => true) id [.resumed, .stopped counterVm] =
    .ok { handles := counterTraced.handles.clear, suspension := some counterVm } := rfl
  have hk : (2 : ℤ) ∈ (Answer.stackTrace [⟨1, "tick", 2, 3, none⟩, ⟨2, "main", 4, 3, none⟩] 2).numbers :=
    List.mem_cons_of_mem _ (List.mem_singleton.mpr rfl)
  exact ⟨_, h, (numbers_once counter_traced.1 counter_traced.2 h hk (by decide)).2 counterVm (by simp)⟩

/-- The caller's frame, after the scope of the innermost one was asked for. -/
theorem counter_opens : ∃ k s, counterScoped.ask counterProgram zeroFloats (fun _ => true) id (.scopes (some 2)) = .ok (.scopes k, s) ∧
    ∀ (requests : List Request) (s₅ s₆ : Inspected (List String)) (a : Answer),
      s.run counterProgram zeroFloats (fun _ => true) id (requests.map .asked) = .ok s₅ →
      s₅.ask counterProgram zeroFloats (fun _ => true) id (.variables_ k) = .ok (a, s₆) → ∃ shown, a = .variables_ shown ∧
        List.Forall₂ (fun info v => Shows counterProgram zeroFloats counterVm ⟨1, 0, "main", "", 1, some 4, some 3, [7, 8, 9]⟩ info v s₆.handles)
          [⟨"x", 0, "int", 1, false⟩, ⟨"xs", 1, "int[2]", 2, false⟩] shown := by
  have h : counterTraced.run counterProgram zeroFloats (fun _ => true) id ([.scopes (some 1)].map .asked) = .ok counterScoped := rfl
  exact (frames_open (i := 1) counter_traced.1 rfl counter_traced.2 h rfl rfl).2

end Counter

end QuinLang.Dap.Inspection
