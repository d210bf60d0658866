import QuinLang.Compiler.Placement
import QuinLang.Lib.Flow

/-! The operand stack along emitted code: at each instruction control reaches, it is as
high as the static stack recorded there, and an index that is used was checked. -/

namespace QuinLang

open StateExcept Flow

/-- The entries an instruction looks at or takes, a call's apart. -/
def Instruction.pops : Instruction → ℕ
  | pushInt _ | loadLocal _ | loadStr _ | pushFloat _ | loadLocalF _ | jmp _ | gc | allocTyped _ | loadVariant _
  | readLine | argc | fileError => 0
  | storeLocal _ | neg | strLen | strFromInt | strFromChar | storeLocalF _ | fneg | fFromInt | fToInt | strFromFloat
  | printFloat | printlnFloat | not | bitnot | jz _ | jnz _ | ret | loadLocalIdx _ | boundsCheck _ | loadIndirect
  | pop | dup | printInt | printStr | printlnInt | printlnStr | alloc | heapLoad | heapLoadField _
  | heapLoadFieldF _ | panic | tagOf | argv | newArray _ | arrayLen | fileRead | fileExists | fileDelete
  | fileReadBytes => 1
  | add | sub | mul | div | mod | xor | and | or | shl | shr | cmpEq | cmpNe | cmpLt | cmpLe | cmpGt | cmpGe | strCmp
  | strCharAt | strConcat | fadd | fsub | fmul | fdiv | fcmp | storeLocalIdx _ | storeIndirect | swap | heapStore
  | heapStoreField _ | heapStoreFieldF _ | arrayGet | fileWrite | fileAppend | fileWriteBytes => 2
  | strSlice | memcpyLocals | memsetLocals | arraySet => 3
  | call _ | callIndirect => 0

/-- The entries it leaves in their place. -/
def Instruction.pushes : Instruction → ℕ
  | storeLocal _ | storeLocalF _ | printFloat | printlnFloat | jmp _ | jz _ | jnz _ | ret | storeLocalIdx _
  | storeIndirect | memcpyLocals | memsetLocals | pop | printInt | printStr | printlnInt | printlnStr | heapStore
  | heapStoreField _ | heapStoreFieldF _ | gc | panic | arraySet => 0
  | dup | swap => 2
  | _ => 1

/-- Instructions that lead to the next one and take nothing but entries. -/
def Instruction.isPlain : Instruction → Bool
  | jmp _ | jz _ | jnz _ | call _ | callIndirect | ret | panic | loadLocalIdx _ | storeLocalIdx _ | boundsCheck _ => false
  | _ => true

/-- What a bounds check tells of the entries on top. -/
inductive Guard
  | none
  /-- the top is an index below the length -/
  | top (length : ℕ)
  /-- the top is the slot, and under it is an index below the length -/
  | under (slot length : ℕ)
  deriving DecidableEq

def Guard.after : Guard → Instruction → Guard
  | _, .boundsCheck length => .top length
  | .top length, .pushInt slot => .under slot length
  | _, _ => .none

/-- What is known of the operand stack of an activation. -/
structure Point where
  height : ℕ
  guard : Guard := .none
  deriving DecidableEq

/-- A place a jump leads to that is filled in later. -/
inductive Label
  | breaks
  | continues
  | ends
  deriving DecidableEq

section Flows

-- `arity` is the number of parameters of each function
variable (arity : ℕ → ℕ) (layout : FunctionLayout)

/-- The entries a call takes, an indirect one by the static type of its function. -/
def Site.pops (s : Site) : ℕ :=
  match s.emitted with
  | .instr (.call f) => arity f
  | .instr .callIndirect =>
    match s.stack with
    | .val (.func params _) :: _ => params.length + 1
    | _ => 1
  | .instr i => i.pops
  | _ => 0

/-- Where a site at `p` leads. -/
def Site.leads (s : Site) (p : ℕ) (v : Point) (x : Exit Label) (v' : Point) : Prop :=
  match s.emitted with
  | .breakJump => x = .label .breaks ∧ v' = v
  | .continueJump => x = .label .continues ∧ v' = v
  | .endJump => x = .label .ends ∧ v' = v
  | .instr (.jmp target) => x = .at target ∧ v' = v
  | .instr (.jz target) | .instr (.jnz target) => (x = .at target ∨ x = .at (p + 1)) ∧ v' = ⟨v.height - 1, .none⟩
  | .instr .ret | .instr .panic => False
  | .instr i => x = .at (p + 1) ∧ v' = ⟨v.height - s.pops arity + i.pushes, v.guard.after i⟩

/-- What a site may stand for: the stack is as high as recorded and high enough, and an
access to an `int[N]` is to an element of it. -/
structure Site.Fits (s : Site) (v : Point) : Prop where
  height : v.height = s.stack.length
  pops : s.pops arity ≤ v.height
  indirect : s.emitted = .instr .callIndirect → ∃ params ret σ, s.stack = .val (.func params ret) :: σ
  ret : s.emitted = .instr .ret → v.height = 1
  element : ∀ slot, s.emitted = .instr (.loadLocalIdx slot) ∨ s.emitted = .instr (.storeLocalIdx slot) →
    ∃ sym length, v.guard = .top length ∧ layout.slot? sym = some ⟨slot, length⟩
  address : s.role = .address → s.emitted = .instr .add →
    ∃ sym slot length, v.guard = .under slot length ∧ layout.slot? sym = some ⟨slot, length⟩

/-- Places left for, each with a stack of the height there. -/
def exitsTo (L : List (Exit Label × ℕ)) : Exits Point Label := fun x v => v.guard = .none ∧ (x, v.height) ∈ L

/-- Entered with a stack like `σ`, the code is left only for the places of `L`. -/
abbrev Flows (pc : ℕ) (code : List Site) (σ : List Static) (L : List (Exit Label × ℕ)) : Prop :=
  Leaves (Site.leads arity) (Site.Fits arity layout) pc code (fun v => v = ⟨σ.length, .none⟩) (exitsTo L)

/-- Code that leaves a stack like `σ'` at its end, or does not come to its end. -/
abbrev Runs (pc : ℕ) (code : List Site) (σ σ' : List Static) : Prop :=
  Flows arity layout pc code σ [(.at (pc + code.length), σ'.length)]

variable {arity layout} {pc pc₂ : ℕ} {σ τ ρ : List Static} {live : List Symbol} {c₁ c₂ : List Site}
  {L L₁ : List (Exit Label × ℕ)}

namespace Flows

theorem mono (h : Flows arity layout pc c₁ σ L₁) (hL : ∀ t ∈ L₁, t ∈ L) : Flows arity layout pc c₁ σ L :=
  h.exits fun _ _ hv => ⟨hv.1, hL _ hv.2⟩

theorem append (h : Flows arity layout pc c₁ σ L₁) (h' : Flows arity layout pc₂ c₂ τ L) (hpc : pc₂ = pc + c₁.length)
    (hL : ∀ t ∈ L₁, t = (.at pc₂, τ.length) ∨ t.1 ≠ .at pc₂ ∧ t ∈ L) : Flows arity layout pc (c₁ ++ c₂) σ L := by
  subst hpc
  refine Leaves.append h h' (fun v hv => ?_) fun x v hv hx => ⟨hv.1, ?_⟩
  · rcases hL _ hv.2 with ht | ⟨hne, -⟩
    · obtain ⟨height, guard⟩ := v
      obtain rfl : guard = .none := hv.1
      obtain rfl : height = τ.length := (Prod.mk.inj ht).2
      rfl
    · exact absurd rfl hne
  · rcases hL _ hv.2 with ht | ⟨-, hmem⟩
    · exact absurd (Prod.mk.inj ht).1 hx
    · exact hmem

theorem fits {i : Instruction} {h : ℕ} {guard : Guard} (hh : h = σ.length)
    (hp : (QuinLang.op i σ live).pops arity ≤ σ.length) (hi : i ≠ .callIndirect) (hr : i = .ret → σ.length = 1)
    (hs : ∀ slot, i ≠ .loadLocalIdx slot ∧ i ≠ .storeLocalIdx slot) :
    (QuinLang.op i σ live).Fits arity layout ⟨h, guard⟩ where
  height := hh
  pops := hh ▸ hp
  indirect he := absurd (Emitted.instr.inj he) hi
  ret he := hh ▸ hr (Emitted.instr.inj he)
  element slot he := by
    rcases he with he | he
    · exact absurd (Emitted.instr.inj he) (hs slot).1
    · exact absurd (Emitted.instr.inj he) (hs slot).2
  address ha := by cases ha

/-- An instruction that looks at entries only. -/
theorem instr {i : Instruction} {p : ℕ} {role : Role} (hi : i.isPlain = true) (hp : i.pops ≤ σ.length)
    (hl : τ.length = σ.length - i.pops + i.pushes) (ha : role ≠ .address := by simp) :
    Runs arity layout p [⟨.instr i, σ, live, role⟩] σ τ := by
  have hpops : Site.pops arity ⟨.instr i, σ, live, role⟩ = i.pops := by
    cases i <;> first | rfl | cases hi
  refine Leaves.one ?_ ?_
  · rintro v rfl
    refine ⟨rfl, hpops ▸ hp, fun hc => ?_, fun hr => ?_, fun slot hs => ?_, fun hrole => absurd hrole ha⟩
    · rw [Emitted.instr.inj hc] at hi
      cases hi
    · rw [Emitted.instr.inj hr] at hi
      cases hi
    · rcases hs with hs | hs <;> rw [Emitted.instr.inj hs] at hi <;> cases hi
  · rintro v rfl x v' hlead
    have hnext : x = .at (p + 1) ∧ v' = ⟨σ.length - i.pops + i.pushes, .none⟩ := by
      cases i <;> first | (cases hi; done) | exact hlead
    obtain ⟨rfl, rfl⟩ := hnext
    refine ⟨rfl, ?_⟩
    rw [hl]
    exact List.mem_cons_self

theorem op {i : Instruction} {p : ℕ} (hi : i.isPlain = true) (hp : i.pops ≤ σ.length)
    (hl : τ.length = σ.length - i.pops + i.pushes) : Runs arity layout p [op i σ live] σ τ :=
  instr hi hp hl

theorem takesOne {i : Instruction} {p : ℕ} {a b : Static} (hi : i.isPlain = true) (hp : i.pops = 1) (hq : i.pushes = 1) :
    Runs arity layout p [QuinLang.op i (a :: σ) live] (a :: σ) (b :: σ) := by
  apply op hi
  · rw [hp]
    exact Nat.le_add_left 1 σ.length
  · rw [hp, hq]
    rfl

theorem takesTwo {i : Instruction} {p : ℕ} {a b c : Static} (hi : i.isPlain = true) (hp : i.pops = 2)
    (hq : i.pushes = 1) : Runs arity layout p [QuinLang.op i (a :: b :: σ) live] (a :: b :: σ) (c :: σ) := by
  apply op hi
  · rw [hp]
    exact Nat.le_add_left 2 σ.length
  · rw [hp, hq]
    rfl

theorem pushes {i : Instruction} {p : ℕ} {a : Static} (hi : i.isPlain = true) (hp : i.pops = 0) (hq : i.pushes = 1) :
    Runs arity layout p [QuinLang.op i σ live] σ (a :: σ) := by
  apply op hi
  · rw [hp]
    exact Nat.zero_le _
  · rw [hp, hq]
    rfl

/-- The slot of a variable. -/
theorem addressOf {slot p : ℕ} {a : Static} :
    Runs arity layout p [⟨.instr (.pushInt slot), σ, live, .address⟩] σ (a :: σ) := by
  refine Leaves.one ?_ ?_
  · rintro v rfl
    refine ⟨rfl, Nat.zero_le _, fun hc => (by cases hc), fun hr => (by cases hr), fun k hk => ?_, fun _ ha => (by cases ha)⟩
    rcases hk with hk | hk <;> cases hk
  · rintro v rfl x v' ⟨rfl, rfl⟩
    exact ⟨rfl, List.mem_cons_self⟩

/-- A conditional jump. -/
theorem branch {i : Instruction} {p target : ℕ} {a : Static} (hi : i = .jz target ∨ i = .jnz target) :
    Flows arity layout p [QuinLang.op i (a :: σ) live] (a :: σ) [(.at (p + 1), σ.length), (.at target, σ.length)] := by
  refine Leaves.one ?_ ?_
  · rintro v rfl
    rcases hi with rfl | rfl <;> exact fits rfl (Nat.le_add_left 1 σ.length) (by simp) (by simp) (by simp)
  · rintro v rfl x v' hlead
    have hnext : (x = .at target ∨ x = .at (p + 1)) ∧ v' = ⟨σ.length, .none⟩ := by
      rcases hi with rfl | rfl <;> exact hlead
    obtain ⟨hx, rfl⟩ := hnext
    refine ⟨rfl, ?_⟩
    rcases hx with rfl | rfl <;> simp

theorem jump {p target : ℕ} : Flows arity layout p [QuinLang.op (.jmp target) σ live] σ [(.at target, σ.length)] := by
  refine Leaves.one ?_ ?_
  · rintro v rfl
    exact fits rfl (Nat.zero_le _) (by simp) (by simp) (by simp)
  · rintro v rfl x v' ⟨rfl, rfl⟩
    exact ⟨rfl, List.mem_cons_self⟩

end Flows

namespace Runs

theorem nil : Runs arity layout pc [] σ σ := Leaves.nil fun v hv => by
  subst hv
  exact ⟨rfl, List.mem_cons_self⟩

theorem append (h : Runs arity layout pc c₁ σ τ) (h' : Runs arity layout (pc + c₁.length) c₂ τ ρ) :
    Runs arity layout pc (c₁ ++ c₂) σ ρ := by
  refine (Flows.append h h' rfl ?_).mono ?_
  · intro t ht
    exact Or.inl (List.mem_singleton.mp ht)
  · intro t ht
    obtain rfl := List.mem_singleton.mp ht
    rw [List.length_append, Nat.add_assoc]
    exact List.mem_cons_self

theorem appendAt (h : Runs arity layout pc c₁ σ τ) (h' : Runs arity layout pc₂ c₂ τ ρ)
    (hpc : pc₂ = pc + c₁.length) : Runs arity layout pc (c₁ ++ c₂) σ ρ := by
  subst hpc
  exact h.append h'

theorem cons {s : Site} (h : Runs arity layout pc [s] σ τ) (h' : Runs arity layout (pc + 1) c₂ τ ρ) :
    Runs arity layout pc (s :: c₂) σ ρ := h.append h'

/-- `&&` and `||`: the right operand is not reached where the left one decides. -/
theorem shortCircuit {j : ℕ → Instruction} {rPc other a b : ℕ} {l r : List Site}
    (hj : ∀ n, j n = .jz n ∨ j n = .jnz n) (hl : Runs arity layout pc l σ (.val .bool :: σ))
    (hr : Runs arity layout rPc r σ (.val .bool :: σ)) (hrPc : rPc = pc + l.length + 1) (ho : other = rPc + r.length + 3) :
    Runs arity layout pc (l ++ op (j other) (.val .bool :: σ) live :: r ++
      [op (j other) (.val .bool :: σ) live, op (.pushInt a) σ live, op (.jmp (other + 1)) (.val .bool :: σ) live,
        op (.pushInt b) σ live]) σ (.val .bool :: σ) := by
  have hjump (p : ℕ) : Flows arity layout p [op (j other) (.val .bool :: σ) live] (.val .bool :: σ)
      [(.at (p + 1), σ.length), (.at other, σ.length)] := Flows.branch (hj other)
  have hleft := Flows.append hl (hjump (pc + l.length)) rfl (by simp)
  have hright := Flows.append hleft (hr.mono (L := [(.at (rPc + r.length), σ.length + 1), (.at other, σ.length)])
    (by simp)) (by simp; omega) (by simp; omega)
  have hboth := Flows.append hright ((hjump (rPc + r.length)).mono
    (L := [(.at (rPc + r.length + 1), σ.length), (.at other, σ.length)]) (by simp)) (by simp; omega) (by simp; omega)
  have hpush (p n : ℕ) : Runs arity layout p [op (.pushInt n) σ live] σ (.val .bool :: σ) :=
    Flows.op rfl (by simp [Instruction.pops]) rfl
  have htrue : Flows arity layout (rPc + r.length + 1) [op (.pushInt a) σ live, op (.jmp (other + 1)) (.val .bool :: σ) live]
      σ [(.at (other + 1), σ.length + 1), (.at other, σ.length)] :=
    (Flows.append (hpush _ a) Flows.jump rfl (by simp)).mono (by simp)
  have hjoined := Flows.append hboth htrue (by simp; omega) (by simp; omega)
  have hfalse := hpush other b
  have hall := Flows.append hjoined hfalse (by simp; omega) (by simp)
  simp only [List.append_assoc, List.cons_append, List.nil_append] at hall ⊢
  refine hall.mono ?_
  simp
  omega

/-- An element access after its bounds check. -/
theorem checked {slot length : ℕ} {sym : Symbol} {i : Instruction} {a : Static} {rest : List Site}
    (hs : layout.slot? sym = some ⟨slot, length⟩)
    (hi : i = .loadLocalIdx slot ∧ τ.length = σ.length + 1 ∨ i = .storeLocalIdx slot ∧ σ.length = τ.length + 1)
    (h : Runs arity layout pc₂ rest τ ρ) (hpc : pc₂ = pc + 2) :
    Runs arity layout pc (op (.boundsCheck length) (a :: σ) live :: op i (.index length :: σ) live :: rest) (a :: σ) ρ := by
  have hcheck : Leaves (Site.leads arity) (Site.Fits arity layout) pc [op (.boundsCheck length) (a :: σ) live]
      (fun v => v = ⟨(a :: σ).length, .none⟩)
      (fun x v => x = .at (pc + 1) ∧ v = (⟨σ.length + 1, .top length⟩ : Point)) := by
    refine Leaves.one ?_ ?_
    · rintro v rfl
      exact Flows.fits rfl (Nat.le_add_left 1 σ.length) (by simp) (by simp) (by simp)
    · rintro v rfl x v' ⟨rfl, rfl⟩
      exact ⟨rfl, rfl⟩
  have haccess : Leaves (Site.leads arity) (Site.Fits arity layout) (pc + 1) [op i (.index length :: σ) live]
      (fun v => v = ⟨σ.length + 1, .top length⟩) (exitsTo [(.at (pc + 2), τ.length)]) := by
    refine Leaves.one ?_ ?_
    · rintro v rfl
      refine ⟨rfl, ?_, fun hc => ?_, fun hr => ?_, fun k hk => ⟨sym, length, rfl, ?_⟩, fun ha => by cases ha⟩
      · rcases hi with ⟨rfl, hlen⟩ | ⟨rfl, hlen⟩
        · exact Nat.le_add_left 1 σ.length
        · rw [hlen]
          exact Nat.le_add_left 2 τ.length
      · rcases hi with ⟨rfl, -⟩ | ⟨rfl, -⟩ <;> cases hc
      · rcases hi with ⟨rfl, -⟩ | ⟨rfl, -⟩ <;> cases hr
      · rcases hi with ⟨rfl, -⟩ | ⟨rfl, -⟩ <;> rcases hk with hk | hk <;> cases hk <;> exact hs
    · rintro v rfl x v' hlead
      have hnext : x = .at (pc + 2) ∧ v' = ⟨τ.length, .none⟩ := by
        rcases hi with ⟨rfl, hlen⟩ | ⟨rfl, hlen⟩
        · rw [hlen]
          exact hlead
        · obtain ⟨rfl, rfl⟩ := hlead
          refine ⟨rfl, ?_⟩
          simp [op, Site.pops, Instruction.pops, Instruction.pushes, Guard.after, hlen]
      obtain ⟨rfl, rfl⟩ := hnext
      exact ⟨rfl, List.mem_cons_self⟩
  have hboth : Flows arity layout pc [op (.boundsCheck length) (a :: σ) live, op i (.index length :: σ) live] (a :: σ)
      [(.at (pc + 2), τ.length)] := Leaves.append hcheck haccess (fun v hv => hv.2) fun x v hv hx => absurd hv.1 hx
  subst hpc
  exact append hboth h

/-- The address of an element after its bounds check. -/
theorem address {slot length : ℕ} {sym : Symbol} {a b : Static} (hs : layout.slot? sym = some ⟨slot, length⟩) :
    Runs arity layout pc [op (.boundsCheck length) (a :: σ) live, op (.pushInt slot) (.index length :: σ) live,
      ⟨.instr .add, .base sym :: .index length :: σ, live, .address⟩] (a :: σ) (b :: σ) := by
  have hcheck : Leaves (Site.leads arity) (Site.Fits arity layout) pc [op (.boundsCheck length) (a :: σ) live]
      (fun v => v = ⟨(a :: σ).length, .none⟩)
      (fun x v => x = .at (pc + 1) ∧ v = (⟨σ.length + 1, .top length⟩ : Point)) := by
    refine Leaves.one ?_ ?_
    · rintro v rfl
      exact Flows.fits rfl (Nat.le_add_left 1 σ.length) (by simp) (by simp) (by simp)
    · rintro v rfl x v' ⟨rfl, rfl⟩
      exact ⟨rfl, rfl⟩
  have hpush : Leaves (Site.leads arity) (Site.Fits arity layout) (pc + 1) [op (.pushInt slot) (.index length :: σ) live]
      (fun v => v = ⟨σ.length + 1, .top length⟩)
      (fun x v => x = .at (pc + 2) ∧ v = (⟨σ.length + 2, .under slot length⟩ : Point)) := by
    refine Leaves.one ?_ ?_
    · rintro v rfl
      exact Flows.fits rfl (Nat.zero_le _) (by simp) (by simp) (by simp)
    · rintro v rfl x v' ⟨rfl, rfl⟩
      exact ⟨rfl, rfl⟩
  have hadd : Leaves (Site.leads arity) (Site.Fits arity layout) (pc + 2)
      [⟨.instr .add, .base sym :: .index length :: σ, live, .address⟩]
      (fun v => v = ⟨σ.length + 2, .under slot length⟩) (exitsTo [(.at (pc + 3), σ.length + 1)]) := by
    refine Leaves.one ?_ ?_
    · rintro v rfl
      refine ⟨rfl, Nat.le_add_left 2 σ.length, fun hc => (by cases hc), fun hr => (by cases hr), fun k hk => ?_, fun _ _ => ⟨sym, slot, length, rfl, hs⟩⟩
      rcases hk with hk | hk <;> cases hk
    · rintro v rfl x v' ⟨rfl, rfl⟩
      exact ⟨rfl, List.mem_cons_self⟩
  exact Leaves.append hcheck (Leaves.append hpush hadd (fun v hv => hv.2) fun x v hv hx => absurd hv.1 hx)
    (fun v hv => hv.2) fun x v hv hx => absurd hv.1 hx

/-- A call, its arguments on the stack. -/
theorem call {f : ℕ} {a : Static} (h : τ.length = σ.length + arity f) :
    Runs arity layout pc [op (.call f) τ live] τ (a :: σ) := by
  refine Leaves.one ?_ ?_
  · rintro v rfl
    refine Flows.fits rfl ?_ (by simp) (by simp) (by simp)
    rw [h]
    exact Nat.le_add_left _ _
  · rintro v rfl x v' ⟨rfl, rfl⟩
    refine ⟨rfl, ?_⟩
    simp [op, Site.pops, Instruction.pushes, h]

theorem callIndirect {params : List Ty} {ret : Ty} {a : Static} (h : τ.length = σ.length + params.length) :
    Runs arity layout pc [op .callIndirect (.val (.func params ret) :: τ) live] (.val (.func params ret) :: τ)
      (a :: σ) := by
  refine Leaves.one ?_ ?_
  · rintro v rfl
    refine ⟨rfl, ?_, fun _ => ⟨params, ret, τ, rfl⟩, fun hr => (by cases hr), fun k hk => ?_, fun ha => (by cases ha)⟩
    · simp [op, Site.pops, h]
    · rcases hk with hk | hk <;> cases hk
  · rintro v rfl x v' ⟨rfl, rfl⟩
    refine ⟨rfl, ?_⟩
    simp [op, Site.pops, Instruction.pushes, h]

end Runs

theorem exceptBind_ok {ε α β : Type} {x : Except ε α} {f : α → Except ε β} {b : β} (h : x >>= f = .ok b) :
    ∃ a, x = .ok a ∧ f a = .ok b := by
  cases x with
  | error e => cases h
  | ok a => exact ⟨a, rfl, h⟩

theorem located_ok {outer : Option Pos} {pos : Pos} {p : ℕ} {body : Option Pos → Gen (List Site)} {s s' : GenState}
    {code : List Site} (h : located outer pos p body s = .ok (code, s')) :
    ∃ loc s₁ s₂, body loc s₁ = .ok (code, s₂) := by
  have hbody {loc : Option Pos} {s₁ : GenState} {rest : List Site → Gen (List Site)} (hr : ∀ c s₂ r, rest c s₂ = .ok r → r.1 = c)
      (h : (body loc >>= rest) s₁ = .ok (code, s')) : ∃ loc s₁ s₂, body loc s₁ = .ok (code, s₂) := by
    obtain ⟨c, s₂, hb, h⟩ := bind_ok.mp h
    obtain rfl := hr c s₂ _ h
    exact ⟨loc, s₁, s₂, hb⟩
  have hnone : ∀ c s₂ r, (pure c : Gen (List Site)) s₂ = .ok r → r.1 = c := by
    intro c s₂ r h
    rw [← pure_ok.mp h]
  unfold located at h
  cases outer with
  | none =>
    dsimp only at h
    split at h
    · obtain ⟨_, s₁, -, h⟩ := bind_ok.mp h
      exact hbody hnone h
    · exact hbody hnone h
  | some q =>
    have hsome : ∀ c s₂ r, (mark (p + c.length) q >>= fun _ => pure c : Gen (List Site)) s₂ = .ok r → r.1 = c := by
      intro c s₂ r h
      obtain ⟨_, s₃, -, h⟩ := bind_ok.mp h
      exact hnone c s₃ r h
    dsimp only at h
    split at h
    · obtain ⟨_, s₁, -, h⟩ := bind_ok.mp h
      exact hbody hsome h
    · exact hbody hsome h

end Flows

section Expressions

variable {C : GenContext} {G : Globals} {arity : ℕ → ℕ} {live : List Symbol}

-- Derives the equations once, for all the proofs below.
attribute [local simp] emitExpr builtinOps

theorem slotOf_ok {pos : Pos} {sym : Symbol} {s s' : GenState} {slot : LocalSlot}
    (h : slotOf C pos sym s = .ok (slot, s')) : C.layout.slot? sym = some slot := by
  cases hs : C.layout.slot? sym with
  | none => simp [slotOf, hs, genError, codegenError] at h
  | some slot' =>
    simp only [slotOf, hs, pure_ok, Prod.mk.injEq] at h
    rw [h.1]

theorem arraySlot_ok {array : TExpr} {s s' : GenState} {r : Symbol × LocalSlot}
    (h : arraySlot C array s = .ok (r, s')) : C.layout.slot? r.1 = some ⟨r.2.index, r.2.length⟩ := by
  cases array with
  | «local» pos sym =>
    simp only [arraySlot] at h
    obtain ⟨slot, s₁, hs, h⟩ := bind_ok.mp h
    split at h
    · obtain ⟨rfl, -⟩ := Prod.mk.inj (pure_ok.mp h)
      exact slotOf_ok hs
    · cases h
  | _ => cases h

theorem length_pushTypes (args : List TExpr) (σ : List Static) :
    (pushTypes args σ).length = σ.length + args.length := by
  induction args generalizing σ with
  | nil => rfl
  | cons a args ih =>
    rw [pushTypes, List.foldl_cons]
    refine (ih _).trans ?_
    rw [List.length_cons, List.length_cons]
    omega

theorem binarySites_runs {o : BinaryOp} {l r : Ty} {p : ℕ} {σ : List Static} {a : Static} (ho : o ≠ .land)
    (ho' : o ≠ .lor) :
    Runs arity C.layout p (binarySites live o l r σ) (.val r :: .val l :: σ) (a :: σ) := by
  unfold binarySites
  cases o <;> first | exact absurd rfl ho | exact absurd rfl ho' | skip
  all_goals
    simp only [floatOp, comparisonOp, binaryOp]
    repeat' split
    all_goals first
      | exact Flows.takesTwo rfl rfl rfl
      | exact Runs.cons (Flows.takesTwo (c := .val .int) rfl rfl rfl)
          (Runs.cons (Flows.pushes rfl rfl rfl) (Flows.takesTwo rfl rfl rfl))

theorem emitExpr_binary {pos : Pos} {left right : TExpr} {o : BinaryOp} {type : Ty} {outer : Option Pos} {p : ℕ}
    {σ : List Static} (ho : o ≠ .land) (ho' : o ≠ .lor) :
    emitExpr C live outer p σ (.binary pos left o right type) = located outer pos p fun loc => do
      let l ← emitExpr C live loc p σ left
      let r ← emitExpr C live loc (p + l.length) (.val left.type :: σ) right
      return l ++ r ++ binarySites live o left.type right.type σ := by
  rw [emitExpr]
  · exact ho
  · exact ho'

/-- The instructions of a builtin take its arguments and leave one entry, or panic. -/
theorem builtinOps_shape {callee : String} {n : ℕ} {instrs : List Instruction} (h : builtinOps callee n = some instrs) :
    (∃ i, instrs = [i] ∧ i.isPlain = true ∧ i.pops = n ∧ i.pushes = 1) ∨
      (∃ i, instrs = [i, .pushInt 0] ∧ i.isPlain = true ∧ i.pops = n ∧ i.pushes = 0) ∨
        instrs = [.panic, .pushInt 0] ∧ n = 1 := by
  unfold builtinOps at h
  split at h <;> cases h
  all_goals first
    | exact Or.inl ⟨_, rfl, rfl, rfl, rfl⟩
    | exact Or.inr (Or.inl ⟨_, rfl, rfl, rfl, rfl⟩)
    | exact Or.inr (Or.inr ⟨rfl, rfl⟩)

theorem builtinSites_runs (callee : String) {args : List TExpr} {instrs : List Instruction} {p : ℕ} {σ : List Static}
    {a : Static} (h : builtinOps callee args.length = some instrs) :
    Runs arity C.layout p (builtinSites args σ live instrs) (pushTypes args σ) (a :: σ) := by
  have hlen := length_pushTypes args σ
  rcases builtinOps_shape h with ⟨i, rfl, hi, hp, hq⟩ | ⟨i, rfl, hi, hp, hq⟩ | ⟨rfl, hn⟩
  · apply Flows.op hi
    · omega
    · rw [hp, hq, hlen, Nat.add_sub_cancel]
      rfl
  · have hfirst : Runs arity C.layout p [op i (pushTypes args σ) live] (pushTypes args σ) σ := by
      apply Flows.op hi
      · omega
      · omega
    exact hfirst.cons (Flows.pushes rfl rfl rfl)
  · have hpanic : Flows arity C.layout p [op .panic (pushTypes args σ) live] (pushTypes args σ)
        [(.at (p + 2), σ.length + 1)] := by
      refine Leaves.one ?_ ?_
      · rintro v rfl
        refine Flows.fits rfl ?_ (by simp) (by simp) (by simp)
        show 1 ≤ (pushTypes args σ).length
        omega
      · rintro v rfl x v' hlead
        cases hlead
    exact Leaves.append_dead hpanic (by simp) [op (.pushInt 0) σ live]

theorem loadField_runs {fld : StructField} {p : ℕ} {σ : List Static} {a b : Static} :
    Runs arity C.layout p [op (loadField fld) (a :: σ) live] (a :: σ) (b :: σ) := by
  unfold loadField
  split <;> exact Flows.takesOne rfl rfl rfl

theorem storeField_runs {fld : StructField} {p : ℕ} {σ : List Static} {a b : Static} :
    Runs arity C.layout p [op (storeField fld) (a :: b :: σ) live] (a :: b :: σ) σ := by
  unfold storeField
  split <;> exact Flows.op rfl (Nat.le_add_left 2 σ.length) rfl

/-- One field of the object on top is stored, and then the rest of them. -/
theorem storeInto_runs {fld : StructField} {p valuePc restPc : ℕ} {σ : List Static} {obj v a b : Static}
    {c cs : List Site} (hc : Runs arity C.layout valuePc c (.copy :: obj :: σ) (v :: .copy :: obj :: σ))
    (hcs : Runs arity C.layout restPc cs (obj :: σ) (b :: σ)) (hv : valuePc = p + 1)
    (hr : restPc = p + 1 + c.length + 1) :
    Runs arity C.layout p (op .dup (obj :: σ) live :: c ++ op (storeField fld) (v :: .copy :: obj :: σ) live :: cs)
      (a :: σ) (b :: σ) := by
  have hdup : Runs arity C.layout p [op .dup (obj :: σ) live] (obj :: σ) (.copy :: obj :: σ) :=
    Flows.op rfl (Nat.le_add_left 1 σ.length) rfl
  have hstore {q : ℕ} : Runs arity C.layout q [op (storeField fld) (v :: .copy :: obj :: σ) live]
      (v :: .copy :: obj :: σ) (obj :: σ) := storeField_runs
  subst hv hr
  refine (hdup.cons hc).appendAt ((hstore (q := p + 1 + c.length)).cons hcs) ?_
  rw [List.length_cons]
  omega

/-- `array_push`, its slot checked. -/
theorem arrayPush_runs {p slot length : ℕ} {sym : Symbol} {σ : List Static} {a : Static} {l v : List Site}
    (hs : C.layout.slot? sym = some ⟨slot, length⟩) (hl : Runs arity C.layout p l σ (.val .int :: σ))
    (hv : Runs arity C.layout (p + l.length + 1) v (.val .int :: .val .int :: σ)
      (.val .int :: .val .int :: .val .int :: σ)) :
    Runs arity C.layout p (l ++ op .dup (.val .int :: σ) live :: v
      ++ [op .swap (.val .int :: .val .int :: .val .int :: σ) live,
        op (.boundsCheck length) (.val .int :: .val .int :: .val .int :: σ) live,
        op (.storeLocalIdx slot) (.index length :: .val .int :: .val .int :: σ) live,
        op (.pushInt 1) (.val .int :: σ) live,
        op .add (.val .int :: .val .int :: σ) live]) σ (a :: σ) := by
  have hdup {q : ℕ} : Runs arity C.layout q [op .dup (.val .int :: σ) live] (.val .int :: σ)
      (.val .int :: .val .int :: σ) := Flows.op rfl (Nat.le_add_left 1 σ.length) rfl
  have hswap {q : ℕ} : Runs arity C.layout q [op .swap (.val .int :: .val .int :: .val .int :: σ) live]
      (.val .int :: .val .int :: .val .int :: σ) (.val .int :: .val .int :: .val .int :: σ) :=
    Flows.op rfl (Nat.le_add_left 2 _) rfl
  have hone {q : ℕ} : Runs arity C.layout q [op (.pushInt 1) (.val .int :: σ) live] (.val .int :: σ)
      (.val .int :: .val .int :: σ) := Flows.pushes rfl rfl rfl
  have hadd {q : ℕ} : Runs arity C.layout q [op .add (.val .int :: .val .int :: σ) live] (.val .int :: .val .int :: σ)
      (a :: σ) := Flows.takesTwo rfl rfl rfl
  exact (hl.append (hdup.cons hv)).append (hswap.cons (Runs.checked hs (Or.inr ⟨rfl, rfl⟩) (hone.cons hadd) rfl))

/-- `array_pop`, its slot checked. -/
theorem arrayPop_runs {p slot length : ℕ} {sym : Symbol} {σ : List Static} {a : Static} {l : List Site}
    (hs : C.layout.slot? sym = some ⟨slot, length⟩) (hl : Runs arity C.layout p l σ (.val .int :: σ)) :
    Runs arity C.layout p (l ++ [op (.pushInt 1) (.val .int :: σ) live, op .sub (.val .int :: .val .int :: σ) live,
      op (.boundsCheck length) (.val .int :: σ) live, op (.loadLocalIdx slot) (.index length :: σ) live]) σ (a :: σ) := by
  have hone {q : ℕ} : Runs arity C.layout q [op (.pushInt 1) (.val .int :: σ) live] (.val .int :: σ)
      (.val .int :: .val .int :: σ) := Flows.pushes rfl rfl rfl
  have hsub {q : ℕ} : Runs arity C.layout q [op .sub (.val .int :: .val .int :: σ) live] (.val .int :: .val .int :: σ)
      (.val .int :: σ) := Flows.takesTwo rfl rfl rfl
  exact hl.append (hone.cons (hsub.cons (Runs.checked hs (Or.inl ⟨rfl, rfl⟩) .nil rfl)))

/-- `ct_select`: `x - y`, times the mask, plus `y` again. -/
theorem ctSelect_runs {p mPc cPc : ℕ} {σ : List Static} {t : Static} {a b m c : List Site}
    (ha : Runs arity C.layout p a σ (.val .int :: σ))
    (hb : Runs arity C.layout (p + a.length) b (.val .int :: σ) (.val .int :: .val .int :: σ))
    (hm : Runs arity C.layout mPc m (.val .int :: σ) (.val .int :: .val .int :: σ))
    (hc : Runs arity C.layout cPc c (.val .int :: σ) (.val .int :: .val .int :: σ))
    (hmPc : mPc = p + a.length + b.length + 1) (hcPc : cPc = mPc + m.length + 1) :
    Runs arity C.layout p (a ++ b ++ op .sub (.val .int :: .val .int :: σ) live :: m
      ++ op .mul (.val .int :: .val .int :: σ) live :: c ++ [op .add (.val .int :: .val .int :: σ) live]) σ (t :: σ) := by
  subst hmPc hcPc
  have hsub {q : ℕ} : Runs arity C.layout q [op .sub (.val .int :: .val .int :: σ) live]
      (.val .int :: .val .int :: σ) (.val .int :: σ) := Flows.takesTwo rfl rfl rfl
  have hmul {q : ℕ} : Runs arity C.layout q [op .mul (.val .int :: .val .int :: σ) live]
      (.val .int :: .val .int :: σ) (.val .int :: σ) := Flows.takesTwo rfl rfl rfl
  have hdiff := (ha.append hb).appendAt (hsub.cons hm) (by rw [List.length_append, Nat.add_assoc])
  have hscaled := hdiff.appendAt (hmul.cons hc) (by simp; omega)
  exact hscaled.append (Flows.takesTwo rfl rfl rfl)

/-! What the code of each form of expression consists of. -/

/-- The code is emitted for the expression at `pc`, above `σ`. -/
def ExprCode (C : GenContext) (live : List Symbol) (pc : ℕ) (σ : List Static) (e : TExpr) (code : List Site) : Prop :=
  ∃ loc s s', emitExpr C live loc pc σ e s = .ok (code, s')

def ArgsCode (C : GenContext) (live : List Symbol) (pc : ℕ) (σ : List Static) (es : List TExpr) (code : List Site) : Prop :=
  ∃ loc s s', emitArgs C live loc pc σ es s = .ok (code, s')

def PayloadCode (C : GenContext) (live : List Symbol) (pc : ℕ) (σ : List Static) (info : VariantInfo) (stored : List ℕ)
    (es : List TExpr) (flds : List StructField) (code : List Site) : Prop :=
  ∃ loc s s', emitPayload C live loc pc σ info stored es flds s = .ok (code, s')

def InitsCode (C : GenContext) (live : List Symbol) (pc : ℕ) (σ : List Static) (info : StructInfo) (stored : List ℕ)
    (inits : List TInit) (code : List Site) : Prop :=
  ∃ loc s s', emitInits C live loc pc σ info stored inits s = .ok (code, s')

namespace ExprCode

variable {pos : Pos} {type : Ty} {pc : ℕ} {σ : List Static} {code : List Site}

/-- The instructions that stand for a value by themselves. -/
def Leaf (i : Instruction) : Prop := i.isPlain = true ∧ i.pops = 0 ∧ i.pushes = 1

theorem literal {value : Literal} (h : ExprCode C live pc σ (.literal pos value) code) :
    ∃ i, Leaf i ∧ code = [op i σ live] := by
  obtain ⟨loc, s, s', h⟩ := h
  simp only [emitExpr] at h
  obtain ⟨loc, s₁, s₂, h⟩ := located_ok h
  cases value with
  | str text =>
    obtain ⟨sid, s₃, -, h⟩ := bind_ok.mp h
    obtain ⟨rfl, -⟩ := Prod.mk.inj (pure_ok.mp h)
    exact ⟨_, ⟨rfl, rfl, rfl⟩, rfl⟩
  | _ =>
    obtain ⟨rfl, -⟩ := Prod.mk.inj (pure_ok.mp h)
    exact ⟨_, ⟨rfl, rfl, rfl⟩, rfl⟩

theorem funcRef {name : TypeName} (h : ExprCode C live pc σ (.funcRef pos name type) code) :
    ∃ i, Leaf i ∧ code = [op i σ live] := by
  obtain ⟨loc, s, s', h⟩ := h
  simp only [emitExpr] at h
  obtain ⟨loc, s₁, s₂, h⟩ := located_ok h
  cases hi : funcIndex C name with
  | none => simp [hi, genError, codegenError] at h
  | some i =>
    simp only [hi] at h
    obtain ⟨rfl, -⟩ := Prod.mk.inj (pure_ok.mp h)
    exact ⟨_, ⟨rfl, rfl, rfl⟩, rfl⟩

theorem variant {info : VariantInfo} {args : List TExpr} (h : ExprCode C live pc σ (.variant pos info args) code) :
    code = [op (.loadVariant info.typeId) σ live] ∨
      ∃ rest, PayloadCode C live (pc + 1) σ info [] args info.fields rest ∧
        code = op (.allocTyped info.typeId) σ live :: rest := by
  obtain ⟨loc, s, s', h⟩ := h
  simp only [emitExpr] at h
  obtain ⟨loc, s₁, s₂, h⟩ := located_ok h
  split at h
  · obtain ⟨rfl, -⟩ := Prod.mk.inj (pure_ok.mp h)
    exact Or.inl rfl
  · obtain ⟨rest, s₃, hrest, h⟩ := bind_ok.mp h
    obtain ⟨rfl, -⟩ := Prod.mk.inj (pure_ok.mp h)
    exact Or.inr ⟨rest, ⟨loc, s₁, s₃, hrest⟩, rfl⟩

theorem «local» {sym : Symbol} (h : ExprCode C live pc σ (.local pos sym) code) :
    ∃ i, Leaf i ∧ code = [op i σ live] := by
  obtain ⟨loc, s, s', h⟩ := h
  simp only [emitExpr] at h
  obtain ⟨loc, s₁, s₂, h⟩ := located_ok h
  obtain ⟨slot, s₃, -, h⟩ := bind_ok.mp h
  split at h
  · cases h
  · split at h
    · obtain ⟨rfl, -⟩ := Prod.mk.inj (pure_ok.mp h)
      exact ⟨_, ⟨rfl, rfl, rfl⟩, rfl⟩
    · obtain ⟨rfl, -⟩ := Prod.mk.inj (pure_ok.mp h)
      exact ⟨_, ⟨rfl, rfl, rfl⟩, rfl⟩

theorem addressOfVar {sym : Symbol} (h : ExprCode C live pc σ (.addressOfVar pos sym) code) :
    ∃ slot, C.layout.slot? sym = some slot ∧ code = [⟨.instr (.pushInt slot.index), σ, live, .address⟩] := by
  obtain ⟨loc, s, s', h⟩ := h
  simp only [emitExpr] at h
  obtain ⟨loc, s₁, s₂, h⟩ := located_ok h
  obtain ⟨slot, s₃, hs, h⟩ := bind_ok.mp h
  obtain ⟨rfl, -⟩ := Prod.mk.inj (pure_ok.mp h)
  exact ⟨slot, slotOf_ok hs, rfl⟩

theorem addressOfElem {array index : TExpr} (h : ExprCode C live pc σ (.addressOfElem pos array index) code) :
    ∃ sym slot length i, C.layout.slot? sym = some ⟨slot, length⟩ ∧ ExprCode C live pc σ index i ∧
      code = i ++ [op (.boundsCheck length) (.val .int :: σ) live, op (.pushInt slot) (.index length :: σ) live,
        ⟨.instr .add, .base sym :: .index length :: σ, live, .address⟩] := by
  obtain ⟨loc, s, s', h⟩ := h
  simp only [emitExpr] at h
  obtain ⟨loc, s₁, s₂, h⟩ := located_ok h
  obtain ⟨⟨sym, slot⟩, s₃, hslot, h⟩ := bind_ok.mp h
  obtain ⟨i, s₄, hi, h⟩ := bind_ok.mp h
  obtain ⟨rfl, -⟩ := Prod.mk.inj (pure_ok.mp h)
  exact ⟨sym, slot.index, slot.length, i, arraySlot_ok hslot, ⟨_, _, _, hi⟩, rfl⟩

theorem unary {o : UnaryOp} {right : TExpr} (h : ExprCode C live pc σ (.unary pos o right type) code) :
    ∃ r i, ExprCode C live pc σ right r ∧ (i.isPlain = true ∧ i.pops = 1 ∧ i.pushes = 1) ∧
      code = r ++ [op i (.val right.type :: σ) live] := by
  obtain ⟨loc, s, s', h⟩ := h
  simp only [emitExpr] at h
  obtain ⟨loc, s₁, s₂, h⟩ := located_ok h
  obtain ⟨r, s₃, hr, h⟩ := bind_ok.mp h
  obtain ⟨rfl, -⟩ := Prod.mk.inj (pure_ok.mp h)
  refine ⟨r, _, ⟨_, _, _, hr⟩, ?_, rfl⟩
  cases o with
  | neg =>
    dsimp only
    split <;> exact ⟨rfl, rfl, rfl⟩
  | not | bitnot => exact ⟨rfl, rfl, rfl⟩

theorem land {left right : TExpr} (h : ExprCode C live pc σ (.binary pos left .land right type) code) :
    ∃ l r, ExprCode C live pc σ left l ∧ ExprCode C live (pc + l.length + 1) σ right r ∧
      code = l ++ op (.jz (pc + l.length + 1 + r.length + 3)) (.val .bool :: σ) live :: r
        ++ [op (.jz (pc + l.length + 1 + r.length + 3)) (.val .bool :: σ) live, op (.pushInt 1) σ live,
          op (.jmp (pc + l.length + 1 + r.length + 3 + 1)) (.val .bool :: σ) live, op (.pushInt 0) σ live] := by
  obtain ⟨loc, s, s', h⟩ := h
  rw [emitExpr] at h
  obtain ⟨loc, s₁, s₂, h⟩ := located_ok h
  obtain ⟨l, s₃, hl, h⟩ := bind_ok.mp h
  obtain ⟨r, s₄, hr, h⟩ := bind_ok.mp h
  obtain ⟨rfl, -⟩ := Prod.mk.inj (pure_ok.mp h)
  exact ⟨l, r, ⟨_, _, _, hl⟩, ⟨_, _, _, hr⟩, rfl⟩

theorem lor {left right : TExpr} (h : ExprCode C live pc σ (.binary pos left .lor right type) code) :
    ∃ l r, ExprCode C live pc σ left l ∧ ExprCode C live (pc + l.length + 1) σ right r ∧
      code = l ++ op (.jnz (pc + l.length + 1 + r.length + 3)) (.val .bool :: σ) live :: r
        ++ [op (.jnz (pc + l.length + 1 + r.length + 3)) (.val .bool :: σ) live, op (.pushInt 0) σ live,
          op (.jmp (pc + l.length + 1 + r.length + 3 + 1)) (.val .bool :: σ) live, op (.pushInt 1) σ live] := by
  obtain ⟨loc, s, s', h⟩ := h
  rw [emitExpr] at h
  obtain ⟨loc, s₁, s₂, h⟩ := located_ok h
  obtain ⟨l, s₃, hl, h⟩ := bind_ok.mp h
  obtain ⟨r, s₄, hr, h⟩ := bind_ok.mp h
  obtain ⟨rfl, -⟩ := Prod.mk.inj (pure_ok.mp h)
  exact ⟨l, r, ⟨_, _, _, hl⟩, ⟨_, _, _, hr⟩, rfl⟩

theorem binary {left right : TExpr} {o : BinaryOp} (h : ExprCode C live pc σ (.binary pos left o right type) code)
    (ho : o ≠ .land) (ho' : o ≠ .lor) :
    ∃ l r, ExprCode C live pc σ left l ∧ ExprCode C live (pc + l.length) (.val left.type :: σ) right r ∧
      code = l ++ r ++ binarySites live o left.type right.type σ := by
  obtain ⟨loc, s, s', h⟩ := h
  rw [emitExpr_binary ho ho'] at h
  obtain ⟨loc, s₁, s₂, h⟩ := located_ok h
  obtain ⟨l, s₃, hl, h⟩ := bind_ok.mp h
  obtain ⟨r, s₄, hr, h⟩ := bind_ok.mp h
  obtain ⟨rfl, -⟩ := Prod.mk.inj (pure_ok.mp h)
  exact ⟨l, r, ⟨_, _, _, hl⟩, ⟨_, _, _, hr⟩, rfl⟩

theorem index {array index : TExpr} (h : ExprCode C live pc σ (.index pos array index type) code) :
    (∃ a i, ExprCode C live pc σ array a ∧ ExprCode C live (pc + a.length) (.val array.type :: σ) index i ∧
        code = a ++ i ++ [op .arrayGet (.val .int :: .val array.type :: σ) live]) ∨
      ∃ sym slot length i, C.layout.slot? sym = some ⟨slot, length⟩ ∧ ExprCode C live pc σ index i ∧
        code = i ++ [op (.boundsCheck length) (.val .int :: σ) live, op (.loadLocalIdx slot) (.index length :: σ) live] := by
  obtain ⟨loc, s, s', h⟩ := h
  simp only [emitExpr] at h
  obtain ⟨loc, s₁, s₂, h⟩ := located_ok h
  cases hty : array.type with
  | array element =>
    simp only [hty] at h
    obtain ⟨a, s₃, ha, h⟩ := bind_ok.mp h
    obtain ⟨i, s₄, hi, h⟩ := bind_ok.mp h
    obtain ⟨rfl, -⟩ := Prod.mk.inj (pure_ok.mp h)
    exact Or.inl ⟨a, i, ⟨_, _, _, ha⟩, ⟨_, _, _, hi⟩, rfl⟩
  | _ =>
    simp only [hty] at h
    obtain ⟨⟨sym, slot⟩, s₃, hslot, h⟩ := bind_ok.mp h
    obtain ⟨i, s₄, hi, h⟩ := bind_ok.mp h
    obtain ⟨rfl, -⟩ := Prod.mk.inj (pure_ok.mp h)
    exact Or.inr ⟨sym, slot.index, slot.length, i, arraySlot_ok hslot, ⟨_, _, _, hi⟩, rfl⟩

theorem field {obj : TExpr} {field : String} (h : ExprCode C live pc σ (.field pos obj field type) code) :
    ∃ fld o, ExprCode C live pc σ obj o ∧ code = o ++ [op (loadField fld) (.val obj.type :: σ) live] := by
  obtain ⟨loc, s, s', h⟩ := h
  simp only [emitExpr] at h
  obtain ⟨loc, s₁, s₂, h⟩ := located_ok h
  obtain ⟨fld, s₃, -, h⟩ := bind_ok.mp h
  obtain ⟨o, s₄, ho, h⟩ := bind_ok.mp h
  obtain ⟨rfl, -⟩ := Prod.mk.inj (pure_ok.mp h)
  exact ⟨fld, o, ⟨_, _, _, ho⟩, rfl⟩

theorem structLit {name : TypeName} {inits : List TInit} (h : ExprCode C live pc σ (.structLit pos name inits) code) :
    ∃ info rest, InitsCode C live (pc + 1) σ info [] inits rest ∧ code = op (.allocTyped info.typeId) σ live :: rest := by
  obtain ⟨loc, s, s', h⟩ := h
  simp only [emitExpr] at h
  obtain ⟨loc, s₁, s₂, h⟩ := located_ok h
  cases hinfo : C.types.struct? name with
  | none => simp [hinfo, genError, codegenError] at h
  | some info =>
    simp only [hinfo] at h
    obtain ⟨rest, s₃, hrest, h⟩ := bind_ok.mp h
    obtain ⟨rfl, -⟩ := Prod.mk.inj (pure_ok.mp h)
    exact ⟨info, rest, ⟨_, _, _, hrest⟩, rfl⟩

theorem callField {receiver : TExpr} {args : List TExpr}
    (h : ExprCode C live pc σ (.callField pos receiver args type) code) :
    ∃ as r, ArgsCode C live pc σ args as ∧ ExprCode C live (pc + as.length) (pushTypes args σ) receiver r ∧
      code = as ++ r ++ [op .callIndirect (.val receiver.type :: pushTypes args σ) live] := by
  obtain ⟨loc, s, s', h⟩ := h
  simp only [emitExpr] at h
  obtain ⟨loc, s₁, s₂, h⟩ := located_ok h
  obtain ⟨as, s₃, has, h⟩ := bind_ok.mp h
  obtain ⟨r, s₄, hr, h⟩ := bind_ok.mp h
  obtain ⟨rfl, -⟩ := Prod.mk.inj (pure_ok.mp h)
  exact ⟨as, r, ⟨_, _, _, has⟩, ⟨_, _, _, hr⟩, rfl⟩

theorem callLocal {sym : Symbol} {args : List TExpr} (h : ExprCode C live pc σ (.callLocal pos sym args type) code) :
    ∃ as k, ArgsCode C live pc σ args as ∧
      code = as ++ [op (.loadLocal k) (pushTypes args σ) live, op .callIndirect (.val sym.type :: pushTypes args σ) live] := by
  obtain ⟨loc, s, s', h⟩ := h
  simp only [emitExpr] at h
  obtain ⟨loc, s₁, s₂, h⟩ := located_ok h
  obtain ⟨as, s₃, has, h⟩ := bind_ok.mp h
  obtain ⟨slot, s₄, -, h⟩ := bind_ok.mp h
  obtain ⟨rfl, -⟩ := Prod.mk.inj (pure_ok.mp h)
  exact ⟨as, slot.index, ⟨_, _, _, has⟩, rfl⟩

section Calls

variable {target : TypeName}

theorem arrayPush {array length value : TExpr}
    (h : ExprCode C live pc σ (.call pos "array_push" target [array, length, value] type) code) :
    ∃ sym slot n l v, C.layout.slot? sym = some ⟨slot, n⟩ ∧ ExprCode C live pc σ length l ∧
      ExprCode C live (pc + l.length + 1) (.val .int :: .val .int :: σ) value v ∧
      code = l ++ op .dup (.val .int :: σ) live :: v
        ++ [op .swap (.val .int :: .val .int :: .val .int :: σ) live,
          op (.boundsCheck n) (.val .int :: .val .int :: .val .int :: σ) live,
          op (.storeLocalIdx slot) (.index n :: .val .int :: .val .int :: σ) live,
          op (.pushInt 1) (.val .int :: σ) live, op .add (.val .int :: .val .int :: σ) live] := by
  obtain ⟨loc, s, s', h⟩ := h
  simp only [emitExpr] at h
  obtain ⟨loc, s₁, s₂, h⟩ := located_ok h
  obtain ⟨⟨sym, slot⟩, s₃, hslot, h⟩ := bind_ok.mp h
  obtain ⟨l, s₄, hl, h⟩ := bind_ok.mp h
  obtain ⟨v, s₅, hv, h⟩ := bind_ok.mp h
  obtain ⟨rfl, -⟩ := Prod.mk.inj (pure_ok.mp h)
  exact ⟨sym, slot.index, slot.length, l, v, arraySlot_ok hslot, ⟨_, _, _, hl⟩, ⟨_, _, _, hv⟩, rfl⟩

theorem arrayPop {array length : TExpr} (h : ExprCode C live pc σ (.call pos "array_pop" target [array, length] type) code) :
    ∃ sym slot n l, C.layout.slot? sym = some ⟨slot, n⟩ ∧ ExprCode C live pc σ length l ∧
      code = l ++ [op (.pushInt 1) (.val .int :: σ) live, op .sub (.val .int :: .val .int :: σ) live,
        op (.boundsCheck n) (.val .int :: σ) live, op (.loadLocalIdx slot) (.index n :: σ) live] := by
  obtain ⟨loc, s, s', h⟩ := h
  simp only [emitExpr] at h
  obtain ⟨loc, s₁, s₂, h⟩ := located_ok h
  obtain ⟨⟨sym, slot⟩, s₃, hslot, h⟩ := bind_ok.mp h
  obtain ⟨l, s₄, hl, h⟩ := bind_ok.mp h
  obtain ⟨rfl, -⟩ := Prod.mk.inj (pure_ok.mp h)
  exact ⟨sym, slot.index, slot.length, l, arraySlot_ok hslot, ⟨_, _, _, hl⟩, rfl⟩

theorem arrayNew {length : TExpr} (h : ExprCode C live pc σ (.call pos "array_new" target [length] type) code) :
    ∃ l b, ExprCode C live pc σ length l ∧ code = l ++ [op (.newArray b) (.val .int :: σ) live] := by
  obtain ⟨loc, s, s', h⟩ := h
  unfold emitExpr at h
  obtain ⟨loc, s₁, s₂, h⟩ := located_ok h
  obtain ⟨l, s₃, hl, h⟩ := bind_ok.mp h
  obtain ⟨rfl, -⟩ := Prod.mk.inj (pure_ok.mp h)
  exact ⟨l, _, ⟨_, _, _, hl⟩, rfl⟩

theorem ctSelect {mask x y : TExpr} (h : ExprCode C live pc σ (.call pos "ct_select" target [mask, x, y] type) code) :
    ∃ a b m c, ExprCode C live pc σ x a ∧ ExprCode C live (pc + a.length) (.val .int :: σ) y b ∧
      ExprCode C live (pc + a.length + b.length + 1) (.val .int :: σ) mask m ∧
      ExprCode C live (pc + a.length + b.length + 1 + m.length + 1) (.val .int :: σ) y c ∧
      code = a ++ b ++ op .sub (.val .int :: .val .int :: σ) live :: m
        ++ op .mul (.val .int :: .val .int :: σ) live :: c ++ [op .add (.val .int :: .val .int :: σ) live] := by
  obtain ⟨loc, s, s', h⟩ := h
  simp only [emitExpr] at h
  obtain ⟨loc, s₁, s₂, h⟩ := located_ok h
  obtain ⟨a, s₃, ha, h⟩ := bind_ok.mp h
  obtain ⟨b, s₄, hb, h⟩ := bind_ok.mp h
  obtain ⟨m, s₅, hm, h⟩ := bind_ok.mp h
  obtain ⟨c, s₆, hc, h⟩ := bind_ok.mp h
  obtain ⟨rfl, -⟩ := Prod.mk.inj (pure_ok.mp h)
  exact ⟨a, b, m, c, ⟨_, _, _, ha⟩, ⟨_, _, _, hb⟩, ⟨_, _, _, hm⟩, ⟨_, _, _, hc⟩, rfl⟩

variable {callee : String} {args : List TExpr}

/-- Any other call: a builtin's own instructions, or those of a function. -/
theorem call (h : ExprCode C live pc σ (.call pos callee target args type) code) (hc : callee ∉ loweredBuiltins) :
    ∃ as, ArgsCode C live pc σ args as ∧
      ((∃ instrs, builtinOps callee args.length = some instrs ∧ code = as ++ builtinSites args σ live instrs) ∨
        (builtinOps callee args.length = none ∧ ∃ i, funcIndex C target = some i ∧
          code = as ++ [op (.call i) (pushTypes args σ) live])) := by
  obtain ⟨loc, s, s', h⟩ := h
  rw [emitExpr_call hc] at h
  obtain ⟨loc, s₁, s₂, h⟩ := located_ok h
  cases hb : builtinOps callee args.length with
  | some instrs =>
    simp only [hb] at h
    obtain ⟨as, s₃, has, h⟩ := bind_ok.mp h
    obtain ⟨rfl, -⟩ := Prod.mk.inj (pure_ok.mp h)
    exact ⟨as, ⟨_, _, _, has⟩, Or.inl ⟨instrs, rfl, rfl⟩⟩
  | none =>
    simp only [hb] at h
    cases hi : funcIndex C target with
    | none => simp [hi, genError, codegenError] at h
    | some i =>
      simp only [hi] at h
      obtain ⟨as, s₃, has, h⟩ := bind_ok.mp h
      obtain ⟨rfl, -⟩ := Prod.mk.inj (pure_ok.mp h)
      exact ⟨as, ⟨_, _, _, has⟩, Or.inr ⟨rfl, i, rfl, rfl⟩⟩

end Calls

end ExprCode

theorem ArgsCode.nil {pc : ℕ} {σ : List Static} {code : List Site} (h : ArgsCode C live pc σ [] code) : code = [] := by
  obtain ⟨loc, s, s', h⟩ := h
  simp only [emitArgs] at h
  exact (Prod.mk.inj (pure_ok.mp h)).1.symm

theorem ArgsCode.cons {pc : ℕ} {σ : List Static} {e : TExpr} {es : List TExpr} {code : List Site}
    (h : ArgsCode C live pc σ (e :: es) code) :
    ∃ c cs, ExprCode C live pc σ e c ∧ ArgsCode C live (pc + c.length) (.val e.type :: σ) es cs ∧ code = c ++ cs := by
  obtain ⟨loc, s, s', h⟩ := h
  simp only [emitArgs] at h
  obtain ⟨c, s₁, hc, h⟩ := bind_ok.mp h
  obtain ⟨cs, s₂, hcs, h⟩ := bind_ok.mp h
  obtain ⟨rfl, -⟩ := Prod.mk.inj (pure_ok.mp h)
  exact ⟨c, cs, ⟨_, _, _, hc⟩, ⟨_, _, _, hcs⟩, rfl⟩

theorem PayloadCode.nil {pc : ℕ} {σ : List Static} {info : VariantInfo} {stored : List ℕ} {es : List TExpr}
    {flds : List StructField} {code : List Site} (h : PayloadCode C live pc σ info stored es flds code)
    (hnil : es = [] ∨ flds = []) : code = [] := by
  obtain ⟨loc, s, s', h⟩ := h
  cases es with
  | nil =>
    simp only [emitPayload] at h
    exact (Prod.mk.inj (pure_ok.mp h)).1.symm
  | cons e es =>
    obtain rfl : flds = [] := by simpa using hnil
    simp only [emitPayload] at h
    exact (Prod.mk.inj (pure_ok.mp h)).1.symm

theorem PayloadCode.cons {pc : ℕ} {σ : List Static} {info : VariantInfo} {stored : List ℕ} {e : TExpr} {es : List TExpr}
    {fld : StructField} {flds : List StructField} {code : List Site}
    (h : PayloadCode C live pc σ info stored (e :: es) (fld :: flds) code) :
    ∃ obj c cs, ExprCode C live (pc + 1) (.copy :: obj :: σ) e c ∧
      PayloadCode C live (pc + 1 + c.length + 1) σ info (fld.offset :: stored) es flds cs ∧
      code = op .dup (obj :: σ) live :: c ++ op (storeField fld) (.val e.type :: .copy :: obj :: σ) live :: cs := by
  obtain ⟨loc, s, s', h⟩ := h
  simp only [emitPayload] at h
  obtain ⟨c, s₁, hc, h⟩ := bind_ok.mp h
  obtain ⟨cs, s₂, hcs, h⟩ := bind_ok.mp h
  obtain ⟨rfl, -⟩ := Prod.mk.inj (pure_ok.mp h)
  exact ⟨_, c, cs, ⟨_, _, _, hc⟩, ⟨_, _, _, hcs⟩, rfl⟩

theorem InitsCode.nil {pc : ℕ} {σ : List Static} {info : StructInfo} {stored : List ℕ} {code : List Site}
    (h : InitsCode C live pc σ info stored [] code) : code = [] := by
  obtain ⟨loc, s, s', h⟩ := h
  simp only [emitInits] at h
  exact (Prod.mk.inj (pure_ok.mp h)).1.symm

theorem InitsCode.cons {pc : ℕ} {σ : List Static} {info : StructInfo} {stored : List ℕ} {pos : Pos} {name : String}
    {value : TExpr} {inits : List TInit} {code : List Site}
    (h : InitsCode C live pc σ info stored (.mk pos name value :: inits) code) :
    ∃ fld obj c cs, ExprCode C live (pc + 1) (.copy :: obj :: σ) value c ∧
      InitsCode C live (pc + 1 + c.length + 1) σ info (fld.offset :: stored) inits cs ∧
      code = op .dup (obj :: σ) live :: c ++ op (storeField fld) (.val value.type :: .copy :: obj :: σ) live :: cs := by
  obtain ⟨loc, s, s', h⟩ := h
  cases hfld : info.fieldNamed name with
  | none => simp [emitInits, hfld, genError, codegenError] at h
  | some fld =>
    simp only [emitInits, hfld] at h
    obtain ⟨c, s₁, hc, h⟩ := bind_ok.mp h
    obtain ⟨cs, s₂, hcs, h⟩ := bind_ok.mp h
    obtain ⟨rfl, -⟩ := Prod.mk.inj (pure_ok.mp h)
    exact ⟨fld, _, c, cs, ⟨_, _, _, hc⟩, ⟨_, _, _, hcs⟩, rfl⟩

/-- The code of the expression leaves one entry on the stack it starts on, wherever it stands. -/
def OneEntry (C : GenContext) (arity : ℕ → ℕ) (live : List Symbol) (e : TExpr) : Prop :=
  ∀ {pc : ℕ} {σ : List Static} {code : List Site} {t : Static}, ExprCode C live pc σ e code →
    Runs arity C.layout pc code σ (t :: σ)

theorem emitArgs_runs (es : List TExpr) (hes : ∀ e ∈ es, OneEntry C arity live e) {pc : ℕ} {σ : List Static} {code : List Site}
    (h : ArgsCode C live pc σ es code) : Runs arity C.layout pc code σ (pushTypes es σ) := by
  induction es generalizing pc σ code with
  | nil =>
    obtain rfl := h.nil
    exact .nil
  | cons e es ih =>
    obtain ⟨c, cs, hc, hcs, rfl⟩ := h.cons
    exact (hes e List.mem_cons_self hc).append (ih (fun e he => hes e (List.mem_cons_of_mem _ he)) hcs)

theorem emitPayload_runs (es : List TExpr) (flds : List StructField) (hes : ∀ e ∈ es, OneEntry C arity live e) {pc : ℕ}
    {σ : List Static} {info : VariantInfo} {stored : List ℕ} {code : List Site} {a b : Static}
    (h : PayloadCode C live pc σ info stored es flds code) : Runs arity C.layout pc code (a :: σ) (b :: σ) := by
  induction es generalizing flds pc stored code a with
  | nil =>
    obtain rfl := h.nil (Or.inl rfl)
    exact .nil
  | cons e es ih =>
    cases flds with
    | nil =>
      obtain rfl := h.nil (Or.inr rfl)
      exact .nil
    | cons fld flds =>
      obtain ⟨obj, c, cs, hc, hcs, rfl⟩ := h.cons
      exact storeInto_runs (hes e List.mem_cons_self hc) (ih flds (fun e he => hes e (List.mem_cons_of_mem _ he)) hcs) rfl rfl

def TInit.value : TInit → TExpr
  | .mk _ _ value => value

theorem emitInits_runs (inits : List TInit) (hes : ∀ i ∈ inits, OneEntry C arity live i.value) {pc : ℕ} {σ : List Static}
    {info : StructInfo} {stored : List ℕ} {code : List Site} {a b : Static}
    (h : InitsCode C live pc σ info stored inits code) : Runs arity C.layout pc code (a :: σ) (b :: σ) := by
  induction inits generalizing pc stored code a with
  | nil =>
    obtain rfl := h.nil
    exact .nil
  | cons i inits ih =>
    obtain ⟨pos, name, value⟩ := i
    obtain ⟨fld, obj, c, cs, hc, hcs, rfl⟩ := h.cons
    exact storeInto_runs (hes _ List.mem_cons_self hc) (ih (fun e he => hes e (List.mem_cons_of_mem _ he)) hcs) rfl rfl

theorem oneEntry_binary {pos : Pos} {left right : TExpr} {o : BinaryOp} {type : Ty} (hl : OneEntry C arity live left)
    (hr : OneEntry C arity live right) : OneEntry C arity live (.binary pos left o right type) := by
  intro pc σ code t h
  by_cases hland : o = .land
  · subst hland
    obtain ⟨l, r, hlc, hrc, rfl⟩ := h.land
    exact Runs.shortCircuit (fun n => Or.inl rfl) (hl hlc) (hr hrc) rfl rfl
  by_cases hlor : o = .lor
  · subst hlor
    obtain ⟨l, r, hlc, hrc, rfl⟩ := h.lor
    exact Runs.shortCircuit (fun n => Or.inr rfl) (hl hlc) (hr hrc) rfl rfl
  obtain ⟨l, r, hlc, hrc, rfl⟩ := h.binary hland hlor
  exact ((hl hlc).append (hr hrc)).append (binarySites_runs hland hlor)

theorem oneEntry_index {pos : Pos} {array index : TExpr} {type : Ty} (ha : OneEntry C arity live array)
    (hi : OneEntry C arity live index) : OneEntry C arity live (.index pos array index type) := by
  intro pc σ code t h
  rcases h.index with ⟨a, i, hac, hic, rfl⟩ | ⟨sym, slot, length, i, hs, hic, rfl⟩
  · exact ((ha hac).append (hi hic)).append (Flows.takesTwo rfl rfl rfl)
  · exact (hi hic).append (Runs.checked hs (Or.inl ⟨rfl, rfl⟩) .nil rfl)

/-- A function value is called with as many arguments as its type has parameters. -/
theorem oneEntry_callField {pos : Pos} {receiver : TExpr} {args : List TExpr} {type ret : Ty} {params : List Ty}
    (hty : receiver.type = .func params ret) (hn : args.length = params.length) (hr : OneEntry C arity live receiver)
    (hes : ∀ e ∈ args, OneEntry C arity live e) : OneEntry C arity live (.callField pos receiver args type) := by
  intro pc σ code t h
  obtain ⟨as, r, has, hrc, rfl⟩ := h.callField
  have hargs := (emitArgs_runs args hes has).append (hr (t := .val receiver.type) hrc)
  rw [hty] at hargs ⊢
  exact hargs.append (Runs.callIndirect (by rw [length_pushTypes, hn]))

theorem oneEntry_callLocal {pos : Pos} {sym : Symbol} {args : List TExpr} {type ret : Ty} {params : List Ty}
    (hty : sym.type = .func params ret) (hn : args.length = params.length)
    (hes : ∀ e ∈ args, OneEntry C arity live e) : OneEntry C arity live (.callLocal pos sym args type) := by
  intro pc σ code t h
  obtain ⟨as, k, has, rfl⟩ := h.callLocal
  have hcall : Runs arity C.layout (pc + as.length + 1)
      [op .callIndirect (.val sym.type :: pushTypes args σ) live] (.val sym.type :: pushTypes args σ) (t :: σ) := by
    rw [hty]
    exact Runs.callIndirect (by rw [length_pushTypes, hn])
  exact (emitArgs_runs args hes has).append (Runs.cons (Flows.pushes rfl rfl rfl) hcall)

/-- The builtins with code of their own take as many arguments as that code expects; any other callee is a
    builtin or a function of the program. -/
theorem oneEntry_call (hA : ∀ n sig i, G.sig? n = some sig → funcIndex C n = some i → arity i = sig.params.length)
    {pos : Pos} {callee : String} {target : TypeName} {args : List TExpr} {type : Ty}
    (hcall : CallOk G callee target args type) (hes : ∀ e ∈ args, OneEntry C arity live e) :
    OneEntry C arity live (.call pos callee target args type) := by
  intro pc σ code t h
  cases hcall with
  | push ht hlt hvt =>
    obtain ⟨sym, slot, n, l, v, hs, hl, hv, rfl⟩ := h.arrayPush
    exact arrayPush_runs hs (hes _ (by simp) hl) (hes _ (by simp) hv)
  | pop ht hlt =>
    obtain ⟨sym, slot, n, l, hs, hl, rfl⟩ := h.arrayPop
    exact arrayPop_runs hs (hes _ (by simp) hl)
  | new hlt =>
    obtain ⟨l, b, hl, rfl⟩ := h.arrayNew
    exact (hes _ (by simp) hl).append (Flows.takesOne rfl rfl rfl)
  | len ha =>
    obtain ⟨as, has, ⟨instrs, hi, rfl⟩ | ⟨hi, -⟩⟩ := h.call (by decide)
    · exact (emitArgs_runs _ hes has).append (builtinSites_runs _ hi)
    · cases hi
  | builtin hc hs hn hf =>
    rename_i sig
    by_cases hct : callee = "ct_select"
    · subst hct
      have hthree : ∀ sig ∈ getBuiltins, sig.name = .named "ct_select" → sig.params.length = 3 := by decide
      obtain ⟨mask, x, y, rfl⟩ := List.length_eq_three.mp (hf.length_eq.trans (hthree sig hs hn))
      obtain ⟨a, b, m, c, ha, hb, hm, hc, rfl⟩ := h.ctSelect
      have hx : OneEntry C arity live x := hes x (by simp)
      have hy : OneEntry C arity live y := hes y (by simp)
      have hmask : OneEntry C arity live mask := hes mask (by simp)
      exact ctSelect_runs (hx ha) (hy hb) (hmask hm) (hy hc) rfl rfl
    · have hlow : callee ∉ loweredBuiltins := by
        simp only [arrayBuiltins, loweredBuiltins, List.mem_cons, List.not_mem_nil] at hc ⊢
        tauto
      obtain ⟨instrs, hi⟩ := builtinOps_builtin hs hn hlow
      rw [← hf.length_eq] at hi
      obtain ⟨as, has, ⟨instrs, hi, rfl⟩ | ⟨hnone, -⟩⟩ := h.call hlow
      · exact (emitArgs_runs args hes has).append (builtinSites_runs callee hi)
      · rw [hi] at hnone
        cases hnone
  | function hc hb ht hs hf =>
    have hlow : callee ∉ loweredBuiltins := by
      have hall : ∀ c ∈ loweredBuiltins, ∃ b ∈ getBuiltins, b.name = .named c := by decide
      intro hm
      obtain ⟨b, hbm, hbn⟩ := hall callee hm
      exact hb b hbm hbn
    obtain ⟨as, has, ⟨instrs, hi, rfl⟩ | ⟨-, i, hi, rfl⟩⟩ := h.call hlow
    · rw [builtinOps_function hb] at hi
      cases hi
    · apply (emitArgs_runs args hes has).append
      apply Runs.call
      rw [length_pushTypes, hf.length_eq, hA target _ i hs hi]

variable (hA : ∀ n sig i, G.sig? n = some sig → funcIndex C n = some i → arity i = sig.params.length)

include hA

set_option linter.unusedSectionVars false

mutual
/-- The code of an expression leaves one entry on the stack it starts on. -/
theorem emitExpr_runs : ∀ e : TExpr, ExprOk G live e → OneEntry C arity live e
  | .literal pos value, _ => by
    intro h
    obtain ⟨i, ⟨hi, hp, hq⟩, rfl⟩ := h.literal
    exact Flows.pushes hi hp hq
  | .funcRef pos name type, _ => by
    intro h
    obtain ⟨i, ⟨hi, hp, hq⟩, rfl⟩ := h.funcRef
    exact Flows.pushes hi hp hq
  | .variant pos info args, hok => by
    intro h
    rcases h.variant with rfl | ⟨rest, hrest, rfl⟩
    · exact Flows.pushes rfl rfl rfl
    · exact Runs.cons (Flows.pushes (a := .val .int) rfl rfl rfl) (emitPayload_runs args info.fields (exprs_run args hok.2.2) hrest)
  | .local pos sym, _ => by
    intro h
    obtain ⟨i, ⟨hi, hp, hq⟩, rfl⟩ := h.local
    exact Flows.pushes hi hp hq
  | .addressOfVar pos sym, _ => by
    intro h
    obtain ⟨slot, -, rfl⟩ := h.addressOfVar
    exact Flows.addressOf
  | .addressOfElem pos array index, hok => by
    intro h
    obtain ⟨sym, slot, length, i, hs, hi, rfl⟩ := h.addressOfElem
    exact (emitExpr_runs index hok.2.2.2 hi).append (Runs.address hs)
  | .unary pos o right type, hok => by
    intro h
    obtain ⟨r, i, hr, ⟨hi, hp, hq⟩, rfl⟩ := h.unary
    exact (emitExpr_runs right hok.2 hr).append (Flows.takesOne hi hp hq)
  | .binary pos left o right type, hok =>
    oneEntry_binary (emitExpr_runs left hok.2.1) (emitExpr_runs right hok.2.2)
  | .index pos array index type, hok => oneEntry_index (emitExpr_runs array hok.2.1) (emitExpr_runs index hok.2.2)
  | .field pos obj field type, hok => by
    intro h
    obtain ⟨fld, o, ho, rfl⟩ := h.field
    exact (emitExpr_runs obj hok.2 ho).append loadField_runs
  | .structLit pos name inits, hok => by
    intro h
    obtain ⟨info', -, hinits, -⟩ := hok
    obtain ⟨info, rest, hrest, rfl⟩ := h.structLit
    exact Runs.cons (Flows.pushes (a := .val .int) rfl rfl rfl) (emitInits_runs inits (inits_run inits hinits) hrest)
  | .callField pos receiver args type, hok => by
    obtain ⟨params, hty, hfit, hrec, hes⟩ := hok
    exact oneEntry_callField hty hfit.length_eq (emitExpr_runs receiver hrec) (exprs_run args hes)
  | .callLocal pos sym args type, hok => by
    obtain ⟨params, hty, -, hfit, hes⟩ := hok
    exact oneEntry_callLocal hty hfit.length_eq (exprs_run args hes)
  | .call pos callee target args type, hok => oneEntry_call hA hok.1 (exprs_run args hok.2)

theorem exprs_run : ∀ es : List TExpr, ExprsOk G live es → ∀ e ∈ es, OneEntry C arity live e
  | [], _ => by simp
  | e :: es, hok => List.forall_mem_cons.mpr ⟨emitExpr_runs e hok.1, exprs_run es hok.2⟩

theorem inits_run : ∀ (inits : List TInit) {info : StructInfo}, InitsOk G live info inits →
    ∀ i ∈ inits, OneEntry C arity live i.value
  | [], _, _ => by simp
  | .mk pos name value :: inits, _, hok => List.forall_mem_cons.mpr ⟨emitExpr_runs value hok.2.1, inits_run inits hok.2.2⟩
end

end Expressions

end QuinLang
