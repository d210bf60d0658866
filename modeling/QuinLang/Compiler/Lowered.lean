import QuinLang.Compiler.StatementFlow

/-! Every statement of a function's body, however deep it stands, has its own stretch of
the function's code. -/

namespace QuinLang

open StateExcept

/-- The instructions of `part` stand in `code` from position `d` on. -/
def InCode (part : List Site) (d : ℕ) (code : List Site) : Prop :=
  ∀ k site i, part[k]? = some site → site.emitted = .instr i → ∃ site', code[d + k]? = some site' ∧ site'.emitted = .instr i

namespace InCode

variable {part code code' : List Site} {d d' : ℕ}

theorem refl : InCode code 0 code := fun k site i hk hi => ⟨site, by rwa [Nat.zero_add], hi⟩

theorem trans (h : InCode part d code) (h' : InCode code d' code') : InCode part (d' + d) code' := by
  intro k site i hk hi
  obtain ⟨site₁, h₁, hi₁⟩ := h k site i hk hi
  rw [Nat.add_assoc]
  exact h' (d + k) site₁ i h₁ hi₁

theorem append_left (rest : List Site) : InCode code 0 (code ++ rest) := by
  intro k site i hk hi
  exact ⟨site, by rwa [Nat.zero_add, List.getElem?_append_left (List.getElem?_eq_some_iff.mp hk).1], hi⟩

theorem append_right (before : List Site) : InCode code before.length (before ++ code) := by
  intro k site i hk hi
  exact ⟨site, by rwa [List.getElem?_append_right (Nat.le_add_right _ _), Nat.add_sub_cancel_left], hi⟩

theorem cons (s : Site) : InCode code 1 (s :: code) := append_right [s]

theorem map {f : Site → Site} (hf : ∀ site i, site.emitted = .instr i → (f site).emitted = .instr i) :
    InCode code 0 (code.map f) := by
  intro k site i hk hi
  exact ⟨f site, by rw [Nat.zero_add, List.getElem?_map, hk]; rfl, hf site i hi⟩

end InCode

theorem Site.patchLoop_instr {breakPc continuePc : ℕ} (site : Site) (i : Instruction) (h : site.emitted = .instr i) :
    (site.patchLoop breakPc continuePc).emitted = .instr i := by
  rw [Site.patchLoop, h]
  exact h

theorem Site.patchEnd_instr {endPc : ℕ} (site : Site) (i : Instruction) (h : site.emitted = .instr i) :
    (site.patchEnd endPc).emitted = .instr i := by
  rw [Site.patchEnd, h]
  exact h

mutual
/-- A statement and those inside it; of a match, the arms that are lowered. -/
def TStmt.parts : TStmt → List TStmt
  | .if_ pos cond thenBlock elseBlock => .if_ pos cond thenBlock elseBlock :: (thenBlock.parts ++ elseBlock.parts)
  | .while_ pos cond body => .while_ pos cond body :: body.parts
  | .for_ pos none cond step body refs => .for_ pos none cond step body refs :: body.parts
  | .for_ pos (some init) cond step body refs => .for_ pos (some init) cond step body refs :: (init.parts ++ body.parts)
  | .match_ pos subject arms => .match_ pos subject arms :: (namedParts arms ++ catchAllParts arms)
  | .block pos body => .block pos body :: body.parts
  | st => [st]

def stmtsParts : List TStmt → List TStmt
  | [] => []
  | st :: sts => st.parts ++ stmtsParts sts

def TBlock.parts : TBlock → List TStmt
  | .mk stmts _ => stmtsParts stmts

def namedParts : List TArm → List TStmt
  | [] => []
  | .mk _ none _ _ :: arms => namedParts arms
  | .mk _ (some _) _ (.mk stmts _) :: arms => stmtsParts stmts ++ namedParts arms

def catchAllParts : List TArm → List TStmt
  | [] => []
  | .mk _ none _ (.mk stmts _) :: _ => stmtsParts stmts
  | .mk _ (some _) _ _ :: arms => catchAllParts arms
end

variable {C : GenContext}

/-- A statement was lowered, and its code is in that emitted for `pc`. -/
def Lowered (C : GenContext) (pc : ℕ) (code : List Site) (st : TStmt) : Prop :=
  ∃ loop live loc d s₁ c s₂, emitStmt C loop live loc (pc + d) st s₁ = .ok (c, s₂) ∧ InCode c d code

theorem Lowered.self {loop : Option LoopContext} {live : List Symbol} {loc : Option Pos} {pc : ℕ} {st : TStmt}
    {code : List Site} {s s' : GenState} (h : emitStmt C loop live loc pc st s = .ok (code, s')) : Lowered C pc code st :=
  ⟨loop, live, loc, 0, s, code, s', h, .refl⟩

theorem Lowered.mono {pc p d : ℕ} {part code : List Site} {st : TStmt} (h : Lowered C p part st) (hp : p = pc + d)
    (hin : InCode part d code) : Lowered C pc code st := by
  obtain ⟨loop, live, loc, d', s₁, c, s₂, hc, hd'⟩ := h
  refine ⟨loop, live, loc, d + d', s₁, c, s₂, ?_, hd'.trans hin⟩
  rwa [← Nat.add_assoc, ← hp]

/-- The body of a loop, wherever it stands in the code of the loop. -/
theorem emitLoop_lowered {live : List Symbol} {loc : Option Pos} {pc : ℕ} {cond : Option TExpr} {step : Option TSimple}
    {emitBody : ℕ → Gen (List Site)} {code : List Site} {s s' : GenState} {st : TStmt}
    (hbody : ∀ p c t t', emitBody p t = .ok (c, t') → Lowered C p c st)
    (h : emitLoop C live loc pc cond step emitBody s = .ok (code, s')) : Lowered C pc code st := by
  cases cond with
  | none =>
    obtain ⟨b, s₁, hb, h⟩ := bind_ok.mp h
    obtain ⟨stp, s₂, hst, h⟩ := bind_ok.mp h
    obtain ⟨rfl, -⟩ := Prod.mk.inj (pure_ok.mp h)
    rw [List.append_assoc]
    exact (hbody _ _ _ _ hb).mono rfl ((InCode.map Site.patchLoop_instr).trans (.append_left _))
  | some cond =>
    obtain ⟨c, s₀, hc, h⟩ := bind_ok.mp h
    obtain ⟨b, s₁, hb, h⟩ := bind_ok.mp h
    obtain ⟨stp, s₂, hst, h⟩ := bind_ok.mp h
    obtain ⟨rfl, -⟩ := Prod.mk.inj (pure_ok.mp h)
    refine (hbody _ _ _ _ hb).mono (d := c.length + 1) (by omega) ?_
    rw [List.append_assoc, List.append_assoc, List.cons_append]
    exact ((InCode.map Site.patchLoop_instr).trans (.append_left _)).trans ((InCode.cons _).trans (.append_right c))

section Pieces

variable {pc : ℕ} {c t e as rest : List Site} {live : List Symbol} {st : TStmt}

theorem lowered_append (h : Lowered C pc c st ∨ Lowered C (pc + c.length) rest st) : Lowered C pc (c ++ rest) st := by
  rcases h with h | h
  · exact h.mono (d := 0) rfl (.append_left rest)
  · exact h.mono rfl (.append_right c)

theorem lowered_if {p q : Site} (h : Lowered C (pc + c.length + 1) t st ∨ Lowered C (pc + c.length + 1 + t.length + 1) e st) :
    Lowered C pc (c ++ p :: t ++ q :: e) st := by
  rcases h with h | h
  · refine h.mono (d := c.length + 1) (by omega) ?_
    rw [List.append_assoc, List.cons_append]
    exact (InCode.append_left _).trans ((InCode.cons _).trans (.append_right c))
  · refine h.mono (d := (c ++ p :: t).length + 1) (by simp; omega) ?_
    exact (InCode.cons _).trans (.append_right _)

theorem lowered_while {p : Site} {q : List Site} {endPc : ℕ} (h : Lowered C (pc + c.length + 1) t st) :
    Lowered C pc (c ++ p :: t.map (Site.patchLoop endPc pc) ++ q) st := by
  refine h.mono (d := c.length + 1) (by omega) ?_
  rw [List.append_assoc, List.cons_append]
  exact ((InCode.map Site.patchLoop_instr).trans (.append_left _)).trans ((InCode.cons _).trans (.append_right c))

theorem lowered_match {p q p' q' : Site} {endPc : ℕ}
    (h : Lowered C (pc + c.length + 2) as st ∨ Lowered C (pc + c.length + 2 + as.length + 2) rest st) :
    Lowered C pc (c ++ p :: q :: as.map (Site.patchEnd endPc) ++ p' :: q' :: rest) st := by
  rcases h with h | h
  · refine h.mono (d := c.length + 2) (by omega) ?_
    rw [List.append_assoc, List.cons_append, List.cons_append]
    exact ((InCode.map Site.patchEnd_instr).trans (.append_left _)).trans
      ((InCode.cons _).trans ((InCode.cons _).trans (.append_right c)))
  · refine h.mono (d := (c ++ p :: q :: as.map (Site.patchEnd endPc)).length + 2) (by simp; omega) ?_
    exact (InCode.cons _).trans ((InCode.cons _).trans (.append_right _))

theorem lowered_arm {pre release : List Site} {p q : Site}
    (h : Lowered C (pc + pre.length + 1) t st ∨ Lowered C (pc + pre.length + 1 + t.length + release.length + 1) rest st) :
    Lowered C pc (pre ++ p :: t ++ release ++ q :: rest) st := by
  rcases h with h | h
  · refine h.mono (d := pre.length + 1) (by omega) ?_
    rw [List.append_assoc, List.append_assoc, List.cons_append]
    exact (InCode.append_left _).trans ((InCode.cons _).trans (.append_right pre))
  · refine h.mono (d := (pre ++ p :: t ++ release).length + 1) (by simp; omega) ?_
    exact (InCode.cons _).trans (.append_right _)

end Pieces

mutual
theorem emitStmt_lowered : ∀ (st : TStmt) {loop : Option LoopContext} {live : List Symbol} {loc : Option Pos} {pc : ℕ}
    {code : List Site} {s s' : GenState}, emitStmt C loop live loc pc st s = .ok (code, s') →
      ∀ p ∈ st.parts, Lowered C pc code p
  | .simple st, loop, live, loc, pc, code, s, s', h, p, hp => by
    obtain rfl := List.mem_singleton.mp hp
    exact .self h
  | .varDecl pos sym init, loop, live, loc, pc, code, s, s', h, p, hp => by
    obtain rfl := List.mem_singleton.mp hp
    exact .self h
  | .print pos value, loop, live, loc, pc, code, s, s', h, p, hp => by
    obtain rfl := List.mem_singleton.mp hp
    exact .self h
  | .println pos value, loop, live, loc, pc, code, s, s', h, p, hp => by
    obtain rfl := List.mem_singleton.mp hp
    exact .self h
  | .return_ pos value, loop, live, loc, pc, code, s, s', h, p, hp => by
    obtain rfl := List.mem_singleton.mp hp
    exact .self h
  | .vmAsm pos text visible, loop, live, loc, pc, code, s, s', h, p, hp => by
    obtain rfl := List.mem_singleton.mp hp
    exact .self h
  | .break_ pos, loop, live, loc, pc, code, s, s', h, p, hp => by
    obtain rfl := List.mem_singleton.mp hp
    exact .self h
  | .continue_ pos, loop, live, loc, pc, code, s, s', h, p, hp => by
    obtain rfl := List.mem_singleton.mp hp
    exact .self h
  | .block pos body, loop, live, loc, pc, code, s, s', h, p, hp => by
    rcases List.mem_cons.mp hp with rfl | hp
    · exact .self h
    simp only [emitStmt] at h
    obtain ⟨loc, s₁, s₂, h⟩ := located_ok h
    exact emitBlock_lowered body h p hp
  | .if_ pos cond thenBlock elseBlock, loop, live, loc, pc, code, s, s', h, p, hp => by
    rcases List.mem_cons.mp hp with rfl | hp
    · exact .self h
    simp only [emitStmt] at h
    obtain ⟨loc, s₁, s₂, h⟩ := located_ok h
    obtain ⟨c, s₃, -, h⟩ := bind_ok.mp h
    obtain ⟨t, s₄, ht, h⟩ := bind_ok.mp h
    obtain ⟨e, s₅, he, h⟩ := bind_ok.mp h
    obtain ⟨rfl, -⟩ := Prod.mk.inj (pure_ok.mp h)
    exact lowered_if ((List.mem_append.mp hp).imp (emitBlock_lowered thenBlock ht p) (emitBlock_lowered elseBlock he p))
  | .while_ pos cond body, loop, live, loc, pc, code, s, s', h, p, hp => by
    rcases List.mem_cons.mp hp with rfl | hp
    · exact .self h
    simp only [emitStmt] at h
    obtain ⟨loc, s₁, s₂, h⟩ := located_ok h
    obtain ⟨c, s₃, -, h⟩ := bind_ok.mp h
    obtain ⟨b, s₄, hb, h⟩ := bind_ok.mp h
    obtain ⟨rfl, -⟩ := Prod.mk.inj (pure_ok.mp h)
    exact lowered_while (emitBlock_lowered body hb p hp)
  | .for_ pos none cond step body refs, loop, live, loc, pc, code, s, s', h, p, hp => by
    rcases List.mem_cons.mp hp with rfl | hp
    · exact .self h
    simp only [emitStmt] at h
    obtain ⟨loc, s₁, s₂, h⟩ := located_ok h
    exact emitLoop_lowered (fun _ _ _ _ hb => emitBlock_lowered body hb p hp) h
  | .for_ pos (some init) cond step body refs, loop, live, loc, pc, code, s, s', h, p, hp => by
    rcases List.mem_cons.mp hp with rfl | hp
    · exact .self h
    simp only [emitStmt] at h
    obtain ⟨loc, s₁, s₂, h⟩ := located_ok h
    obtain ⟨i, s₃, hi, h⟩ := bind_ok.mp h
    obtain ⟨l, s₄, hl, h⟩ := bind_ok.mp h
    obtain ⟨rfl, -⟩ := Prod.mk.inj (pure_ok.mp h)
    refine lowered_append (.inl (lowered_append ((List.mem_append.mp hp).imp (emitStmt_lowered init hi p) fun hp => ?_)))
    exact emitLoop_lowered (fun _ _ _ _ hb => emitBlock_lowered body hb p hp) hl
  | .match_ pos subject arms, loop, live, loc, pc, code, s, s', h, p, hp => by
    rcases List.mem_cons.mp hp with rfl | hp
    · exact .self h
    simp only [emitStmt] at h
    obtain ⟨loc, s₁, s₂, h⟩ := located_ok h
    obtain ⟨c, s₃, -, h⟩ := bind_ok.mp h
    obtain ⟨as, s₄, has, h⟩ := bind_ok.mp h
    obtain ⟨rest, s₅, hrest, h⟩ := bind_ok.mp h
    obtain ⟨rfl, -⟩ := Prod.mk.inj (pure_ok.mp h)
    exact lowered_match ((List.mem_append.mp hp).imp (emitArms_lowered arms has p) (emitCatchAll_lowered arms hrest p))

theorem emitStmts_lowered : ∀ (sts : List TStmt) {loop : Option LoopContext} {live : List Symbol} {loc : Option Pos}
    {pc : ℕ} {code : List Site} {s s' : GenState}, emitStmts C loop live loc pc sts s = .ok (code, s') →
      ∀ p ∈ stmtsParts sts, Lowered C pc code p
  | [], loop, live, loc, pc, code, s, s', _, p, hp => by cases hp
  | st :: sts, loop, live, loc, pc, code, s, s', h, p, hp => by
    simp only [emitStmts] at h
    obtain ⟨c, s₁, hc, h⟩ := bind_ok.mp h
    obtain ⟨cs, s₂, hcs, h⟩ := bind_ok.mp h
    obtain ⟨rfl, -⟩ := Prod.mk.inj (pure_ok.mp h)
    exact lowered_append ((List.mem_append.mp hp).imp (emitStmt_lowered st hc p) (emitStmts_lowered sts hcs p))

theorem emitBlock_lowered : ∀ (b : TBlock) {loop : Option LoopContext} {live : List Symbol} {loc : Option Pos} {pc : ℕ}
    {code : List Site} {s s' : GenState}, emitBlock C loop live loc pc b s = .ok (code, s') →
      ∀ p ∈ b.parts, Lowered C pc code p
  | .mk stmts refs, loop, live, loc, pc, code, s, s', h, p, hp => by
    simp only [emitBlock] at h
    obtain ⟨c, s₁, hc, h⟩ := bind_ok.mp h
    obtain ⟨rfl, -⟩ := Prod.mk.inj (pure_ok.mp h)
    exact lowered_append (.inl (emitStmts_lowered stmts hc p hp))

theorem emitArms_lowered : ∀ (arms : List TArm) {loop : Option LoopContext} {live : List Symbol} {loc : Option Pos}
    {subject : Ty} {pc : ℕ} {code : List Site} {s s' : GenState}, emitArms C loop live loc subject pc arms s = .ok (code, s') →
      ∀ p ∈ namedParts arms, Lowered C pc code p
  | [], loop, live, loc, subject, pc, code, s, s', _, p, hp => by cases hp
  | .mk _ none _ (.mk _ _) :: arms, loop, live, loc, subject, pc, code, s, s', h, p, hp => by
    simp only [emitArms] at h
    exact emitArms_lowered arms h p hp
  | .mk pos (some v) bindings (.mk stmts refs) :: arms, loop, live, loc, subject, pc, code, s, s', h, p, hp => by
    simp only [emitArms] at h
    obtain ⟨b, s₁, -, h⟩ := bind_ok.mp h
    obtain ⟨c, s₂, hc, h⟩ := bind_ok.mp h
    obtain ⟨rest, s₃, hrest, h⟩ := bind_ok.mp h
    obtain ⟨rfl, -⟩ := Prod.mk.inj (pure_ok.mp h)
    refine lowered_arm ((List.mem_append.mp hp).imp (fun hp => ?_) fun hp => ?_)
    · rw [List.length_append, ← Nat.add_assoc]
      exact emitStmts_lowered stmts hc p hp
    · rw [List.length_append, ← Nat.add_assoc]
      exact emitArms_lowered arms hrest p hp

theorem emitCatchAll_lowered : ∀ (arms : List TArm) {loop : Option LoopContext} {live : List Symbol} {loc : Option Pos}
    {pc : ℕ} {code : List Site} {s s' : GenState}, emitCatchAll C loop live loc pc arms s = .ok (code, s') →
      ∀ p ∈ catchAllParts arms, Lowered C pc code p
  | [], loop, live, loc, pc, code, s, s', _, p, hp => by cases hp
  | .mk _ none _ (.mk stmts refs) :: arms, loop, live, loc, pc, code, s, s', h, p, hp => by
    simp only [emitCatchAll] at h
    obtain ⟨c, s₁, hc, h⟩ := bind_ok.mp h
    obtain ⟨rfl, -⟩ := Prod.mk.inj (pure_ok.mp h)
    exact lowered_append (.inl (emitStmts_lowered stmts hc p hp))
  | .mk _ (some _) _ (.mk _ _) :: arms, loop, live, loc, pc, code, s, s', h, p, hp => by
    simp only [emitCatchAll] at h
    exact emitCatchAll_lowered arms h p hp
end

end QuinLang
