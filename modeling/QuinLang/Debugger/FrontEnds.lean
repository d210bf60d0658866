import QuinLang.Debugger.Transparency

/-! What a front end can do to a run, whatever it does at its stops: inspections that raise,
quitting, and returning without choosing how to go on included. -/

namespace QuinLang.Debugger

section FrontEnds

variable {W σ : Type} {P : CompiledProgram} {F : FloatOps} {io : ProgramIO W} {sep : Char} {front : FrontEnd W σ}

/-- What the hook hands on is the machine it was given. -/
theorem onInstruction_same {pause : Bool} {memory memory' : σ} {d d' : State} {s t : VM W}
    (h : (onInstruction P F sep front pause memory d s).2 = .ok (memory', d', t)) : t = s := by
  unfold onInstruction at h
  generalize d.stopAt P pause s = at' at h
  obtain ⟨_ | stop, d₁⟩ := at'
  · cases h
    rfl
  · exact Stopped.run_unchanged h

/-- The hook gives a run up only at a stop. -/
theorem onInstruction_gives_up {pause : Bool} {memory : σ} {d : State} {s : VM W} {why : Abort}
    (h : (onInstruction P F sep front pause memory d s).2 = .error why) :
    ∃ here, (onInstruction P F sep front pause memory d s).1 = [here] ∧ here.run P F sep = .error why := by
  unfold onInstruction at h ⊢
  generalize d.stopAt P pause s = at' at h ⊢
  obtain ⟨_ | stop, d₁⟩ := at'
  · cases h
  · exact ⟨_, rfl, h⟩

/-- The hook stops at most once, at the machine it was given. -/
theorem onInstruction_stops {pause : Bool} {memory : σ} {d : State} {s : VM W} :
    ((onInstruction P F sep front pause memory d s).1.map Stopped.vm).Sublist [s] := by
  unfold onInstruction
  generalize d.stopAt P pause s = at'
  obtain ⟨_ | stop, d₁⟩ := at'
  · exact List.nil_sublist _
  · exact List.Sublist.refl _

/-- The front end gave the run up at its last stop. -/
def Log.GivenUp (P : CompiledProgram) (F : FloatOps) (sep : Char) (log : Log W σ) : Prop :=
  ∃ why here, log.ending = .abandoned why ∧ log.stops.getLast? = some here ∧ here.run P F sep = .error why

theorem faultStop_cut (e : Fault) (left : VM W) (memory : σ) (d : State) :
    (faultStop P F sep front e left memory d).ending = .faulted e ∨
      (faultStop P F sep front e left memory d).GivenUp P F sep := by
  cases e with
  | host exception => exact .inl rfl
  | vmError message =>
    unfold faultStop
    dsimp only
    generalize stopped front memory d left { reason := .fault, frame := innermost P left, error := some message } = last
    cases hr : last.run P F sep with
    | ok r => exact .inl rfl
    | error why => exact .inr ⟨why, last, rfl, rfl, hr⟩

theorem faultStop_stops (e : Fault) (left : VM W) (memory : σ) (d : State) :
    ((faultStop P F sep front e left memory d).stops.map Stopped.vm).Sublist [left] := by
  cases e with
  | host exception => exact List.nil_sublist _
  | vmError message =>
    unfold faultStop
    dsimp only
    split <;> exact List.Sublist.refl _

theorem Log.GivenUp.after {log : Log W σ} (h : log.GivenUp P F sep) (visited : List (VM W)) (stops : List (Stopped W σ)) :
    Log.GivenUp P F sep { visited := visited, stops := stops ++ log.stops, ending := log.ending } := by
  obtain ⟨why, here, hending, hlast, hrun⟩ := h
  exact ⟨why, here, hending, by rw [List.getLast?_append, hlast]; rfl, hrun⟩

/-- The machine left behind where the run visited all of the plain one, and that faulted. -/
def leftBehind (left : VM W → VM W) (visited : List (VM W)) (plain : List (VM W) × Ending W) : List (VM W) :=
  match plain.2 with
  | .faulted (.vmError _) => if visited.length = plain.1.length then (visited.getLast?.map left).toList else []
  | _ => []

theorem leftBehind_cons {left : VM W → VM W} {s : VM W} {visited : List (VM W)} {plain : List (VM W) × Ending W} :
    (visited ++ leftBehind left visited plain).Sublist (visited ++ leftBehind left (s :: visited) (s :: plain.1, plain.2)) := by
  obtain ⟨states, ending⟩ := plain
  cases ending with
  | running | exited | abandoned => exact List.Sublist.refl _
  | faulted e =>
    cases e with
    | host exception => exact List.Sublist.refl _
    | vmError message =>
      simp only [leftBehind, List.length_cons, Nat.add_right_cancel_iff]
      cases visited with
      | nil => split <;> exact List.nil_sublist _
      | cons t visited => exact List.Sublist.refl _

/-- What a debugged run comes to beside the plain one: the same states as far as it goes, a
stop at most before each, and one more where the run faulted. -/
structure Cut (P : CompiledProgram) (F : FloatOps) (sep : Char) (left : VM W → VM W) (log : Log W σ)
    (plain : List (VM W) × Ending W) : Prop where
  visited : log.visited <+: plain.1
  stops : (log.stops.map Stopped.vm).Sublist (log.visited ++ leftBehind left log.visited plain)
  ending : log.visited = plain.1 ∧ log.ending = plain.2 ∨ log.GivenUp P F sep

/-- The loop under any front end is the plain loop, as far as the front end lets it go. -/
theorem debugLoop_cut {pauses : ℕ → Bool} {left : VM W → VM W} (n : ℕ) {k : ℕ} {memory : σ} {d : State} {s : VM W} :
    Cut P F sep left (debugLoop P F io sep front pauses left n k memory d s) (plainLoop P F io n s) := by
  induction n generalizing k memory d s with
  | zero => exact ⟨List.prefix_rfl, List.nil_sublist _, .inl ⟨rfl, rfl⟩⟩
  | succ n ih =>
    rw [debugLoop]
    set hook := if s.pc < P.code.length then onInstruction P F sep front (pauses k) memory d s
      else ([], .ok (memory, d, s)) with hhook
    have hat : (hook.1.map Stopped.vm).Sublist [s] := by
      rw [hhook]
      split
      · exact onInstruction_stops
      · exact List.nil_sublist _
    dsimp only
    cases hback : hook.2 with
    | error why =>
      -- given up before the instruction
      have hfirst : [s] <+: (plainLoop P F io (n + 1) s).1 := by
        rw [plainLoop]
        split
        · exact List.prefix_rfl
        · exact List.prefix_rfl
        · exact List.prefix_append [s] _
      refine ⟨hfirst, hat.trans (List.sublist_append_left _ _), .inr ?_⟩
      rw [hhook] at hback ⊢
      split at hback
      · rename_i hpc
        obtain ⟨here, hstops, hrun⟩ := onInstruction_gives_up hback
        refine ⟨why, here, rfl, ?_, hrun⟩
        simp only [if_pos hpc, hstops]
        rfl
      · cases hback
    | ok r =>
      obtain ⟨memory', d', t⟩ := r
      obtain rfl : t = s := by
        rw [hhook] at hback
        split at hback
        · exact onInstruction_same hback
        · cases hback
          rfl
      rw [plainLoop]
      dsimp only
      cases hstep : t.step P F io with
      | error e =>
        refine ⟨List.prefix_rfl, ?_, ?_⟩
        · rw [List.map_append]
          refine hat.append ?_
          cases e with
          | host exception => exact List.nil_sublist _
          | vmError message => exact faultStop_stops _ (left t) memory' d'
        · rcases @faultStop_cut W σ P F sep front e (left t) memory' d' with hf | hg
          · exact .inl ⟨rfl, hf⟩
          · exact .inr (hg.after [t] hook.1)
      | ok progress =>
        cases progress with
        | exited code s' => exact ⟨List.prefix_rfl, hat.trans (List.sublist_append_left _ _), .inl ⟨rfl, rfl⟩⟩
        | running s' =>
          have h := @ih (k + 1) memory' d' s'
          refine ⟨(List.prefix_cons_inj _).mpr h.visited, ?_, ?_⟩
          · rw [List.map_append]
            exact hat.append (h.stops.trans leftBehind_cons)
          · rcases h.ending with ⟨hv, he⟩ | hg
            · exact .inl ⟨congrArg (t :: ·) hv, he⟩
            · exact .inr (hg.after _ hook.1)

/-- A front end can cut a run short at a stop and nothing else. -/
theorem debugging_cuts (front : FrontEnd W σ) (pauses : ℕ → Bool) (left : VM W → VM W) (args : List String) (w : W)
    (memory : σ) (d : State) (n : ℕ) {s : VM W} (hs : VM.start P args w = .ok s) :
    Cut P F sep left (debugRun P F io sep front pauses left args w memory d n) (plainRun P F io args w n) := by
  obtain ⟨hvisited, hstops, hending⟩ := @debugLoop_cut W σ P F io sep front pauses left n 0 memory d s
  rw [debugRun, plainRun, hs]
  refine ⟨?_, ?_, ?_⟩
  · rwa [Log.unhooked_visited]
  · rwa [Log.unhooked_visited, Log.unhooked_stops]
  · rw [Log.GivenUp, Log.unhooked_visited, Log.unhooked_stops, Log.unhooked_ending]
    exact hending

end FrontEnds

def quitter : FrontEnd (List String) Unit := fun _ _ _ _ => .quit

theorem greeting_cut : ∃ s, VM.start greeting [] ([] : List String) = .ok s ∧
    (debugRun greeting zeroFloats transcript '/' quitter (fun _ => false) id [] [] () {} 10).visited.length = 1 ∧
    Cut greeting zeroFloats '/' id (debugRun greeting zeroFloats transcript '/' quitter (fun _ => false) id [] [] () {} 10)
      (plainRun greeting zeroFloats transcript [] [] 10) := by
  have hs : VM.start greeting [] ([] : List String) = .ok _ := rfl
  exact ⟨_, hs, rfl, debugging_cuts quitter (fun _ => false) id [] [] () {} 10 hs⟩

end QuinLang.Debugger
