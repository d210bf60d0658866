import QuinLang.Debugger.Constructs
import QuinLang.Debugger.FrontEnds

/-! A breakpoint on a line stops the run wherever control begins a construct of the line. -/

namespace QuinLang.Debugger

section Runs

variable {W σ : Type}

/-- The loop with the hook set, at a turn: what the front end remembers, the debugger, the
machine with its activations, and the turns before, the last one first. -/
structure Hooked (W σ : Type) where
  memory : σ
  debugger : State
  here : Followed W
  past : List (Followed W) := []

variable (g : Generated) (F : FloatOps) (io : ProgramIO W) (sep : Char) (front : FrontEnd W σ) (pauses : ℕ → Bool)

/-- One turn of `debugLoop`, unless the run ends there. -/
def Hooked.step (c : Hooked W σ) : Option (Hooked W σ) :=
  match (if c.here.vm.pc < g.program.code.length then onInstruction g.program F sep front (pauses c.past.length) c.memory c.debugger c.here.vm
      else ([], .ok (c.memory, c.debugger, c.here.vm))).2 with
  | .error _ => none
  | .ok (memory, d, t) => (Followed.step g.program F io { c.here with vm := t }).map fun y => ⟨memory, d, y, c.here :: c.past⟩

def Hooked.turns : ℕ → Hooked W σ → Option (Hooked W σ)
  | 0, c => some c
  | n + 1, c => (c.step g F io sep front pauses).bind (turns n)

/-- The hook stops the run before the instruction. -/
def Hooked.Stops (c : Hooked W σ) : Prop :=
  c.here.vm.pc < g.program.code.length ∧ ((c.debugger.stopAt g.program (pauses c.past.length) c.here.vm).1.isSome = true)

/-- The construct that control began last is on another line or of another activation. -/
def Hooked.FromElsewhere (path : String) (line : ℕ) (c : Hooked W σ) : Prop :=
  LastAway g path line c.past c.here.live.head?

instance (path : String) (line : ℕ) (c : Hooked W σ) : Decidable (c.FromElsewhere g path line) :=
  inferInstanceAs (Decidable (∀ x ∈ _, _))

/-- Control begins a construct of the line, and comes from elsewhere. -/
def Hooked.Enters (path : String) (line : ℕ) (c : Hooked W σ) : Prop :=
  (path, line) ∈ begun g c.here.vm.pc ∧ c.FromElsewhere g path line

/-- `break_at_line` puts the line's breakpoint at this pc, the line having code. -/
def LineAt (path : String) (line pc : ℕ) : Prop :=
  ∃ i, pcOnLine g.program (functionsInFile g.program sep path) line = some (i, pc)

/-- The breakpoint of the line is set and enabled. -/
def IsSet (path : String) (line : ℕ) (d : State) : Prop :=
  ∃ bp ∈ d.breakpoints, bp.enabled = true ∧ LineAt g sep path line bp.pc

/-- What `debugLoop` logs of `n` turns. -/
def Hooked.log (left : VM W → VM W) (n : ℕ) (start : Hooked W σ) : Log W σ :=
  debugLoop g.program F io sep front pauses left n start.past.length start.memory start.debugger start.here.vm

/-- Whenever control begins a construct of the line from elsewhere, the run stops before the
instruction: the turn that is to run it logs a stop at the machine as it is. -/
def Complete (path : String) (line : ℕ) (start : Hooked W σ) : Prop :=
  ∀ n c, start.turns g F io sep front pauses n = some c → IsSet g sep path line c.debugger → c.Enters g path line →
    c.Stops g pauses ∧ ∀ left, ∃ here later, here.vm = c.here.vm ∧
      (start.log g F io sep front pauses left (n + 1)).stops = (start.log g F io sep front pauses left n).stops ++ here :: later

variable {g F io sep front pauses}

/-- The turns are those of `debugLoop`. -/
theorem Hooked.log_turns {n : ℕ} {start c : Hooked W σ} (h : start.turns g F io sep front pauses n = some c) (left : VM W → VM W) :
    ∃ stops, ∀ m, (start.log g F io sep front pauses left (n + m)).stops = stops ++ (c.log g F io sep front pauses left m).stops := by
  induction n generalizing start with
  | zero =>
    cases h
    exact ⟨[], fun m => by rw [Nat.zero_add]; rfl⟩
  | succ n ih =>
    obtain ⟨next, hnext, h⟩ := Option.bind_eq_some_iff.mp h
    obtain ⟨stops, hstops⟩ := ih h
    unfold Hooked.step at hnext
    generalize hhook : (if start.here.vm.pc < g.program.code.length then
      onInstruction g.program F sep front (pauses start.past.length) start.memory start.debugger start.here.vm
      else ([], .ok (start.memory, start.debugger, start.here.vm))) = hook at hnext
    obtain ⟨made, result⟩ := hook
    cases result with
    | error why => cases hnext
    | ok r =>
      obtain ⟨memory, d, t⟩ := r
      obtain ⟨y, hy, rfl⟩ := Option.map_eq_some_iff.mp hnext
      obtain ⟨i, -, hstep, -⟩ := Debugger.step_inv hy
      refine ⟨made ++ stops, fun m => ?_⟩
      rw [Nat.add_right_comm, Hooked.log, debugLoop, List.append_assoc]
      simp only [hhook, hstep]
      exact congrArg (made ++ ·) (hstops m)

/-- A turn at which the hook stops logs a stop, and after it at most that of a fault. -/
theorem Hooked.Stops.logged {n : ℕ} {start c : Hooked W σ} (h : c.Stops g pauses) (hturns : start.turns g F io sep front pauses n = some c)
    (left : VM W → VM W) : ∃ here later, here.vm = c.here.vm ∧
      (start.log g F io sep front pauses left (n + 1)).stops = (start.log g F io sep front pauses left n).stops ++ here :: later := by
  obtain ⟨hcode, hstop⟩ := h
  obtain ⟨stops, hstops⟩ := Hooked.log_turns hturns left
  have hbefore : (start.log g F io sep front pauses left n).stops = stops := (hstops 0).trans (List.append_nil stops)
  obtain ⟨here, hhere, hmade⟩ : ∃ here : Stopped W σ, here.vm = c.here.vm ∧
      (onInstruction g.program F sep front (pauses c.past.length) c.memory c.debugger c.here.vm).1 = [here] := by
    unfold onInstruction
    generalize c.debugger.stopAt g.program (pauses c.past.length) c.here.vm = at' at hstop
    obtain ⟨_ | stop, d⟩ := at'
    · cases hstop
    · exact ⟨_, rfl, rfl⟩
  refine ⟨here, ?_⟩
  rw [hstops 1, hbefore, Hooked.log, debugLoop]
  simp only [if_pos hcode, hmade]
  split
  · exact ⟨[], hhere, rfl⟩
  · split
    · exact ⟨_, hhere, rfl⟩
    · exact ⟨[], hhere, rfl⟩
    · exact ⟨_, hhere, rfl⟩

/-- The line's breakpoint is at its first marker. -/
theorem LineAt.eq_first {path : String} {line pc pc' : ℕ} (h : LineAt g sep path line pc) (h' : FirstOnLine g path line sep pc') : pc = pc' := by
  obtain ⟨i, hi⟩ := h
  obtain ⟨hmem, hmarked, hleast⟩ := pcOnLine_eq_some (fun i hi => mem_functionsInFile hi) hi
  obtain ⟨j, hj, hmarked'⟩ := h'.marked
  exact le_antisymm (hleast j hj pc' hmarked') (h'.lowest i hmem pc hmarked)

theorem FirstOnLine.lineAt {path : String} {line pc : ℕ} (h : FirstOnLine g path line sep pc) : LineAt g sep path line pc := by
  obtain ⟨i, hi, hmarked⟩ := h.marked
  obtain ⟨⟨j, pc'⟩, hfound⟩ := pcOnLine_isSome hi hmarked
  have hat : LineAt g sep path line pc' := ⟨j, hfound⟩
  exact hat.eq_first h ▸ hat

/-- The hook stops at an enabled breakpoint. -/
theorem stopAt_enabled {P : CompiledProgram} {d : State} {s : VM W} {bp : Breakpoint} (hbp : bp ∈ d.breakpoints) (henabled : bp.enabled = true)
    (hpc : bp.pc = s.pc) (pause : Bool) : (d.stopAt P pause s).1.isSome = true := by
  unfold State.stopAt
  split_ifs with hpause
  · rfl
  · split
    · rfl
    · rename_i hnone
      exact absurd (List.find?_eq_none.mp hnone bp hbp) (by simp [hpc, henabled])

/-- A turn is one of the machine, which the hook leaves as it was. -/
theorem Hooked.step_inv {c c' : Hooked W σ} (h : c.step g F io sep front pauses = some c') :
    c.here.step g.program F io = some c'.here ∧ c'.past = c.here :: c.past := by
  unfold Hooked.step at h
  generalize hhook : (if c.here.vm.pc < g.program.code.length then
    onInstruction g.program F sep front (pauses c.past.length) c.memory c.debugger c.here.vm
    else ([], .ok (c.memory, c.debugger, c.here.vm))) = hook at h
  obtain ⟨made, result⟩ := hook
  cases result with
  | error why => cases h
  | ok r =>
    obtain ⟨memory, d, t⟩ := r
    obtain ⟨y, hy, rfl⟩ := Option.map_eq_some_iff.mp h
    have hsame : t = c.here.vm := by
      split at hhook
      · exact onInstruction_same (congrArg Prod.snd hhook)
      · cases hhook
        rfl
    subst hsame
    exact ⟨hy, rfl⟩

/-- Every turn of a run is on a way that control can take. -/
theorem Hooked.onWay {S : ℕ → Flow.Points Point} (hS : Covers g S) (hin : ∀ i p v, S i p v → StandsIn g.program i p) {path : String} {line n : ℕ}
    {start c : Hooked W σ} (htrack : OnTrack g S False start.here.vm) (hfits : start.here.Fits)
    (hway : OnWay g path line start.past start.here) (h : start.turns g F io sep front pauses n = some c) :
    c.here.Fits ∧ OnWay g path line c.past c.here := by
  induction n generalizing start with
  | zero =>
    cases h
    exact ⟨hfits, hway⟩
  | succ n ih =>
    obtain ⟨next, hnext, h⟩ := Option.bind_eq_some_iff.mp h
    obtain ⟨hstep, hpast⟩ := Hooked.step_inv hnext
    obtain ⟨-, hrunning⟩ := step_running hstep
    refine ih (htrack.step hS False.elim hrunning) (hfits.step hstep) ?_ h
    rw [hpast]
    exact hway.step hfits (htrack.occupied hin) hstep

/-- In every run of a compiled program the line's breakpoint stops control wherever it begins
a construct of the line from elsewhere, if all ways onto the line lead through its first
marker. -/
theorem breakpoints_complete {fuel : ℕ} {program : Program} {g : Generated} (h : compile fuel program = .ok g) (F : FloatOps)
    (io : ProgramIO W) (sep : Char) (front : FrontEnd W σ) (pauses : ℕ → Bool) {path : String} {line : ℕ} (hline : OneWayIn g path line sep)
    {args : List String} {w : W} {s : VM W} (hs : VM.start g.program args w = .ok s) (memory : σ) (d : State) :
    Complete g F io sep front pauses path line ⟨memory, d, ⟨s, [0], 1⟩, []⟩ := by
  obtain ⟨S, hS, hin⟩ := compile_occupied h
  intro n c hc hset henters
  obtain ⟨hbegun, hfrom⟩ := henters
  obtain ⟨hfits, hway⟩ := Hooked.onWay hS hin (.start hS hs) (start_fits hs) (.start hs) hc
  have hfirst := hline c.here.vm.pc (hway.comes hfits hfrom) hbegun
  obtain ⟨bp, hbp, henabled, hat⟩ := hset
  obtain ⟨i, -, hmarked⟩ := hfirst.marked
  have hstops : c.Stops g pauses :=
    ⟨hmarked.1.2.trans_le ((compile_laid h).range_le i), stopAt_enabled hbp henabled (hat.eq_first hfirst) _⟩
  exact ⟨hstops, hstops.logged hc⟩

end Runs

section Loops

/-- Goes on at every stop. -/
def goOn : FrontEnd (List String) Unit := fun _ _ _ _ => .command (.resume .run 0) fun _ => .returned ()

/-- A breakpoint alone, the program let run. -/
def letRun (pc line : ℕ) (s : VM (List String)) : Hooked (List String) Unit where
  memory := ()
  debugger := {
    breakpoints := [{ id := 1, pc := pc, function := "main", file := "/a.ql", line := line }]
    nextId := 2
    mode := some .run }
  here := ⟨s, [0], 1⟩

abbrev letTurns (g : Generated) (pc line n : ℕ) (s : VM (List String)) : Option (Hooked (List String) Unit) :=
  (letRun pc line s).turns g zeroFloats transcript '/' goOn (fun _ => false) n

theorem toOption_ok {ε α : Type} {x : Except ε α} {a : α} (h : x.toOption = some a) : x = .ok a := by
  cases x with
  | error e => cases h
  | ok b => exact congrArg Except.ok (Option.some.inj h)

/-- The code of a program that compiles, and where its run has come to. -/
theorem letTurns_facts {program : Program} {pc line n : ℕ} {Q : Generated → Prop} {P : Generated → Hooked (List String) Unit → Prop}
    [∀ g, Decidable (Q g)] [∀ g c, Decidable (P g c)]
    (h : (compile 1 program).toOption.bind (fun g => (VM.start g.program [] []).toOption.bind fun s =>
      (letTurns g pc line n s).map fun c => decide (Q g) && decide (P g c)) = some true) :
    ∃ g s c, compile 1 program = .ok g ∧ VM.start g.program [] [] = .ok s ∧ letTurns g pc line n s = some c ∧ Q g ∧ P g c := by
  obtain ⟨g, hg, h⟩ := Option.bind_eq_some_iff.mp h
  obtain ⟨s, hs, h⟩ := Option.bind_eq_some_iff.mp h
  obtain ⟨c, hc, h⟩ := Option.map_eq_some_iff.mp h
  obtain ⟨hcode, hrun⟩ := Bool.and_eq_true_iff.mp h
  exact ⟨g, s, c, toOption_ok hg, toOption_ok hs, hc, of_decide_eq_true hcode, of_decide_eq_true hrun⟩

/-- The last function has the rest of the code. -/
theorem occupies_last {P : CompiledProgram} {i pc : ℕ} (hsorted : (List.range P.functions.length).Pairwise fun i j => entryOf P i ≤ entryOf P j)
    (hlast : P.functions.length = i + 1) (hentry : entryOf P i ≤ pc) (hpc : pc < P.code.length) : Occupies P i pc := by
  unfold Occupies
  rw [functionRange_eq hsorted (by omega), if_neg (by omega)]
  exact ⟨hentry, hpc⟩

/-- The lone breakpoint is the one of the line. -/
theorem isSet_of_lone {g : Generated} {sep : Char} {path : String} {line pc : ℕ} (hat : LineAt g sep path line pc) {d : State}
    (h : d.breakpoints.map (fun bp => (bp.pc, bp.enabled)) = [(pc, true)]) : IsSet g sep path line d := by
  obtain ⟨bp, hbp, heq⟩ := List.mem_map.mp (h.symm ▸ List.mem_singleton.mpr rfl : (pc, true) ∈ d.breakpoints.map fun bp => (bp.pc, bp.enabled))
  obtain ⟨hpc, henabled⟩ := Prod.mk.inj heq
  exact ⟨bp, hbp, henabled, hpc ▸ hat⟩

/-- `fn tell(n: int) { println(n); }` on line 1 of `/a.ql`, and in `main`, from line 4 on,
`let i = 0;`, `while (i < 2) {`, `if (i < 1) { tell(i); }` and `i = i + 1;`, each on a line. -/
def tellingSource : Program where
  functions := [
    { name := "tell", params := [⟨"n", .named "int", ⟨1, 9⟩⟩], returnType := none, sourceFile := "/a.ql"
      body := [.println ⟨1, 20⟩ (.identifier ⟨1, 28⟩ (.plain "n"))] },
    { name := "main", params := [], returnType := none, sourceFile := "/a.ql"
      body := [
        .varDecl ⟨4, 3⟩ "i" none (some (.literal ⟨4, 11⟩ (.int 0))),
        .while_ ⟨5, 3⟩ (.binary ⟨5, 12⟩ (.identifier ⟨5, 10⟩ (.plain "i")) .lt (.literal ⟨5, 14⟩ (.int 2))) [
          .if_ ⟨6, 5⟩ (.binary ⟨6, 11⟩ (.identifier ⟨6, 9⟩ (.plain "i")) .lt (.literal ⟨6, 13⟩ (.int 1)))
            [.simple (.expr ⟨6, 18⟩ (.call ⟨6, 18⟩ (.plain "tell") [.identifier ⟨6, 23⟩ (.plain "i")] []))] [],
          .simple (.assign ⟨7, 5⟩ (.identifier ⟨7, 5⟩ (.plain "i"))
            (.binary ⟨7, 11⟩ (.identifier ⟨7, 9⟩ (.plain "i")) .add (.literal ⟨7, 13⟩ (.int 1))))]] }]

/-- Where control can come to in it, as seen from line 6: the call in the branch of the `if`
begins on the line, with nothing begun elsewhere since the `if`. -/
def tellingPlaces : List (ℕ × Bool) :=
  (List.range 11 ++ List.range' 16 9).map (·, true) ++ (List.range' 11 8).map (·, false)

/-- The run comes to line 6 a second time in its 28th turn. -/
theorem telling_facts : ∃ g s c, compile 1 tellingSource = .ok g ∧ VM.start g.program [] [] = .ok s ∧ letTurns g 10 6 27 s = some c ∧
    ((List.range g.program.functions.length).Pairwise (fun i j => entryOf g.program i ≤ entryOf g.program j) ∧
      (g.program.functions.length = 2 ∧ g.program.funcIndex "main" = some 1 ∧ entryOf g.program 1 = 4 ∧ g.program.code.length = 25) ∧
      (1 ∈ functionsInFile g.program '/' "/a.ql" ∧ (10, ⟨6, 9⟩) ∈ g.program.sourceMap.markers ∧
        ∀ m ∈ g.program.sourceMap.markers, m.2.line = 6 → 10 ≤ m.1) ∧
      (∀ p ∈ tellingPlaces, ∀ q ∈ onward g "/a.ql" 6 (fun _ => true) p, q ∈ tellingPlaces) ∧
      ∀ p ∈ tellingPlaces, p.2 = true → ("/a.ql", 6) ∈ begun g p.1 → p.1 = 10) ∧
    (("/a.ql", 6) ∈ begun g c.here.vm.pc ∧ c.FromElsewhere g "/a.ql" 6 ∧
      c.debugger.breakpoints.map (fun bp => (bp.pc, bp.enabled)) = [(10, true)]) :=
  letTurns_facts (by decide +kernel)

/-- Line 6, on which a second construct begins and from which a function is called, stops the
run on its second way round the loop. -/
theorem breakpoints_complete_loop : ∃ g s c, compile 1 tellingSource = .ok g ∧ VM.start g.program [] [] = .ok s ∧
    letTurns g 10 6 27 s = some c ∧ c.Stops g (fun _ => false) ∧ ∀ left, ∃ here later, here.vm = c.here.vm ∧
      ((letRun 10 6 s).log g zeroFloats transcript '/' goOn (fun _ => false) left 28).stops =
        ((letRun 10 6 s).log g zeroFloats transcript '/' goOn (fun _ => false) left 27).stops ++ here :: later := by
  obtain ⟨g, s, c, hg, hs, hc, ⟨hsorted, ⟨hlen, hmain, hentry, hcode⟩, ⟨hfile, hmarker, hlow⟩, hclosed, hplaces⟩, hbegun, hfrom, hlone⟩ := telling_facts
  have hfirst : FirstOnLine g "/a.ql" 6 '/' 10 :=
    .of_markers hfile (occupies_last hsorted hlen (by rw [hentry]; decide) (by rw [hcode]; decide)) hmarker rfl hlow
  have hline : OneWayIn g "/a.ql" 6 '/' := by
    intro pc hcomes hbegun
    have hstart : (entryOf g.program 1, true) ∈ tellingPlaces := by
      rw [hentry]
      decide
    obtain rfl := hplaces _ (hcomes.mem hmain hstart hclosed) rfl hbegun
    exact hfirst
  exact ⟨g, s, c, hg, hs, hc, breakpoints_complete hg zeroFloats transcript '/' goOn (fun _ => false) hline hs () (letRun 10 6 s).debugger 27 c hc
    (isSet_of_lone hfirst.lineAt hlone) ⟨hbegun, hfrom⟩⟩

/-- `for (let i = 0; i < 2; i = i + 1) {` on line 1 of `/a.ql`, `println(i);` on line 2. -/
def loopSource : Program where
  functions := [{
    name := "main", params := [], returnType := none, sourceFile := "/a.ql"
    body := [
      .for_ ⟨1, 1⟩ (some (.varDecl ⟨1, 6⟩ "i" none (some (.literal ⟨1, 14⟩ (.int 0)))))
        (some (.binary ⟨1, 19⟩ (.identifier ⟨1, 17⟩ (.plain "i")) .lt (.literal ⟨1, 21⟩ (.int 2))))
        (some (.assign ⟨1, 24⟩ (.identifier ⟨1, 24⟩ (.plain "i"))
          (.binary ⟨1, 30⟩ (.identifier ⟨1, 28⟩ (.plain "i")) .add (.literal ⟨1, 32⟩ (.int 1)))))
        [.println ⟨2, 3⟩ (.identifier ⟨2, 11⟩ (.plain "i"))]] }]

/-- The ninth turn is to run the step of the loop, where no breakpoint fires. -/
theorem loop_facts : ∃ g s c, compile 1 loopSource = .ok g ∧ VM.start g.program [] [] = .ok s ∧ letTurns g 0 1 8 s = some c ∧
    ((List.range g.program.functions.length).Pairwise (fun i j => entryOf g.program i ≤ entryOf g.program j) ∧
      (g.program.functions.length = 1 ∧ entryOf g.program 0 = 0 ∧ g.program.code.length = 15) ∧
      0 ∈ functionsInFile g.program '/' "/a.ql" ∧ (0, ⟨1, 14⟩) ∈ g.program.sourceMap.markers) ∧
    (("/a.ql", 1) ∈ begun g c.here.vm.pc ∧ c.FromElsewhere g "/a.ql" 1 ∧
      c.debugger.breakpoints.map (fun bp => (bp.pc, bp.enabled)) = [(0, true)] ∧ (c.debugger.stopAt g.program false c.here.vm).1.isSome = false) :=
  letTurns_facts (by decide +kernel)

/-- The step of the loop begins without a stop. -/
theorem loop_incomplete : ∃ g s, compile 1 loopSource = .ok g ∧ VM.start g.program [] [] = .ok s ∧
    ¬ Complete g zeroFloats transcript '/' goOn (fun _ => false) "/a.ql" 1 (letRun 0 1 s) := by
  obtain ⟨g, s, c, hg, hs, hc, ⟨hsorted, ⟨hlen, hentry, hcode⟩, hfile, hmarker⟩, hbegun, hfrom, hlone, hpass⟩ := loop_facts
  have hfirst : FirstOnLine g "/a.ql" 1 '/' 0 :=
    .of_markers hfile (occupies_last hsorted hlen (by rw [hentry]) (by rw [hcode]; decide)) hmarker rfl fun _ _ _ => Nat.zero_le _
  refine ⟨g, s, hg, hs, fun hcomplete => ?_⟩
  obtain ⟨⟨-, hstops⟩, -⟩ := hcomplete 8 c hc (isSet_of_lone hfirst.lineAt hlone) ⟨hbegun, hfrom⟩
  rw [hpass] at hstops
  cases hstops

end Loops

end QuinLang.Debugger

