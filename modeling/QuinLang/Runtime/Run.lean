import QuinLang.Runtime.Interpreter

/-! Whole runs of a program. -/

namespace QuinLang

variable {W : Type} (P : CompiledProgram) (F : FloatOps) (io : ProgramIO W)

/-- `n` turns of the loop, fewer if the program ends. -/
def VM.steps : ℕ → VM W → Except Fault (Progress W)
  | 0, s => .ok (.running s)
  | n + 1, s =>
    match s.step P F io with
    | .error e => .error e
    | .ok (.exited code s) => .ok (.exited code s)
    | .ok (.running s) => VM.steps n s

/-- `run_main`, followed for `n` turns of the loop. -/
def runMain (args : List String) (w : W) (n : ℕ) : Except Fault (Progress W) :=
  match VM.start P args w with
  | .error e => .error e
  | .ok s => s.steps P F io n

end QuinLang
