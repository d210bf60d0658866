import QuinLang.Debugger.Inspection
import QuinLang.Runtime.Run

/-! What a fault says of where it happened. -/

namespace QuinLang

/-- `[line:col]` for `pc`, empty where it is unmapped. -/
def SourceMap.describe (map : SourceMap) (pc : ℤ) : String :=
  match map.lookup pc with
  | some pos => s!"[{pos.line}:{pos.col}]"
  | none => ""

/-- A fault as the top of the loop raises it again. -/
structure Located where
  message : String
  location : String
  frames : List (ℕ × ℤ)

/-- A path as the user would recognise it: relative to the working directory where the host
can relate them and that is no longer, and then spelled with `/`. -/
def shortPath (relpath : String → Option String) (sep : Char) (path : String) : String :=
  if path = "" then ""
  else
    match relpath path with
    | none => path
    | some relative =>
      if relative.length > path.length then path
      else String.ofList (relative.toList.map fun c => if c = sep then '/' else c)

section Locating

variable {W : Type} (P : CompiledProgram)

def functionName (index : ℕ) : String := ((P.functions[index]?).map FunctionInfo.name).getD s!"<function {index}>"

def functionFile (index : ℕ) : String := ((P.functions[index]?).map FunctionInfo.sourceFile).getD ""

/-- The function and pc of each activation, innermost first. The pc is already past the
instruction being executed, and a suspended caller stands at its call. -/
def VM.callFrames (s : VM W) : List (ℕ × ℤ) :=
  (s.currentFn, (s.pc : ℤ) - 1) :: s.callStack.map fun frame => (frame.fnIndex, (frame.returnPc : ℤ) - 1)

/-- `f"{text:<{width}}"`. -/
def leftJustified (width : ℕ) (text : String) : String :=
  text ++ String.ofList (List.replicate (width - text.length) ' ')

variable (short : String → String)

/-- The line of a backtrace for one activation. -/
def frameLine (spansFiles : Bool) (width : ℕ) (frame : ℕ × ℤ) : String :=
  let place := match P.sourceMap.lookup frame.2 with
    | none => ""
    | some pos =>
      if spansFiles then s!" ({short (functionFile P frame.1)}:{pos.line})" else s!" (line {pos.line})"
  "  at " ++ leftJustified width (functionName P frame.1) ++ place

/-- The error, saying where it happened. -/
def VM.locate (s : VM W) (message : String) : Located :=
  let frames := s.callFrames
  let location := P.sourceMap.describe ((s.pc : ℤ) - 1)
  -- naming the file on every line is noise for a program of one file
  let spansFiles := decide (1 < (frames.map fun f => functionFile P f.1).dedup.length)
  let headFile := short (functionFile P s.currentFn)
  let headIn := "in " ++ functionName P s.currentFn ++
    if spansFiles ∧ headFile ≠ "" then s!" ({headFile})" else ""
  let header := " ".intercalate ([location, headIn ++ ":"].filter (· ≠ ""))
  let width := (frames.map fun f => (functionName P f.1).length).foldl max 0
  -- a lone frame is main, which the header already named
  let lines := if 1 < frames.length then frames.map (frameLine P short spansFiles width) else []
  ⟨"\n".intercalate ((header ++ " " ++ message) :: lines), location, frames⟩

variable (F : FloatOps) (io : ProgramIO W)

/-- What `run_main` raises when the next turn of the loop faults. No instruction faults once
it has changed the frames, so only the pc has moved. -/
def VM.faulted (s : VM W) : Option Located :=
  match s.step P F io with
  | .error (.vmError message) => some (({ s with pc := s.pc + 1 } : VM W).locate P short message)
  | _ => none

end Locating

end QuinLang
