import QuinLang.Compiler.Ast

/-! Include resolution: the files an entry includes, directly or not, merged into one
program. What is at a path, and the canonical path a spelling denotes, are the file
system's. -/

namespace QuinLang

/-- A parsed file: its include directives and its declarations. -/
structure SourceFile where
  includes : List String
  program : Program

/-- What reading and parsing a path comes to. -/
inductive FileRead
  | missing
  | unreadable (reason : String)
  | notText
  | malformed (pos : Pos) (message : String)
  | parsed (file : SourceFile)

/-- The files a resolver works on, with paths in canonical form. -/
structure FileSystem (Path : Type) where
  read : Path → FileRead
  parent : Path → Path
  /-- `(base / rel).resolve()` -/
  resolve : Path → String → Path
  /-- `str(path)` -/
  str : Path → String
  std_path : Path

inductive ResolveStop
  | error (message : String)
  | outOfFuel
  deriving DecidableEq

/-- `ImportResolver`: the files entered so far and what they declare. -/
structure ImportResolver (Path : Type) where
  included : List Path := []
  source_files : List Path := []
  all_functions : List Function := []
  function_origins : List (String × Path) := []
  all_structs : List StructDef := []
  struct_origins : List (String × Path) := []
  all_enums : List EnumDef := []
  enum_origins : List (String × Path) := []

structure ResolvedProgram (Path : Type) where
  program : Program
  source_files : List Path

section Resolve

variable {Path : Type} [DecidableEq Path] (fs : FileSystem Path)

/-- `_resolve_path`. -/
def FileSystem.resolvePath (include_path : String) (relative_to : Path) : Path :=
  if "std/".toList.isPrefixOf include_path.toList then
    fs.resolve fs.std_path (String.ofList (include_path.toList.drop 4))
  else fs.resolve (fs.parent relative_to) include_path

def resolveError {α : Type} (message : String) : Except ResolveStop α := .error (.error message)

def redefinition {α : Type} (kind name : String) (file_path orig : Path) : Except ResolveStop α :=
  resolveError (s!"Redefinition of {kind} '{name}' in {fs.str file_path} " ++ s!"(previously defined in {fs.str orig})")

def addStruct (file_path : Path) (s : ImportResolver Path) (sd : StructDef) : Except ResolveStop (ImportResolver Path) :=
  match s.struct_origins.lookup sd.name with
  | some orig => redefinition fs "struct" sd.name file_path orig
  | none =>
    match s.enum_origins.lookup sd.name with
    | some orig =>
      resolveError (s!"Struct '{sd.name}' in {fs.str file_path} clashes with the enum of " ++ s!"the same name in {fs.str orig}")
    | none => .ok { s with
        struct_origins := (sd.name, file_path) :: s.struct_origins
        all_structs := s.all_structs ++ [sd] }

def addEnum (file_path : Path) (s : ImportResolver Path) (ed : EnumDef) : Except ResolveStop (ImportResolver Path) :=
  match s.enum_origins.lookup ed.name with
  | some orig => redefinition fs "enum" ed.name file_path orig
  | none =>
    match s.struct_origins.lookup ed.name with
    | some orig =>
      resolveError (s!"Enum '{ed.name}' in {fs.str file_path} clashes with the struct of " ++ s!"the same name in {fs.str orig}")
    | none => .ok { s with
        enum_origins := (ed.name, file_path) :: s.enum_origins
        all_enums := s.all_enums ++ [ed] }

def addFunction (file_path : Path) (s : ImportResolver Path) (fn : Function) : Except ResolveStop (ImportResolver Path) :=
  match s.function_origins.lookup fn.name with
  | some orig => redefinition fs "function" fn.name file_path orig
  | none => .ok { s with
      function_origins := (fn.name, file_path) :: s.function_origins
      all_functions := s.all_functions ++ [{ fn with sourceFile := fs.str file_path }] }

/-- The declarations of a file, once those it includes are in. -/
def addDeclarations (file_path : Path) (program : Program) (s : ImportResolver Path) :
    Except ResolveStop (ImportResolver Path) := do
  let s ← program.structs.foldlM (addStruct fs file_path) s
  let s ← program.enums.foldlM (addEnum fs file_path) s
  program.functions.foldlM (addFunction fs file_path) s

/-- `_resolve_file`, on a file marked as it is entered. -/
def resolveFile : ℕ → Path → ImportResolver Path → Except ResolveStop (ImportResolver Path)
  | 0, _, _ => .error .outOfFuel
  | fuel + 1, file_path, s =>
    if file_path ∈ s.included then .ok s
    else
      let s := { s with included := file_path :: s.included, source_files := s.source_files ++ [file_path] }
      match fs.read file_path with
      | .missing => resolveError s!"Cannot find file: {fs.str file_path}"
      | .unreadable reason => resolveError s!"Cannot read file {fs.str file_path}: {reason}"
      | .notText => resolveError s!"Not a text file: {fs.str file_path}"
      | .malformed pos message =>
        resolveError s!"Syntax error in {fs.str file_path}:{pos.line}:{pos.col}: {message}"
      | .parsed file => do
        -- depth-first, so that what a file includes is merged ahead of it
        let s ← file.includes.foldlM (fun s inc => resolveFile fuel (fs.resolvePath inc file_path) s) s
        addDeclarations fs file_path file.program s

/-- `resolve`, from the canonical path of the entry. -/
def resolve (fuel : ℕ) (entry : Path) : Except ResolveStop (ResolvedProgram Path) := do
  let s ← resolveFile fs fuel entry {}
  return ⟨⟨s.all_functions, s.all_structs, s.all_enums⟩, s.source_files⟩

end Resolve

end QuinLang
