import QuinLang.Compiler.Checked

/-! The builtin functions and which of them may be a function value. -/

namespace QuinLang

private def builtin (name : String) (params : List Ty) (ret : Ty) : FunctionSig :=
  ⟨.named name, params, ret, true⟩

/-- The shapes of `array_push`, `array_pop`, `array_new` and `array_len` are settled
by the analyser; their entries carry the name and the arity. -/
def getBuiltins : List FunctionSig :=
  [ builtin "load16" [.ptr] .int
  , builtin "store16" [.ptr, .int] .void
  , builtin "memcpy" [.ptr, .ptr, .int] .void
  , builtin "memset" [.ptr, .int, .int] .void
  , builtin "array_push" [.int, .int, .int] .int
  , builtin "array_pop" [.int, .int] .int
  , builtin "array_new" [.int] .int
  , builtin "array_len" [.int] .int
  , builtin "ct_eq" [.int, .int] .bool
  , builtin "ct_select" [.int, .int, .int] .int
  , builtin "alloc" [.int] .heapptr
  , builtin "heap_load" [.heapptr] .int
  , builtin "heap_store" [.heapptr, .int] .void
  , builtin "gc" [] .void
  , builtin "panic" [.str] .void
  , builtin "str_len" [.str] .int
  , builtin "str_char_at" [.str, .int] .int
  , builtin "str_slice" [.str, .int, .int] .str
  , builtin "int_to_str" [.int] .str
  , builtin "char_to_str" [.int] .str
  , builtin "int_to_float" [.int] .float
  , builtin "float_to_int" [.float] .int
  , builtin "float_to_str" [.float] .str
  , builtin "read_line" [] .str
  , builtin "file_read" [.str] .str
  , builtin "file_write" [.str, .str] .bool
  , builtin "file_append" [.str, .str] .bool
  , builtin "file_exists" [.str] .bool
  , builtin "file_delete" [.str] .bool
  , builtin "file_error" [] .str
  , builtin "file_read_bytes" [.str] (.array .int)
  , builtin "file_write_bytes" [.str, .array .int] .bool
  , builtin "argc" [] .int
  , builtin "argv" [.int] .str ]

/-- `VALUE_BUILTINS`. -/
def valueBuiltins : List String :=
  [ "int_to_str", "char_to_str", "float_to_str", "int_to_float", "float_to_int"
  , "str_len", "str_char_at", "str_slice"
  , "file_read", "file_write", "file_append", "file_exists", "file_delete"
  , "file_error", "file_read_bytes", "file_write_bytes"
  , "read_line", "argc", "argv"
  , "ct_eq", "ct_select"
  , "load16", "store16", "memcpy", "memset"
  , "alloc", "heap_load", "heap_store", "gc", "panic" ]

/-- Narrow to a 16-bit signed int, as the machine's arithmetic does. -/
def wrap16 (value : ℤ) : ℤ :=
  if value % 65536 < 0x8000 then value % 65536 else value % 65536 - 0x10000

/-- The value of an expression built only from int literals, as far as exit codes need
it; `~v` is `-v - 1`. -/
def constInt : Expr → Option ℤ
  | .literal _ (.int v) => some (wrap16 v)
  | .unary _ .neg r => (constInt r).map fun v => wrap16 (-v)
  | .unary _ .bitnot r => (constInt r).map fun v => wrap16 (-v - 1)
  | .binary _ l .add r => (constInt l).bind fun a => (constInt r).map fun b => wrap16 (a + b)
  | .binary _ l .sub r => (constInt l).bind fun a => (constInt r).map fun b => wrap16 (a - b)
  | .binary _ l .mul r => (constInt l).bind fun a => (constInt r).map fun b => wrap16 (a * b)
  | _ => none

/-- The value of an int literal. -/
def literalInt : Expr → Option ℤ
  | .literal _ (.int v) => some v
  | _ => none

end QuinLang
