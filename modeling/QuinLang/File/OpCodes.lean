import QuinLang.Bytecode
import QuinLang.Lib.Codec

/-! The `.qlc` file: a compiled program, written down and read back. Everything is
little-endian and a text is a byte count followed by UTF-8. -/

namespace QuinLang

open Codec

inductive OpCode
  | pushInt | loadLocal | storeLocal | add | sub | mul | div | mod | xor | and | or | shl | shr | neg
  | cmpEq | cmpNe | cmpLt | cmpLe | cmpGt | cmpGe | loadStr | strCmp | strLen | strCharAt | strConcat
  | strSlice | strFromInt | strFromChar | pushFloat | loadLocalF | storeLocalF | fadd | fsub | fmul
  | fdiv | fneg | fcmp | fFromInt | fToInt | strFromFloat | printFloat | printlnFloat | not | bitnot
  | jmp | jz | jnz | call | ret | loadLocalIdx | storeLocalIdx | boundsCheck | loadIndirect
  | storeIndirect | memcpyLocals | memsetLocals | pop | dup | swap | printInt | printStr | printlnInt
  | printlnStr | alloc | allocTyped | heapLoad | heapStore | heapLoadField | heapStoreField
  | heapLoadFieldF | heapStoreFieldF | gc | panic | tagOf | loadVariant | readLine | argc | argv
  | callIndirect | newArray | arrayLen | arrayGet | arraySet | fileRead | fileWrite | fileAppend
  | fileExists | fileDelete | fileError | fileReadBytes | fileWriteBytes
  deriving DecidableEq, Repr, Inhabited

namespace OpCode

/-- The number the format writes and the name messages use. -/
def entry : OpCode → ℕ × String
  | pushInt => (1, "PUSH_INT")
  | loadLocal => (2, "LOAD_LOCAL")
  | storeLocal => (3, "STORE_LOCAL")
  | add => (4, "ADD")
  | sub => (5, "SUB")
  | mul => (6, "MUL")
  | div => (7, "DIV")
  | mod => (8, "MOD")
  | xor => (9, "XOR")
  | and => (10, "AND")
  | or => (11, "OR")
  | shl => (12, "SHL")
  | shr => (13, "SHR")
  | neg => (14, "NEG")
  | cmpEq => (15, "CMP_EQ")
  | cmpNe => (16, "CMP_NE")
  | cmpLt => (17, "CMP_LT")
  | cmpLe => (18, "CMP_LE")
  | cmpGt => (19, "CMP_GT")
  | cmpGe => (20, "CMP_GE")
  | loadStr => (21, "LOAD_STR")
  | strCmp => (22, "STR_CMP")
  | strLen => (23, "STR_LEN")
  | strCharAt => (24, "STR_CHAR_AT")
  | strConcat => (25, "STR_CONCAT")
  | strSlice => (26, "STR_SLICE")
  | strFromInt => (27, "STR_FROM_INT")
  | strFromChar => (28, "STR_FROM_CHAR")
  | pushFloat => (29, "PUSH_FLOAT")
  | loadLocalF => (30, "LOAD_LOCAL_F")
  | storeLocalF => (31, "STORE_LOCAL_F")
  | fadd => (32, "FADD")
  | fsub => (33, "FSUB")
  | fmul => (34, "FMUL")
  | fdiv => (35, "FDIV")
  | fneg => (36, "FNEG")
  | fcmp => (37, "FCMP")
  | fFromInt => (38, "F_FROM_INT")
  | fToInt => (39, "F_TO_INT")
  | strFromFloat => (40, "STR_FROM_FLOAT")
  | printFloat => (41, "PRINT_FLOAT")
  | printlnFloat => (42, "PRINTLN_FLOAT")
  | not => (43, "NOT")
  | bitnot => (44, "BITNOT")
  | jmp => (45, "JMP")
  | jz => (46, "JZ")
  | jnz => (47, "JNZ")
  | call => (48, "CALL")
  | ret => (49, "RET")
  | loadLocalIdx => (50, "LOAD_LOCAL_IDX")
  | storeLocalIdx => (51, "STORE_LOCAL_IDX")
  | boundsCheck => (52, "BOUNDS_CHECK")
  | loadIndirect => (53, "LOAD_INDIRECT")
  | storeIndirect => (54, "STORE_INDIRECT")
  | memcpyLocals => (55, "MEMCPY_LOCALS")
  | memsetLocals => (56, "MEMSET_LOCALS")
  | pop => (57, "POP")
  | dup => (58, "DUP")
  | swap => (59, "SWAP")
  | printInt => (60, "PRINT_INT")
  | printStr => (61, "PRINT_STR")
  | printlnInt => (62, "PRINTLN_INT")
  | printlnStr => (63, "PRINTLN_STR")
  | alloc => (64, "ALLOC")
  | allocTyped => (65, "ALLOC_TYPED")
  | heapLoad => (66, "HEAP_LOAD")
  | heapStore => (67, "HEAP_STORE")
  | heapLoadField => (68, "HEAP_LOAD_FIELD")
  | heapStoreField => (69, "HEAP_STORE_FIELD")
  | heapLoadFieldF => (70, "HEAP_LOAD_FIELD_F")
  | heapStoreFieldF => (71, "HEAP_STORE_FIELD_F")
  | gc => (72, "GC")
  | panic => (73, "PANIC")
  | tagOf => (74, "TAG_OF")
  | loadVariant => (75, "LOAD_VARIANT")
  | readLine => (76, "READ_LINE")
  | argc => (77, "ARGC")
  | argv => (78, "ARGV")
  | callIndirect => (79, "CALL_INDIRECT")
  | newArray => (80, "NEW_ARRAY")
  | arrayLen => (81, "ARRAY_LEN")
  | arrayGet => (82, "ARRAY_GET")
  | arraySet => (83, "ARRAY_SET")
  | fileRead => (84, "FILE_READ")
  | fileWrite => (85, "FILE_WRITE")
  | fileAppend => (86, "FILE_APPEND")
  | fileExists => (87, "FILE_EXISTS")
  | fileDelete => (88, "FILE_DELETE")
  | fileError => (89, "FILE_ERROR")
  | fileReadBytes => (90, "FILE_READ_BYTES")
  | fileWriteBytes => (91, "FILE_WRITE_BYTES")

def number (op : OpCode) : ℕ := op.entry.1

def name (op : OpCode) : String := op.entry.2

/-- `OpCode(number)`. -/
def ofNumber? : ℕ → Option OpCode
  | 1 => some pushInt
  | 2 => some loadLocal
  | 3 => some storeLocal
  | 4 => some add
  | 5 => some sub
  | 6 => some mul
  | 7 => some div
  | 8 => some mod
  | 9 => some xor
  | 10 => some and
  | 11 => some or
  | 12 => some shl
  | 13 => some shr
  | 14 => some neg
  | 15 => some cmpEq
  | 16 => some cmpNe
  | 17 => some cmpLt
  | 18 => some cmpLe
  | 19 => some cmpGt
  | 20 => some cmpGe
  | 21 => some loadStr
  | 22 => some strCmp
  | 23 => some strLen
  | 24 => some strCharAt
  | 25 => some strConcat
  | 26 => some strSlice
  | 27 => some strFromInt
  | 28 => some strFromChar
  | 29 => some pushFloat
  | 30 => some loadLocalF
  | 31 => some storeLocalF
  | 32 => some fadd
  | 33 => some fsub
  | 34 => some fmul
  | 35 => some fdiv
  | 36 => some fneg
  | 37 => some fcmp
  | 38 => some fFromInt
  | 39 => some fToInt
  | 40 => some strFromFloat
  | 41 => some printFloat
  | 42 => some printlnFloat
  | 43 => some not
  | 44 => some bitnot
  | 45 => some jmp
  | 46 => some jz
  | 47 => some jnz
  | 48 => some call
  | 49 => some ret
  | 50 => some loadLocalIdx
  | 51 => some storeLocalIdx
  | 52 => some boundsCheck
  | 53 => some loadIndirect
  | 54 => some storeIndirect
  | 55 => some memcpyLocals
  | 56 => some memsetLocals
  | 57 => some pop
  | 58 => some dup
  | 59 => some swap
  | 60 => some printInt
  | 61 => some printStr
  | 62 => some printlnInt
  | 63 => some printlnStr
  | 64 => some alloc
  | 65 => some allocTyped
  | 66 => some heapLoad
  | 67 => some heapStore
  | 68 => some heapLoadField
  | 69 => some heapStoreField
  | 70 => some heapLoadFieldF
  | 71 => some heapStoreFieldF
  | 72 => some gc
  | 73 => some panic
  | 74 => some tagOf
  | 75 => some loadVariant
  | 76 => some readLine
  | 77 => some argc
  | 78 => some argv
  | 79 => some callIndirect
  | 80 => some newArray
  | 81 => some arrayLen
  | 82 => some arrayGet
  | 83 => some arraySet
  | 84 => some fileRead
  | 85 => some fileWrite
  | 86 => some fileAppend
  | 87 => some fileExists
  | 88 => some fileDelete
  | 89 => some fileError
  | 90 => some fileReadBytes
  | 91 => some fileWriteBytes
  | _ => none

theorem number_lt (op : OpCode) : op.number < 2 ^ 15 := by
  cases op <;> decide

theorem ofNumber?_number (op : OpCode) : ofNumber? op.number = some op := by
  cases op <;> rfl

end OpCode

/-- An instruction as the file holds it: the operand is present or not whatever the
opcode. -/
structure RawInstruction where
  op : OpCode
  arg : Option ℤ := none
  deriving DecidableEq, Repr, Inhabited

/-- The opcode and operand an instruction is made of. -/
def Instruction.raw : Instruction → RawInstruction
  | .pushInt x => ⟨.pushInt, some x⟩
  | .loadLocal x => ⟨.loadLocal, some x⟩
  | .storeLocal x => ⟨.storeLocal, some x⟩
  | .add => ⟨.add, none⟩
  | .sub => ⟨.sub, none⟩
  | .mul => ⟨.mul, none⟩
  | .div => ⟨.div, none⟩
  | .mod => ⟨.mod, none⟩
  | .xor => ⟨.xor, none⟩
  | .and => ⟨.and, none⟩
  | .or => ⟨.or, none⟩
  | .shl => ⟨.shl, none⟩
  | .shr => ⟨.shr, none⟩
  | .neg => ⟨.neg, none⟩
  | .cmpEq => ⟨.cmpEq, none⟩
  | .cmpNe => ⟨.cmpNe, none⟩
  | .cmpLt => ⟨.cmpLt, none⟩
  | .cmpLe => ⟨.cmpLe, none⟩
  | .cmpGt => ⟨.cmpGt, none⟩
  | .cmpGe => ⟨.cmpGe, none⟩
  | .loadStr x => ⟨.loadStr, some x⟩
  | .strCmp => ⟨.strCmp, none⟩
  | .strLen => ⟨.strLen, none⟩
  | .strCharAt => ⟨.strCharAt, none⟩
  | .strConcat => ⟨.strConcat, none⟩
  | .strSlice => ⟨.strSlice, none⟩
  | .strFromInt => ⟨.strFromInt, none⟩
  | .strFromChar => ⟨.strFromChar, none⟩
  | .pushFloat x => ⟨.pushFloat, some x⟩
  | .loadLocalF x => ⟨.loadLocalF, some x⟩
  | .storeLocalF x => ⟨.storeLocalF, some x⟩
  | .fadd => ⟨.fadd, none⟩
  | .fsub => ⟨.fsub, none⟩
  | .fmul => ⟨.fmul, none⟩
  | .fdiv => ⟨.fdiv, none⟩
  | .fneg => ⟨.fneg, none⟩
  | .fcmp => ⟨.fcmp, none⟩
  | .fFromInt => ⟨.fFromInt, none⟩
  | .fToInt => ⟨.fToInt, none⟩
  | .strFromFloat => ⟨.strFromFloat, none⟩
  | .printFloat => ⟨.printFloat, none⟩
  | .printlnFloat => ⟨.printlnFloat, none⟩
  | .not => ⟨.not, none⟩
  | .bitnot => ⟨.bitnot, none⟩
  | .jmp x => ⟨.jmp, some x⟩
  | .jz x => ⟨.jz, some x⟩
  | .jnz x => ⟨.jnz, some x⟩
  | .call x => ⟨.call, some x⟩
  | .ret => ⟨.ret, none⟩
  | .loadLocalIdx x => ⟨.loadLocalIdx, some x⟩
  | .storeLocalIdx x => ⟨.storeLocalIdx, some x⟩
  | .boundsCheck x => ⟨.boundsCheck, some x⟩
  | .loadIndirect => ⟨.loadIndirect, none⟩
  | .storeIndirect => ⟨.storeIndirect, none⟩
  | .memcpyLocals => ⟨.memcpyLocals, none⟩
  | .memsetLocals => ⟨.memsetLocals, none⟩
  | .pop => ⟨.pop, none⟩
  | .dup => ⟨.dup, none⟩
  | .swap => ⟨.swap, none⟩
  | .printInt => ⟨.printInt, none⟩
  | .printStr => ⟨.printStr, none⟩
  | .printlnInt => ⟨.printlnInt, none⟩
  | .printlnStr => ⟨.printlnStr, none⟩
  | .alloc => ⟨.alloc, none⟩
  | .allocTyped x => ⟨.allocTyped, some x⟩
  | .heapLoad => ⟨.heapLoad, none⟩
  | .heapStore => ⟨.heapStore, none⟩
  | .heapLoadField x => ⟨.heapLoadField, some x⟩
  | .heapStoreField x => ⟨.heapStoreField, some x⟩
  | .heapLoadFieldF x => ⟨.heapLoadFieldF, some x⟩
  | .heapStoreFieldF x => ⟨.heapStoreFieldF, some x⟩
  | .gc => ⟨.gc, none⟩
  | .panic => ⟨.panic, none⟩
  | .tagOf => ⟨.tagOf, none⟩
  | .loadVariant x => ⟨.loadVariant, some x⟩
  | .readLine => ⟨.readLine, none⟩
  | .argc => ⟨.argc, none⟩
  | .argv => ⟨.argv, none⟩
  | .callIndirect => ⟨.callIndirect, none⟩
  | .newArray holdsRefs => ⟨.newArray, some (if holdsRefs then 1 else 0)⟩
  | .arrayLen => ⟨.arrayLen, none⟩
  | .arrayGet => ⟨.arrayGet, none⟩
  | .arraySet => ⟨.arraySet, none⟩
  | .fileRead => ⟨.fileRead, none⟩
  | .fileWrite => ⟨.fileWrite, none⟩
  | .fileAppend => ⟨.fileAppend, none⟩
  | .fileExists => ⟨.fileExists, none⟩
  | .fileDelete => ⟨.fileDelete, none⟩
  | .fileError => ⟨.fileError, none⟩
  | .fileReadBytes => ⟨.fileReadBytes, none⟩
  | .fileWriteBytes => ⟨.fileWriteBytes, none⟩

/-- What the interpreter makes of an opcode and its operand: an opcode that reads one needs
it, and the others do not look. -/
def RawInstruction.instruction? (r : RawInstruction) : Option Instruction :=
  match r.op with
  | .pushInt => operand.map .pushInt
  | .loadLocal => operand.map .loadLocal
  | .storeLocal => operand.map .storeLocal
  | .add => some .add
  | .sub => some .sub
  | .mul => some .mul
  | .div => some .div
  | .mod => some .mod
  | .xor => some .xor
  | .and => some .and
  | .or => some .or
  | .shl => some .shl
  | .shr => some .shr
  | .neg => some .neg
  | .cmpEq => some .cmpEq
  | .cmpNe => some .cmpNe
  | .cmpLt => some .cmpLt
  | .cmpLe => some .cmpLe
  | .cmpGt => some .cmpGt
  | .cmpGe => some .cmpGe
  | .loadStr => operand.map .loadStr
  | .strCmp => some .strCmp
  | .strLen => some .strLen
  | .strCharAt => some .strCharAt
  | .strConcat => some .strConcat
  | .strSlice => some .strSlice
  | .strFromInt => some .strFromInt
  | .strFromChar => some .strFromChar
  | .pushFloat => operand.map .pushFloat
  | .loadLocalF => operand.map .loadLocalF
  | .storeLocalF => operand.map .storeLocalF
  | .fadd => some .fadd
  | .fsub => some .fsub
  | .fmul => some .fmul
  | .fdiv => some .fdiv
  | .fneg => some .fneg
  | .fcmp => some .fcmp
  | .fFromInt => some .fFromInt
  | .fToInt => some .fToInt
  | .strFromFloat => some .strFromFloat
  | .printFloat => some .printFloat
  | .printlnFloat => some .printlnFloat
  | .not => some .not
  | .bitnot => some .bitnot
  | .jmp => operand.map .jmp
  | .jz => operand.map .jz
  | .jnz => operand.map .jnz
  | .call => operand.map .call
  | .ret => some .ret
  | .loadLocalIdx => operand.map .loadLocalIdx
  | .storeLocalIdx => operand.map .storeLocalIdx
  | .boundsCheck => operand.map .boundsCheck
  | .loadIndirect => some .loadIndirect
  | .storeIndirect => some .storeIndirect
  | .memcpyLocals => some .memcpyLocals
  | .memsetLocals => some .memsetLocals
  | .pop => some .pop
  | .dup => some .dup
  | .swap => some .swap
  | .printInt => some .printInt
  | .printStr => some .printStr
  | .printlnInt => some .printlnInt
  | .printlnStr => some .printlnStr
  | .alloc => some .alloc
  | .allocTyped => operand.map .allocTyped
  | .heapLoad => some .heapLoad
  | .heapStore => some .heapStore
  | .heapLoadField => operand.map .heapLoadField
  | .heapStoreField => operand.map .heapStoreField
  | .heapLoadFieldF => operand.map .heapLoadFieldF
  | .heapStoreFieldF => operand.map .heapStoreFieldF
  | .gc => some .gc
  | .panic => some .panic
  | .tagOf => some .tagOf
  | .loadVariant => operand.map .loadVariant
  | .readLine => some .readLine
  | .argc => some .argc
  | .argv => some .argv
  | .callIndirect => some .callIndirect
  | .newArray => some (.newArray (r.arg = some 1))
  | .arrayLen => some .arrayLen
  | .arrayGet => some .arrayGet
  | .arraySet => some .arraySet
  | .fileRead => some .fileRead
  | .fileWrite => some .fileWrite
  | .fileAppend => some .fileAppend
  | .fileExists => some .fileExists
  | .fileDelete => some .fileDelete
  | .fileError => some .fileError
  | .fileReadBytes => some .fileReadBytes
  | .fileWriteBytes => some .fileWriteBytes
where
  operand : Option ℕ := r.arg.bind Int.toNat?

theorem Instruction.instruction?_raw (i : Instruction) : i.raw.instruction? = some i := by
  cases i <;> try rfl
  case newArray holdsRefs => cases holdsRefs <;> rfl

/-- The tables a file carries. -/
structure ProgramFile where
  code : List RawInstruction
  functions : List FunctionInfo
  strings : List (ℕ × String)
  structs : List (Option StructLayout)
  sourceMap : SourceMap := {}
  deriving DecidableEq, Repr

end QuinLang
