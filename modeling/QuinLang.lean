import QuinLang.Lib.ByteMem
import QuinLang.Lib.Tiling
import QuinLang.Lib.Worklist
import QuinLang.Lib.StateExcept
import QuinLang.Lib.Flow
import QuinLang.Lib.Codec
import QuinLang.Lib.Probing
import QuinLang.Lib.DepthFirst
import QuinLang.Lib.Consuming
import QuinLang.Lib.Loops
import QuinLang.Lib.ExceptState
import QuinLang.Lib.Dict
import QuinLang.Lib.Rounding
import QuinLang.Lib.Following
import QuinLang.Lib.Within
import QuinLang.Bytecode
import QuinLang.Runtime.Run
import QuinLang.Runtime.StraightLine
import QuinLang.Runtime.State
import QuinLang.Runtime.Heap
import QuinLang.Runtime.Collector
import QuinLang.Runtime.Allocator
import QuinLang.Runtime.Interpreter
import QuinLang.Runtime.FloatText
import QuinLang.Runtime.Copying
import QuinLang.Runtime.ProgramIo
import QuinLang.Collection.Shape
import QuinLang.Collection.Marking
import QuinLang.Collection.Moving
import QuinLang.Collection.Sliding
import QuinLang.Collection.Collect
import QuinLang.Collection.Correctness
import QuinLang.Collection.Allocation
import QuinLang.Collection.HeapRuns
import QuinLang.Collection.Books
import QuinLang.Collection.Compiled
import QuinLang.Compiler.Types
import QuinLang.Compiler.Ast
import QuinLang.Compiler.Lexer
import QuinLang.Compiler.LexicalGrammar
import QuinLang.Compiler.Lexing
import QuinLang.Compiler.LexerRuns
import QuinLang.Compiler.Spelling
import QuinLang.Compiler.Inference
import QuinLang.Compiler.TypeParser
import QuinLang.Compiler.ParseTree
import QuinLang.Compiler.Parser
import QuinLang.Compiler.StatementParser
import QuinLang.Compiler.ParserRuns
import QuinLang.Compiler.ExpressionGrammar
import QuinLang.Compiler.ExpressionParsing
import QuinLang.Compiler.Resolver
import QuinLang.Compiler.Resolution
import QuinLang.Compiler.Checked
import QuinLang.Compiler.Builtins
import QuinLang.Compiler.Instantiate
import QuinLang.Compiler.Declared
import QuinLang.Compiler.Expressions
import QuinLang.Compiler.Sema
import QuinLang.Compiler.TypeSpelling
import QuinLang.Compiler.Layout
import QuinLang.Compiler.Asm
import QuinLang.Compiler.Codegen
import QuinLang.Compiler.WellTyped
import QuinLang.Compiler.Typing
import QuinLang.Compiler.Statements
import QuinLang.Compiler.Registered
import QuinLang.Compiler.Programs
import QuinLang.Compiler.TypeIds
import QuinLang.Compiler.Placement
import QuinLang.Compiler.StackFlow
import QuinLang.Compiler.StatementFlow
import QuinLang.Debugger.Inspection
import QuinLang.Runtime.Backtrace
import QuinLang.Debugger.Control
import QuinLang.Debugger.Transparency
import QuinLang.Debugger.FrontEnds
import QuinLang.Debugger.Display
import QuinLang.Runtime.Effects
import QuinLang.Collection.MachineBooks
import QuinLang.Compiler.StackRuns
import QuinLang.Compiler.Positions
import QuinLang.Debugger.Stepping
import QuinLang.Debugger.Placing
import QuinLang.Compiler.Backtraces
import QuinLang.Debugger.Completeness
import QuinLang.Compiler.Lowered
import QuinLang.Compiler.AsmRuns
import QuinLang.Compiler.Calling
import QuinLang.Compiler.Evaluation
import QuinLang.Compiler.Simulation
import QuinLang.Compiler.ExpressionRuns
import QuinLang.Compiler.StatementRuns
import QuinLang.Compiler.Preservation
import QuinLang.Compiler.WordPrograms
import QuinLang.File.OpCodes
import QuinLang.File.Format
import QuinLang.File.RoundTrip
import QuinLang.File.Stripping
import QuinLang.File.Programs
import QuinLang.Std.Map
import QuinLang.Std.MapRefinement
import QuinLang.Std.MapGrowth
import QuinLang.Std.MapRuns
import QuinLang.Std.Set
import QuinLang.Std.Strings
import QuinLang.Std.Searching
import QuinLang.Std.Input
import QuinLang.Std.Files
import QuinLang.Std.Vec
import QuinLang.Std.Chains
import QuinLang.Std.ChainHeap
import QuinLang.Std.Divisors
import QuinLang.Std.Bits
import QuinLang.Runtime.Words
import QuinLang.Std.Replacing
import QuinLang.Std.Splitting
import QuinLang.Std.Numerals
import QuinLang.Dap.Protocol
import QuinLang.Dap.Framing
import QuinLang.Dap.Session
import QuinLang.Dap.Breakpoints
import QuinLang.Dap.BreakpointRuns
import QuinLang.Dap.Handoff
import QuinLang.Dap.Resuming
import QuinLang.Dap.Lifecycle
import QuinLang.Dap.Variables
