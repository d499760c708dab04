import AkLisp.Linked.Memory
import AkLisp.Linked.Segment
import AkLisp.Linked.Walk
import AkLisp.List.Basic
import AkLisp.List.History
import AkLisp.List.Dropping
import AkLisp.List.Sharing
import AkLisp.List.Frame
import AkLisp.List.CallProtocol
import AkLisp.Lexer.Token
import AkLisp.State.Data
import AkLisp.State.Code
import AkLisp.State.Dump
import AkLisp.Reader.Parser
import AkLisp.Compiler.Build
import AkLisp.Compiler.Forms
import AkLisp.Compiler.Compile
import AkLisp.Machine.Core
import AkLisp.Semantics.Expr
import AkLisp.Semantics.Eval
import AkLisp.Machine.Run
import AkLisp.Machine.Simulation
import AkLisp.Machine.Tally
import AkLisp.Machine.Failing
import AkLisp.Machine.Missing
import AkLisp.Reader.Delivery
import AkLisp.Reader.Reads
import AkLisp.Compiler.Translates
import AkLisp.Compiler.Sound
import AkLisp.Reader.Datum
import AkLisp.Lexer.Device
import AkLisp.Lexer.Scan
import AkLisp.Lexer.Reading
import AkLisp.Lexer.Lexes
import AkLisp.Lexer.Sound
import AkLisp.Lexer.Interchange
import AkLisp.Lexer.Bounds
import AkLisp.Lexer.Progress
import AkLisp.Outcome.Logged
import AkLisp.Lexer.Stores
import AkLisp.Lexer.Lines
import AkLisp.Transducer.Run
import AkLisp.Lexer.Modes
import AkLisp.Lexer.WhiteSpace
import AkLisp.Lexer.Spelling
import AkLisp.Reader.Render
import AkLisp.Gc.Pool
import AkLisp.Gc.Heap
import AkLisp.Gc.Live
import AkLisp.Gc.Placement
import AkLisp.Gc.Creation
import AkLisp.Gc.Pass
import AkLisp.Gc.Sweep
import AkLisp.Gc.Mark
import AkLisp.Gc.Request
import AkLisp.Gc.Release
import AkLisp.Source.Form
import AkLisp.Compiler.Program
import AkLisp.Compiler.Prefetch
import AkLisp.Outcome.Results
import AkLisp.Machine.Session
import AkLisp.Outcome.Procedure
import AkLisp.Compiler.Calls
import AkLisp.Compiler.NullDeref
import AkLisp.Lexer.FileEnd
import AkLisp.Compiler.Termination
import AkLisp.Compiler.Growth
import AkLisp.Compiler.Labels
import AkLisp.Compiler.Jumps
import AkLisp.Machine.Parameters
import AkLisp.Lexer.InString
import AkLisp.Lexer.Cut
import AkLisp.Lexer.Deviation
import AkLisp.Printer.Format
import AkLisp.Printer.Print
import AkLisp.Printer.ReadBack
import AkLisp.Lexer.Octal
import AkLisp.Builtins.Arguments
import AkLisp.Builtins.Typed
import AkLisp.Builtins.Arithmetic
import AkLisp.Builtins.Division
import AkLisp.Builtins.Compare
import AkLisp.Builtins.Relations
import AkLisp.Builtins.Sequence
import AkLisp.Builtins.Structural
import AkLisp.Builtins.Tail
import AkLisp.List.Search
import AkLisp.List.Iteration
import AkLisp.List.Cursor
import AkLisp.State.Errors
import AkLisp.Ordered.Set
import AkLisp.State.Globals
import AkLisp.Builtins.MapIndex
import AkLisp.Builtins.Range
import AkLisp.State.Store
import AkLisp.Builtins.Append
import AkLisp.Linked.Reach
import AkLisp.State.Parts
import AkLisp.State.Shapes
import AkLisp.List.Independence
import AkLisp.List.Duplicate
import AkLisp.Memory.Block
import AkLisp.Vector.Basic
import AkLisp.Vector.Stack
import AkLisp.Vector.Bulk
import AkLisp.Memory.Pointer
import AkLisp.State.UserTypes
import AkLisp.Transition.Conservation
import AkLisp.Memory.Blocks
import AkLisp.Gc.Accounting
import AkLisp.State.Modules
import AkLisp.Compiler.Entries
import AkLisp.Source.Operands
import AkLisp.Source.Proper
import AkLisp.Compiler.Boundaries
import AkLisp.Compiler.Layout
import AkLisp.Compiler.Arguments
import AkLisp.Transition.Arrival
import AkLisp.Transition.Expansion
import AkLisp.Machine.Branches
import AkLisp.Compiler.Positions
import AkLisp.Compiler.Definitions
import AkLisp.Source.Endings
import AkLisp.Compiler.Endings
import AkLisp.Source.Resolves
import AkLisp.Compiler.Emission
import AkLisp.Source.Core
import AkLisp.Builtins.Stack
import AkLisp.Compiler.Agreement
import AkLisp.State.Completion
import AkLisp.State.Library
import AkLisp.Programs.Recursion
import AkLisp.Programs.Average
