import Visuall.Codegen.Builder
import Visuall.Codegen.Flow
import Visuall.Codegen.Blocks
import Visuall.Lexer.Scanner
import Visuall.Lexer.Tokenize
import Visuall.Lexer.Rounds
import Visuall.Lexer.Accounting
import Visuall.Lexer.Bare
import Visuall.Lib.Binding
import Visuall.Lib.Breadth
import Visuall.Lib.Chaining
import Visuall.Lib.Climb
import Visuall.Lib.Decimal
import Visuall.Lib.DepthFirst
import Visuall.Lib.Descent
import Visuall.Lib.LinearProbe
import Visuall.Gc.ChunkTable
import Visuall.Lib.BackwardShift
import Visuall.Gc.PtrMapRefinement
import Visuall.Lib.LinkedQueue
import Visuall.Lib.Lockstep
import Visuall.Lib.Machine
import Visuall.Codegen.Lowering
import Visuall.Lib.Memory
import Visuall.Lib.RingBuffer
import Visuall.Lib.Rooted
import Visuall.Lib.Run
import Visuall.Lexer.Indentation
import Visuall.Lib.Scan
import Visuall.Gc.Collector
import Visuall.Gc.Blocks
import Visuall.Gc.ChunkTableRefinement
import Visuall.Gc.Emitted
import Visuall.Gc.Marking
import Visuall.Gc.Roots
import Visuall.Gc.Sweeping
import Visuall.Gc.Accounting
import Visuall.Gc.AccountingRuns
import Visuall.Lib.Split
import Visuall.Lexer.Normalization
import Visuall.Lexer.Positions
import Visuall.Lexer.Respacing
import Visuall.Lexer.Padding
import Visuall.Lib.Occurrences
import Visuall.Lib.Stride
import Visuall.Lib.Worklist
import Visuall.Lsp.Formatter
import Visuall.Lsp.FormatterLines
import Visuall.Lsp.FormatterBlanks
import Visuall.Lsp.FormatterIdempotent
import Visuall.Lsp.Framing
import Visuall.Lsp.Sync
import Visuall.Modules.Loader
import Visuall.Modules.Paths
import Visuall.Packages.Resolver
import Visuall.Packages.Fetcher
import Visuall.Packages.Selection
import Visuall.Packages.Aliases
import Visuall.Packages.Reproducible
import Visuall.Packages.Store
import Visuall.Parser.Cursor
import Visuall.Runtime.Dict
import Visuall.Runtime.DictRefinement
import Visuall.Runtime.Lists
import Visuall.Runtime.Random
import Visuall.Runtime.Sets
import Visuall.Runtime.Strings
import Visuall.Runtime.FStrings
import Visuall.Runtime.Json
import Visuall.Runtime.JsonRoundTrip
import Visuall.Runtime.Splitting
import Visuall.Runtime.Traceback
import Visuall.Scheduler.Channel
import Visuall.Scheduler.Close
import Visuall.Scheduler.Queues
import Visuall.Scheduler.History
import Visuall.Scheduler.Conservation
import Visuall.Scheduler.Spawning
import Visuall.Syntax.Ast
import Visuall.Capture.Analyzer
import Visuall.Capture.Scopes
import Visuall.Capture.Exact
import Visuall.Classes.Analyzer
import Visuall.Classes.Layout
import Visuall.Codegen.Fields
import Visuall.Codegen.Collections
import Visuall.Codegen.Generators
import Visuall.Codegen.Liveness
import Visuall.Codegen.Members
import Visuall.Codegen.Resumption
import Visuall.Codegen.Coroutines
import Visuall.Codegen.Unwinding
import Visuall.Codegen.Completion
import Visuall.Codegen.Delivery
import Visuall.Codegen.Storage
import Visuall.Syntax.Desugar
import Visuall.Parser.Expressions
import Visuall.Parser.Statements
import Visuall.Parser.Cloning
import Visuall.Parser.Escapes
import Visuall.Parser.Progress
import Visuall.Parser.Recovery
import Visuall.Parser.Interpolation
import Visuall.Parser.Unplaced
import Visuall.Parser.Embedding
import Visuall.Types.Annotation
import Visuall.Checker.Assignable
import Visuall.Checker.Comparing
import Visuall.Checker.Functions
import Visuall.Checker.Hierarchy
import Visuall.Checker.State
import Visuall.Checker.Expressions
import Visuall.Checker.Names
import Visuall.Checker.Statements
import Visuall.Checker.Calls
import Visuall.Checker.Inheritance
import Visuall.Checker.Preorder
import Visuall.Checker.Recording
import Visuall.Checker.Ending
import Visuall.Checker.Conformance
import Visuall.Checker.Returns
import Visuall.Checker.Unification
import Visuall.Checker.Unions
import Visuall.Checker.Walk
import Visuall.Checker.Follows
import Visuall.Checker.Refinement
import Visuall.Checker.Collecting
import Visuall.Checker.Reassign
import Visuall.Checker.Scoping
import Visuall.Checker.Accepted
import Visuall.Codegen.Symbols
import Visuall.Lsp.Analysis
import Visuall.Types.Denotation
import Visuall.Types.RoundTrip
import Visuall.Types.Substitution
import Visuall.Checker.Generics
import Visuall.Lib.Toml
import Visuall.Lib.TomlLines
import Visuall.Packages.Lockfile
import Visuall.Lexer.Spelling
import Visuall.Lsp.EditorPositions
import Visuall.Lsp.SemanticTokens
import Visuall.Lib.Rounds
import Visuall.Codegen.ForLoops
import Visuall.Codegen.Comprehensions
import Visuall.Codegen.Arguments
import Visuall.Runtime.Integers
import Visuall.Lib.CommandLine
import Visuall.Packages.Process
import Visuall.Lib.Places
import Visuall.Packages.Containment
import Visuall.Codegen.Slices
import Visuall.Lib.Ssa
import Visuall.Codegen.Arithmetic
import Visuall.Codegen.Equality
import Visuall.Lib.Brackets
import Visuall.Codegen.CatchRegions
import Visuall.Lib.SsaBranches
import Visuall.Codegen.Laziness
import Visuall.Gc.Reachable
