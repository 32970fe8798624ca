import StackScript.Bytecode.Chunk
import StackScript.Bytecode.Decode
import StackScript.Bytecode.Instruction
import StackScript.Bytecode.Listing
import StackScript.Bytecode.Opcode
import StackScript.CommandLine
import StackScript.Compile.Cursor
import StackScript.Compile.Error
import StackScript.Compile.Expression
import StackScript.Compile.Precedence
import StackScript.Compile.Program
import StackScript.Compile.Scope
import StackScript.Compile.State
import StackScript.Compile.Statement
import StackScript.Decimal.Basic
import StackScript.Decimal.Binary64
import StackScript.Decimal.Shortest
import StackScript.Machine.Fault
import StackScript.Machine.Output
import StackScript.Machine.Run
import StackScript.Machine.State
import StackScript.Machine.Step
import StackScript.Main
import StackScript.Proofs.Actions
import StackScript.Proofs.Bytecode.Assembly
import StackScript.Proofs.Bytecode.Encoding
import StackScript.Proofs.Bytecode.Entries
import StackScript.Proofs.Bytecode.Flow
import StackScript.Proofs.Compile.Acceptance
import StackScript.Proofs.Compile.Blocks
import StackScript.Proofs.Compile.Bookkeeping
import StackScript.Proofs.Compile.Calls
import StackScript.Proofs.Compile.Clean
import StackScript.Proofs.Compile.Correctness
import StackScript.Proofs.Compile.Effects
import StackScript.Proofs.Compile.ErrorOrder
import StackScript.Proofs.Compile.ExpressionCode
import StackScript.Proofs.Compile.FlatStatement
import StackScript.Proofs.Compile.Fulfilment
import StackScript.Proofs.Compile.Observed
import StackScript.Proofs.Compile.Parentheses
import StackScript.Proofs.Compile.Parsing
import StackScript.Proofs.Compile.Progress
import StackScript.Proofs.Compile.Recovery
import StackScript.Proofs.Compile.Requests
import StackScript.Proofs.Compile.ScriptCode
import StackScript.Proofs.Compile.ScriptParsing
import StackScript.Proofs.Compile.StatementCode
import StackScript.Proofs.Compile.Steps
import StackScript.Proofs.Compile.ValidPrefix
import StackScript.Proofs.Compile.WellFormed
import StackScript.Proofs.Layout
import StackScript.Proofs.ListingLines
import StackScript.Proofs.Machine.Concatenation
import StackScript.Proofs.Machine.Execute
import StackScript.Proofs.Machine.ExpressionRun
import StackScript.Proofs.Machine.Failure
import StackScript.Proofs.Machine.ForLoops
import StackScript.Proofs.Machine.Frame
import StackScript.Proofs.Machine.FullOutput
import StackScript.Proofs.Machine.Interpreter
import StackScript.Proofs.Machine.KeepingPace
import StackScript.Proofs.Machine.LineTable
import StackScript.Proofs.Machine.Listing
import StackScript.Proofs.Machine.Lockstep
import StackScript.Proofs.Machine.Mirror
import StackScript.Proofs.Machine.Output
import StackScript.Proofs.Machine.Relocation
import StackScript.Proofs.Machine.Runs
import StackScript.Proofs.Machine.Safety
import StackScript.Proofs.Machine.Simulation
import StackScript.Proofs.Machine.StackHeight
import StackScript.Proofs.Machine.StatementRun
import StackScript.Proofs.Machine.Storage
import StackScript.Proofs.Machine.Surroundings
import StackScript.Proofs.Machine.Termination
import StackScript.Proofs.Session
import StackScript.Proofs.Text.Boundaries
import StackScript.Proofs.Token.Concatenation
import StackScript.Proofs.Token.Lexemes
import StackScript.Proofs.Token.LexicalGrammar
import StackScript.Proofs.Token.MaximalMunch
import StackScript.Proofs.Token.Respacing
import StackScript.Proofs.Token.Scanning
import StackScript.Proofs.Token.Slices
import StackScript.Proofs.Token.Tiling
import StackScript.Proofs.Trace
import StackScript.Proofs.Tree.Behaviour
import StackScript.Proofs.Tree.CodeConstants
import StackScript.Proofs.Tree.CodeFlow
import StackScript.Proofs.Tree.CodeLiterals
import StackScript.Proofs.Tree.Evaluation
import StackScript.Proofs.Tree.Grammar
import StackScript.Proofs.Tree.LoopUnfolding
import StackScript.Proofs.Tree.Lowering
import StackScript.Proofs.Tree.OuterLocals
import StackScript.Proofs.Tree.Portability
import StackScript.Proofs.Tree.Printing
import StackScript.Proofs.Tree.Relocation
import StackScript.Proofs.Tree.Scoping
import StackScript.Proofs.Tree.Syntax
import StackScript.Script
import StackScript.Session
import StackScript.Text.Blank
import StackScript.Text.Utf8
import StackScript.Token.Basic
import StackScript.Token.Scan
import StackScript.Trace
import StackScript.Value
