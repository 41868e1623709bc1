import Covenant.Calendar
import Covenant.Engine
import Covenant.Error
import Covenant.Hash.Blake3
import Covenant.Host.Call
import Covenant.Host.Permission
import Covenant.Host.Registry
import Covenant.Host.Stock
import Covenant.Interpreter
import Covenant.Json.Basic
import Covenant.Json.Decode
import Covenant.Json.Reader
import Covenant.Number.Arithmetic
import Covenant.Number.Decimal
import Covenant.Number.Double
import Covenant.Number.Numeral
import Covenant.Number.Rounding
import Covenant.Operator.Apply
import Covenant.Operator.Basic
import Covenant.Program.Basic
import Covenant.Program.Compile
import Covenant.Program.Emit
import Covenant.Program.Fingerprint
import Covenant.Program.Fold
import Covenant.Program.Json
import Covenant.Program.Listing
import Covenant.Program.Machine
import Covenant.Proofs.Acceptance
import Covenant.Proofs.AlignedGrammar
import Covenant.Proofs.Alignment
import Covenant.Proofs.Allocation
import Covenant.Proofs.AllocationText
import Covenant.Proofs.Allowances
import Covenant.Proofs.Audit
import Covenant.Proofs.Budget
import Covenant.Proofs.CallShapes
import Covenant.Proofs.CallText
import Covenant.Proofs.Callees
import Covenant.Proofs.Capacity
import Covenant.Proofs.Code
import Covenant.Proofs.Comments
import Covenant.Proofs.Computation
import Covenant.Proofs.Constants
import Covenant.Proofs.Constructs
import Covenant.Proofs.Control
import Covenant.Proofs.Correspondence
import Covenant.Proofs.Counter
import Covenant.Proofs.Decimals
import Covenant.Proofs.Descent
import Covenant.Proofs.Documents
import Covenant.Proofs.Emission
import Covenant.Proofs.EnclosedJumps
import Covenant.Proofs.EnclosedTests
import Covenant.Proofs.Equality
import Covenant.Proofs.Evaluation
import Covenant.Proofs.EvaluationOrder
import Covenant.Proofs.Execution
import Covenant.Proofs.Expression
import Covenant.Proofs.Extremes
import Covenant.Proofs.Faults
import Covenant.Proofs.FoldedForm
import Covenant.Proofs.Folding
import Covenant.Proofs.Grammar
import Covenant.Proofs.Grants
import Covenant.Proofs.Grouping
import Covenant.Proofs.Growth
import Covenant.Proofs.Instantiation
import Covenant.Proofs.Integers
import Covenant.Proofs.JsonText
import Covenant.Proofs.Jumps
import Covenant.Proofs.Ledger
import Covenant.Proofs.Lexing
import Covenant.Proofs.Literals
import Covenant.Proofs.Locations
import Covenant.Proofs.Noninterference
import Covenant.Proofs.Outlines
import Covenant.Proofs.Phrases
import Covenant.Proofs.Placeholders
import Covenant.Proofs.Placement
import Covenant.Proofs.Policy
import Covenant.Proofs.PolicyText
import Covenant.Proofs.Positions
import Covenant.Proofs.Precedence
import Covenant.Proofs.ProgramText
import Covenant.Proofs.Readers
import Covenant.Proofs.Refinement
import Covenant.Proofs.Registration
import Covenant.Proofs.Rendering
import Covenant.Proofs.Rounding
import Covenant.Proofs.Runs
import Covenant.Proofs.Scanning
import Covenant.Proofs.ScopeArena
import Covenant.Proofs.Scoping
import Covenant.Proofs.ScriptText
import Covenant.Proofs.Seams
import Covenant.Proofs.Segments
import Covenant.Proofs.Shape
import Covenant.Proofs.Simulation
import Covenant.Proofs.Slots
import Covenant.Proofs.SourceMap
import Covenant.Proofs.Statements
import Covenant.Proofs.StrayJumps
import Covenant.Proofs.StringLiterals
import Covenant.Proofs.Substitution
import Covenant.Proofs.TemplateRegistration
import Covenant.Proofs.TemplateText
import Covenant.Proofs.Threshold
import Covenant.Proofs.Tracing
import Covenant.Proofs.Transfers
import Covenant.Proofs.Translation
import Covenant.Proofs.Traversals
import Covenant.Proofs.Validation
import Covenant.Proofs.Values
import Covenant.Proofs.WellFormed
import Covenant.Run.Builtin
import Covenant.Run.Limits
import Covenant.Run.State
import Covenant.Scope
import Covenant.Scope.Arena
import Covenant.Script.Basic
import Covenant.Script.Expr
import Covenant.Script.Json
import Covenant.Script.Parser
import Covenant.Source
import Covenant.Table
import Covenant.Template.Basic
import Covenant.Template.Builtin
import Covenant.Template.Json
import Covenant.Template.Placeholder
import Covenant.Template.Registry
import Covenant.Text.CharClass
import Covenant.Text.LetterTable
import Covenant.Text.NumeralTable
import Covenant.Text.Quoted
import Covenant.Token.Basic
import Covenant.Token.Identifier
import Covenant.Token.Lexer
import Covenant.Value.Basic
import Covenant.Value.Json
import Covenant.Value.Render
