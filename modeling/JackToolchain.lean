import JackToolchain.Assembly.Cpu
import JackToolchain.Assembly.Encoding
import JackToolchain.Assembly.Error
import JackToolchain.Assembly.Instruction
import JackToolchain.Assembly.Program
import JackToolchain.Assembly.Symbols
import JackToolchain.Assembly.Text
import JackToolchain.CommandLine.Arguments
import JackToolchain.CommandLine.Assembler
import JackToolchain.CommandLine.Compiler
import JackToolchain.CommandLine.Console
import JackToolchain.CommandLine.Translator
import JackToolchain.Compilation
import JackToolchain.Diagnostics.Code
import JackToolchain.Diagnostics.Event
import JackToolchain.Diagnostics.Report
import JackToolchain.Evaluation.Evaluator
import JackToolchain.Evaluation.Store
import JackToolchain.Files.Path
import JackToolchain.Files.Tree
import JackToolchain.Limits
import JackToolchain.Lowering.Class
import JackToolchain.Lowering.Emission
import JackToolchain.Lowering.Expression
import JackToolchain.Machine.Error
import JackToolchain.Machine.Program
import JackToolchain.Machine.Routine
import JackToolchain.Machine.Run
import JackToolchain.Machine.State
import JackToolchain.Main
import JackToolchain.Project.Batch
import JackToolchain.Project.Build
import JackToolchain.Project.Class
import JackToolchain.Project.Expansion
import JackToolchain.Project.Session
import JackToolchain.Project.Source
import JackToolchain.Project.Workers
import JackToolchain.Proofs.Assembly.Addresses
import JackToolchain.Proofs.Assembly.Binding
import JackToolchain.Proofs.Assembly.Blocks
import JackToolchain.Proofs.Assembly.Computations
import JackToolchain.Proofs.Assembly.Listing
import JackToolchain.Proofs.Assembly.Reading
import JackToolchain.Proofs.Assembly.Resolution
import JackToolchain.Proofs.Assembly.Totality
import JackToolchain.Proofs.Compilation
import JackToolchain.Proofs.Diagnostics.Reports
import JackToolchain.Proofs.Evaluation.Agreement
import JackToolchain.Proofs.Evaluation.Calls
import JackToolchain.Proofs.Evaluation.Commands
import JackToolchain.Proofs.Evaluation.Compiled
import JackToolchain.Proofs.Evaluation.Conditions
import JackToolchain.Proofs.Evaluation.Expressions
import JackToolchain.Proofs.Evaluation.Routines
import JackToolchain.Proofs.Evaluation.Simulation
import JackToolchain.Proofs.Evaluation.Strictness
import JackToolchain.Proofs.Evaluation.Variables
import JackToolchain.Proofs.Files.Order
import JackToolchain.Proofs.Files.Outputs
import JackToolchain.Proofs.Files.Paths
import JackToolchain.Proofs.Files.Sources
import JackToolchain.Proofs.Lists
import JackToolchain.Proofs.Lowering.Accesses
import JackToolchain.Proofs.Lowering.Heights
import JackToolchain.Proofs.Lowering.Jumps
import JackToolchain.Proofs.Lowering.Labels
import JackToolchain.Proofs.Lowering.Paths
import JackToolchain.Proofs.Lowering.Readable
import JackToolchain.Proofs.Lowering.Refusals
import JackToolchain.Proofs.Lowering.Shape
import JackToolchain.Proofs.Lowering.Sharing
import JackToolchain.Proofs.Lowering.Spanless
import JackToolchain.Proofs.Lowering.Yield
import JackToolchain.Proofs.Machine.Actions
import JackToolchain.Proofs.Machine.Advance
import JackToolchain.Proofs.Machine.Checked
import JackToolchain.Proofs.Machine.CheckedLink
import JackToolchain.Proofs.Machine.CheckedRun
import JackToolchain.Proofs.Machine.Directory
import JackToolchain.Proofs.Machine.Discipline
import JackToolchain.Proofs.Machine.Heap
import JackToolchain.Proofs.Machine.Layers
import JackToolchain.Proofs.Machine.Linking
import JackToolchain.Proofs.Machine.Mirror
import JackToolchain.Proofs.Machine.OpenCalls
import JackToolchain.Proofs.Machine.Parts
import JackToolchain.Proofs.Machine.Placement
import JackToolchain.Proofs.Machine.Progress
import JackToolchain.Proofs.Machine.Resolution
import JackToolchain.Proofs.Machine.Safety
import JackToolchain.Proofs.Machine.Snapshots
import JackToolchain.Proofs.Machine.StepLimit
import JackToolchain.Proofs.Machine.Steps
import JackToolchain.Proofs.Machine.Targets
import JackToolchain.Proofs.Machine.Transparency
import JackToolchain.Proofs.Memory
import JackToolchain.Proofs.Project.Compiling
import JackToolchain.Proofs.Project.Isolation
import JackToolchain.Proofs.Project.Listing
import JackToolchain.Proofs.Project.Schedules
import JackToolchain.Proofs.Scope.Slots
import JackToolchain.Proofs.Source.Excerpts
import JackToolchain.Proofs.Stack.Fields
import JackToolchain.Proofs.Stack.Names
import JackToolchain.Proofs.Stack.RoundTrip
import JackToolchain.Proofs.Syntax.Accepted
import JackToolchain.Proofs.Syntax.Agreement
import JackToolchain.Proofs.Syntax.Congruence
import JackToolchain.Proofs.Syntax.Declarations
import JackToolchain.Proofs.Syntax.Delivery
import JackToolchain.Proofs.Syntax.Depths
import JackToolchain.Proofs.Syntax.Expressions
import JackToolchain.Proofs.Syntax.Grammar
import JackToolchain.Proofs.Syntax.Lookahead
import JackToolchain.Proofs.Syntax.Names
import JackToolchain.Proofs.Syntax.Outline
import JackToolchain.Proofs.Syntax.Proper
import JackToolchain.Proofs.Syntax.Recognizer
import JackToolchain.Proofs.Syntax.Spanless
import JackToolchain.Proofs.Syntax.Spans
import JackToolchain.Proofs.Syntax.Statements
import JackToolchain.Proofs.Syntax.Taking
import JackToolchain.Proofs.Syntax.Views
import JackToolchain.Proofs.Text.Lines
import JackToolchain.Proofs.Text.Names
import JackToolchain.Proofs.Text.Words
import JackToolchain.Proofs.Token.Arrival
import JackToolchain.Proofs.Token.Calls
import JackToolchain.Proofs.Token.Chunks
import JackToolchain.Proofs.Token.Encoding
import JackToolchain.Proofs.Token.Feeding
import JackToolchain.Proofs.Token.Layout
import JackToolchain.Proofs.Token.Positions
import JackToolchain.Proofs.Token.Reading
import JackToolchain.Proofs.Token.Respacing
import JackToolchain.Proofs.Token.Stability
import JackToolchain.Proofs.Token.Streaming
import JackToolchain.Proofs.Token.Values
import JackToolchain.Proofs.Translation.Acceptance
import JackToolchain.Proofs.Translation.Agreement
import JackToolchain.Proofs.Translation.Build
import JackToolchain.Proofs.Translation.Comparisons
import JackToolchain.Proofs.Translation.Forms
import JackToolchain.Proofs.Translation.Image
import JackToolchain.Proofs.Translation.Labels
import JackToolchain.Proofs.Translation.Placement
import JackToolchain.Proofs.Translation.References
import JackToolchain.Proofs.Translation.Run
import JackToolchain.Proofs.Translation.Simulation
import JackToolchain.Proofs.Translation.Statics
import JackToolchain.Proofs.Translation.Step
import JackToolchain.Proofs.Translation.Symbols
import JackToolchain.Proofs.Translation.Templates
import JackToolchain.Proofs.Translation.Text
import JackToolchain.Scope.Table
import JackToolchain.Settings.Basic
import JackToolchain.Settings.Document
import JackToolchain.Source.Excerpt
import JackToolchain.Source.Position
import JackToolchain.Stack.Command
import JackToolchain.Stack.Expansion
import JackToolchain.Stack.Text
import JackToolchain.Syntax.Error
import JackToolchain.Syntax.Parser
import JackToolchain.Syntax.Tree
import JackToolchain.Text.Blank
import JackToolchain.Text.Decimal
import JackToolchain.Text.Hidden
import JackToolchain.Text.Json
import JackToolchain.Text.Lines
import JackToolchain.Text.Name
import JackToolchain.Text.Quoted
import JackToolchain.Text.Shortest
import JackToolchain.Token.Basic
import JackToolchain.Token.Error
import JackToolchain.Token.Lexer
import JackToolchain.Token.Reader
import JackToolchain.Token.Rule
import JackToolchain.Token.Stream
import JackToolchain.Toml.Document
import JackToolchain.Toml.Draft
import JackToolchain.Toml.Item
import JackToolchain.Toml.Key
import JackToolchain.Toml.Number
import JackToolchain.Toml.Quoted
import JackToolchain.Toml.Scan
import JackToolchain.Toml.Table
import JackToolchain.Toml.Value
