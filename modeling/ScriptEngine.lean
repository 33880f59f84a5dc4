import ScriptEngine.Bound
import ScriptEngine.Bound.Binder
import ScriptEngine.Bound.EmitError
import ScriptEngine.Bound.Lowering
import ScriptEngine.Chain
import ScriptEngine.CodeModule
import ScriptEngine.CodeModule.Loader
import ScriptEngine.CommandLine
import ScriptEngine.CommandLine.Errand
import ScriptEngine.CommandLine.Job
import ScriptEngine.Config
import ScriptEngine.Console
import ScriptEngine.Console.Command
import ScriptEngine.Console.Listing
import ScriptEngine.Decimal.Double
import ScriptEngine.Decimal.Reader
import ScriptEngine.Decimal.Remainder
import ScriptEngine.Decimal.Shortest
import ScriptEngine.Diagnostic
import ScriptEngine.Fault
import ScriptEngine.FileTree
import ScriptEngine.Image
import ScriptEngine.Image.Decoder
import ScriptEngine.Image.LoadError
import ScriptEngine.Image.Writer
import ScriptEngine.Intrinsic
import ScriptEngine.Intrinsic.Call
import ScriptEngine.Invocation
import ScriptEngine.Library
import ScriptEngine.Library.Builder
import ScriptEngine.Library.Bundled
import ScriptEngine.Library.Cache
import ScriptEngine.Library.Supply
import ScriptEngine.Machine
import ScriptEngine.Main
import ScriptEngine.Memory
import ScriptEngine.Proofs.AcceptedUnits
import ScriptEngine.Proofs.AcyclicLists
import ScriptEngine.Proofs.BalancedBrackets
import ScriptEngine.Proofs.BindingRules
import ScriptEngine.Proofs.BlockLiterals
import ScriptEngine.Proofs.BoundOperations
import ScriptEngine.Proofs.BundledCode
import ScriptEngine.Proofs.BundledMath
import ScriptEngine.Proofs.BundledSequences
import ScriptEngine.Proofs.CallDepth
import ScriptEngine.Proofs.CallFreeScripts
import ScriptEngine.Proofs.Calls
import ScriptEngine.Proofs.CodeVolume
import ScriptEngine.Proofs.DataCode
import ScriptEngine.Proofs.DataReading
import ScriptEngine.Proofs.DeadCode
import ScriptEngine.Proofs.DeclaredNames
import ScriptEngine.Proofs.ElidedTexts
import ScriptEngine.Proofs.Emission
import ScriptEngine.Proofs.Evaluator
import ScriptEngine.Proofs.FaithfulSpans
import ScriptEngine.Proofs.FaultLines
import ScriptEngine.Proofs.FilledLocals
import ScriptEngine.Proofs.FlaggedBlocks
import ScriptEngine.Proofs.FlaggedDivisions
import ScriptEngine.Proofs.FloatBits
import ScriptEngine.Proofs.FreshLocals
import ScriptEngine.Proofs.FunctionRuns
import ScriptEngine.Proofs.GuardedCode
import ScriptEngine.Proofs.ImageFormat
import ScriptEngine.Proofs.IntegerArithmetic
import ScriptEngine.Proofs.KnownCallees
import ScriptEngine.Proofs.KnownCalls
import ScriptEngine.Proofs.KnownValues
import ScriptEngine.Proofs.LatestNames
import ScriptEngine.Proofs.Layout
import ScriptEngine.Proofs.LexicalScope
import ScriptEngine.Proofs.LineAccounts
import ScriptEngine.Proofs.LinkedCallees
import ScriptEngine.Proofs.LinkedUnits
import ScriptEngine.Proofs.ListGraph
import ScriptEngine.Proofs.Loadable
import ScriptEngine.Proofs.LoadedOnce
import ScriptEngine.Proofs.Loading
import ScriptEngine.Proofs.LocalFlow
import ScriptEngine.Proofs.LoopControl
import ScriptEngine.Proofs.MachineFrames
import ScriptEngine.Proofs.MachineSound
import ScriptEngine.Proofs.MachineSteps
import ScriptEngine.Proofs.MachineValues
import ScriptEngine.Proofs.Meaning
import ScriptEngine.Proofs.MessageSpans
import ScriptEngine.Proofs.Moments
import ScriptEngine.Proofs.NumberFunctions
import ScriptEngine.Proofs.OperandDepth
import ScriptEngine.Proofs.Operations
import ScriptEngine.Proofs.OperatorValues
import ScriptEngine.Proofs.OrderOperators
import ScriptEngine.Proofs.PackedLibraries
import ScriptEngine.Proofs.Places
import ScriptEngine.Proofs.PlainData
import ScriptEngine.Proofs.PrintedTokens
import ScriptEngine.Proofs.PrintedValues
import ScriptEngine.Proofs.ReadBack
import ScriptEngine.Proofs.ReaderOutcomes
import ScriptEngine.Proofs.ReaderSteps
import ScriptEngine.Proofs.Recovery
import ScriptEngine.Proofs.Rejection
import ScriptEngine.Proofs.RenamedTrees
import ScriptEngine.Proofs.Scoping
import ScriptEngine.Proofs.SequenceFunctions
import ScriptEngine.Proofs.Sequencing
import ScriptEngine.Proofs.SessionOrder
import ScriptEngine.Proofs.SessionRuns
import ScriptEngine.Proofs.ShortTexts
import ScriptEngine.Proofs.Simulation
import ScriptEngine.Proofs.SingleNames
import ScriptEngine.Proofs.Slices
import ScriptEngine.Proofs.SourceNames
import ScriptEngine.Proofs.SourcePositions
import ScriptEngine.Proofs.SourceTokens
import ScriptEngine.Proofs.StackNeutral
import ScriptEngine.Proofs.StoreOrder
import ScriptEngine.Proofs.StructuralEquality
import ScriptEngine.Proofs.Submissions
import ScriptEngine.Proofs.TextPieces
import ScriptEngine.Proofs.TokenProgress
import ScriptEngine.Proofs.TreeHeight
import ScriptEngine.Proofs.TreeInvariant
import ScriptEngine.Proofs.TreePrinter
import ScriptEngine.Proofs.TreeSpans
import ScriptEngine.Proofs.TreeVolume
import ScriptEngine.Proofs.Unfoldings
import ScriptEngine.Proofs.UnreachableCode
import ScriptEngine.Proofs.ValidatedCode
import ScriptEngine.Proofs.Variables
import ScriptEngine.Proofs.WrittenLocals
import ScriptEngine.Proofs.WrittenOnce
import ScriptEngine.Record
import ScriptEngine.ScriptUnit
import ScriptEngine.Session
import ScriptEngine.Session.Phase
import ScriptEngine.Session.Report
import ScriptEngine.Span
import ScriptEngine.Stack
import ScriptEngine.Symbol
import ScriptEngine.Text.Blank
import ScriptEngine.Text.Extender
import ScriptEngine.Text.Invisible
import ScriptEngine.Text.Quoted
import ScriptEngine.Text.Ranges
import ScriptEngine.Token
import ScriptEngine.Token.Lexer
import ScriptEngine.Toml
import ScriptEngine.Toml.Quoted
import ScriptEngine.Toml.Reader
import ScriptEngine.Toml.Scalar
import ScriptEngine.Tree
import ScriptEngine.Tree.Outline
import ScriptEngine.Tree.Parser
import ScriptEngine.Tree.SyntaxError
import ScriptEngine.Value
import ScriptEngine.Value.Equality
import ScriptEngine.Value.Operation
import ScriptEngine.Value.Reach
import ScriptEngine.Value.Render
