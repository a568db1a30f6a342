import PredictiveParsing.Analysis.Basic
import PredictiveParsing.Analysis.Exploration
import PredictiveParsing.Analysis.Lookahead
import PredictiveParsing.Code.Basic
import PredictiveParsing.Code.Support
import PredictiveParsing.Dialect.Basic
import PredictiveParsing.Dialect.Journal
import PredictiveParsing.Dialect.Layout
import PredictiveParsing.Dialect.PythonModule
import PredictiveParsing.Dialect.RustProgram
import PredictiveParsing.Dialect.SourceToken
import PredictiveParsing.Generator
import PredictiveParsing.Grammar.Basic
import PredictiveParsing.Grammar.Reader
import PredictiveParsing.Naming.Identifier
import PredictiveParsing.NumberSet
import PredictiveParsing.Pattern.Basic
import PredictiveParsing.Pattern.Printer
import PredictiveParsing.Pattern.Reader
import PredictiveParsing.Plan.Construction
import PredictiveParsing.Plan.Step
import PredictiveParsing.Plan.Writing
import PredictiveParsing.Synthesis
import PredictiveParsing.Text.Quoted
import PredictiveParsing.Text.Lines
import PredictiveParsing.Text.Unprintable
import PredictiveParsing.Text.WhiteSpace
import PredictiveParsing.Proofs.Derivation
import PredictiveParsing.Proofs.FirstSet
import PredictiveParsing.Proofs.Exploration
import PredictiveParsing.Proofs.Lookahead
import PredictiveParsing.Proofs.Execution
import PredictiveParsing.Proofs.StepExecution
import PredictiveParsing.Proofs.PlanExecution
import PredictiveParsing.Proofs.Completeness
import PredictiveParsing.Proofs.LexemeText
import PredictiveParsing.Proofs.RuleText
import PredictiveParsing.Proofs.PrintedPattern
import PredictiveParsing.Proofs.PlainParser
import PredictiveParsing.Proofs.LeadingOrder
import PredictiveParsing.Proofs.RunPoint
import PredictiveParsing.Proofs.FirstToken
import PredictiveParsing.Proofs.TextLines
import PredictiveParsing.Proofs.GrammarText
import PredictiveParsing.Proofs.Termination
import PredictiveParsing.Proofs.Indentation
import PredictiveParsing.Proofs.PythonText
import PredictiveParsing.Proofs.PythonBlocks
import PredictiveParsing.Proofs.ClassRenaming
import PredictiveParsing.Proofs.Correspondence
import PredictiveParsing.Proofs.RenamedRoutine
import PredictiveParsing.Proofs.RoutineCalls
import PredictiveParsing.Proofs.SharedRules
import PredictiveParsing.Proofs.DistinctIdentifiers
import PredictiveParsing.Proofs.JournalReading
import PredictiveParsing.Proofs.CommentLines
import PredictiveParsing.Proofs.FirstMatch
import PredictiveParsing.Proofs.NullableMarks
import PredictiveParsing.Proofs.NameUses
import PredictiveParsing.Proofs.Hygiene
import PredictiveParsing.Proofs.ModuleNames
import PredictiveParsing.Proofs.MethodNames
import PredictiveParsing.Proofs.QuotedText
import PredictiveParsing.Proofs.RefusedNames
import PredictiveParsing.Proofs.NestingDepth
import PredictiveParsing.Proofs.DefiniteAssignment
import PredictiveParsing.Proofs.Grouping
import PredictiveParsing.Proofs.GrammarOutcome
import PredictiveParsing.Proofs.RuleLines
import PredictiveParsing.Proofs.ModuleImports
import PredictiveParsing.Proofs.SettledIdentifiers
import PredictiveParsing.Proofs.SteadyWriting
import PredictiveParsing.Proofs.DecisionLists
import PredictiveParsing.Proofs.CheckedBlocks
import PredictiveParsing.Proofs.EnteredRules
