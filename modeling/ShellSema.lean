import ShellSema.Analysis.Arguments
import ShellSema.Analysis.Callee
import ShellSema.Analysis.Closures
import ShellSema.Analysis.Construction
import ShellSema.Analysis.Error
import ShellSema.Analysis.Imports
import ShellSema.Analysis.Literals
import ShellSema.Analysis.Names
import ShellSema.Analysis.Run
import ShellSema.Analysis.SemanticToken
import ShellSema.Analysis.Session
import ShellSema.Analysis.State
import ShellSema.Analysis.Walk
import ShellSema.CommandLine.Arguments
import ShellSema.CommandLine.Files
import ShellSema.CommandLine.Path
import ShellSema.CommandLine.Run
import ShellSema.Constant
import ShellSema.Format.AnalysisUnit
import ShellSema.Format.Constant
import ShellSema.Format.Scope
import ShellSema.Format.Signature
import ShellSema.Format.Source
import ShellSema.Format.Syntax
import ShellSema.Handle
import ShellSema.Input.AnalysisUnit
import ShellSema.Json.Basic
import ShellSema.Json.Lexeme
import ShellSema.Json.Reader
import ShellSema.Json.Record
import ShellSema.Json.Writer
import ShellSema.Library.Bindings
import ShellSema.Library.Standard
import ShellSema.Main
import ShellSema.NameSet
import ShellSema.Number.Binary64
import ShellSema.Number.Decimal
import ShellSema.Number.Digits
import ShellSema.Number.Literal
import ShellSema.Scope.Edit
import ShellSema.Scope.Label
import ShellSema.Scope.Symbol
import ShellSema.Scope.Tree
import ShellSema.Settings
import ShellSema.Signature
import ShellSema.Source
import ShellSema.Syntax.Basic
import ShellSema.Syntax.Build
import ShellSema.Syntax.Nodes
import ShellSema.Syntax.Operator
import ShellSema.Table
import ShellSema.Text.Blank
import ShellSema.Text.Parts
import ShellSema.Toml.Number
import ShellSema.Toml.Reader
import ShellSema.Toml.Scalar
import ShellSema.Toml.Value
import ShellSema.Proofs.Actions
import ShellSema.Proofs.Plan
import ShellSema.Proofs.Trees
import ShellSema.Proofs.Visits
import ShellSema.Proofs.Edits
import ShellSema.Proofs.Keeping
import ShellSema.Proofs.Walks
import ShellSema.Proofs.Chains
import ShellSema.Proofs.Closed
import ShellSema.Proofs.Safety
import ShellSema.Proofs.SafeActions
import ShellSema.Proofs.CrashFree
import ShellSema.Proofs.SessionSafety
import ShellSema.Proofs.Results
import ShellSema.Proofs.ModuleVisits
import ShellSema.Proofs.Counts
import ShellSema.Proofs.Declared
import ShellSema.Proofs.Growth
import ShellSema.Proofs.ClosureRuns
import ShellSema.Proofs.Captures
import ShellSema.Proofs.Linking
import ShellSema.Proofs.Lookups
import ShellSema.Proofs.Pending
import ShellSema.Proofs.Visibility
import ShellSema.Proofs.ModuleVisibility
import ShellSema.Proofs.Unlinked
import ShellSema.Proofs.SessionVisibility
import ShellSema.Proofs.Courses
import ShellSema.Proofs.ModuleRuns
import ShellSema.Proofs.Moments
import ShellSema.Proofs.Resolved
import ShellSema.Proofs.Leaves
import ShellSema.Proofs.OwnModule
import ShellSema.Proofs.Sessions
import ShellSema.Proofs.Budgets
import ShellSema.Proofs.Requests
import ShellSema.Proofs.Schedule
import ShellSema.Proofs.Signatures
import ShellSema.Proofs.Territory
import ShellSema.Proofs.Unaffected
import ShellSema.Proofs.Alike
import ShellSema.Proofs.InStep
import ShellSema.Proofs.Parallel
import ShellSema.Proofs.ModuleOrder
import ShellSema.Proofs.Paths
import ShellSema.Proofs.Surroundings
import ShellSema.Proofs.Qualified
import ShellSema.Proofs.Inheritance
import ShellSema.Proofs.ClosureCalls
import ShellSema.Proofs.Placements
import ShellSema.Proofs.CaptureSources
import ShellSema.Proofs.CapturePrecision
import ShellSema.Proofs.Annotations
import ShellSema.Proofs.Recording
import ShellSema.Proofs.Noting
import ShellSema.Proofs.TokenCoverage
import ShellSema.Proofs.FunctionRuns
import ShellSema.Proofs.Carriers
import ShellSema.Proofs.CarrierThreading
import ShellSema.Proofs.Outlines
import ShellSema.Proofs.Recalling
import ShellSema.Proofs.Onward
import ShellSema.Proofs.Arriving
import ShellSema.Proofs.Repeating
import ShellSema.Proofs.Rereading
import ShellSema.Proofs.Retracing
import ShellSema.Proofs.Reanalysis
import ShellSema.Proofs.StoredTrees
import ShellSema.Proofs.Traces
import ShellSema.Proofs.Tallies
import ShellSema.Proofs.ClosureNumbers
import ShellSema.Proofs.EnclosingLinks
import ShellSema.Proofs.Extent
import ShellSema.Proofs.Failing
import ShellSema.Proofs.Aftermath
import ShellSema.Proofs.Occurrences
import ShellSema.Proofs.FunctionStatuses
import ShellSema.Proofs.ImportQueues
import ShellSema.Proofs.FineTrees
import ShellSema.Proofs.Validity
import ShellSema.Proofs.Decoding
import ShellSema.Proofs.ExpressionFormat
import ShellSema.Proofs.Pipelines
import ShellSema.Proofs.UnitFormat
import ShellSema.Proofs.ImportResolution
import ShellSema.Proofs.Defaults
import ShellSema.Proofs.ParameterLists
import ShellSema.Proofs.ConstantDefaults
import ShellSema.Proofs.RootFlags
import ShellSema.Proofs.References
import ShellSema.Proofs.FloatTexts
import ShellSema.Proofs.WrittenConstants
import ShellSema.Proofs.HeldFloats
import ShellSema.Proofs.Raising
import ShellSema.Proofs.ErrorPlaces
import ShellSema.Proofs.LostPipes
import ShellSema.Proofs.IntegerLiterals
import ShellSema.Proofs.ModuleTrees
import ShellSema.Proofs.ModulePaths
import ShellSema.Proofs.EnvironmentNames
import ShellSema.Proofs.PrivateModules
import ShellSema.Proofs.LogFilters
import ShellSema.Proofs.WellFormedTrees
import ShellSema.Proofs.TreeOperations
