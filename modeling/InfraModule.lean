import InfraModule.Analysis
import InfraModule.Arn
import InfraModule.Binding.Pass
import InfraModule.Binding.Rule
import InfraModule.Context
import InfraModule.Cycle
import InfraModule.Declaration
import InfraModule.Diagnostic
import InfraModule.Draft
import InfraModule.Expression
import InfraModule.Fault
import InfraModule.Findings
import InfraModule.Graph.Component
import InfraModule.Graph.Finder
import InfraModule.Graph.Preorder
import InfraModule.Graph.Representative
import InfraModule.Identifier
import InfraModule.Json.Basic
import InfraModule.Json.Text
import InfraModule.Json.Token
import InfraModule.Location
import InfraModule.Outcome
import InfraModule.Proofs.AnalysisRun
import InfraModule.Proofs.AnalysisSafety
import InfraModule.Proofs.ArnGrammar
import InfraModule.Proofs.Assembly
import InfraModule.Proofs.BindingCounts
import InfraModule.Proofs.BindingExactness
import InfraModule.Proofs.BindingOrder
import InfraModule.Proofs.BindingRun
import InfraModule.Proofs.BindingStep
import InfraModule.Proofs.BindingTally
import InfraModule.Proofs.Completion
import InfraModule.Proofs.Component
import InfraModule.Proofs.ComponentSearch
import InfraModule.Proofs.Conformance
import InfraModule.Proofs.Containment
import InfraModule.Proofs.CycleFinder
import InfraModule.Proofs.CycleLassos
import InfraModule.Proofs.CycleReports
import InfraModule.Proofs.CycleSearch
import InfraModule.Proofs.CycleSignature
import InfraModule.Proofs.Defaults
import InfraModule.Proofs.DependencySets
import InfraModule.Proofs.DepthFirst
import InfraModule.Proofs.Descriptions
import InfraModule.Proofs.Drafting
import InfraModule.Proofs.Enumeration
import InfraModule.Proofs.ErrorLog
import InfraModule.Proofs.Faults
import InfraModule.Proofs.Filing
import InfraModule.Proofs.Forest
import InfraModule.Proofs.Growth
import InfraModule.Proofs.JsonText
import InfraModule.Proofs.Legality
import InfraModule.Proofs.Loops
import InfraModule.Proofs.ModuleRules
import InfraModule.Proofs.NameIndex
import InfraModule.Proofs.OptionalChecks
import InfraModule.Proofs.Overwriting
import InfraModule.Proofs.Ownership
import InfraModule.Proofs.PassFrame
import InfraModule.Proofs.PropertyReports
import InfraModule.Proofs.PropertyShapes
import InfraModule.Proofs.Reachability
import InfraModule.Proofs.ReadBack
import InfraModule.Proofs.Reanalysis
import InfraModule.Proofs.ReportPlaces
import InfraModule.Proofs.Representative
import InfraModule.Proofs.ResourceRules
import InfraModule.Proofs.ReviewRun
import InfraModule.Proofs.SpecificationGaps
import InfraModule.Proofs.SpecificationText
import InfraModule.Proofs.TreeWalk
import InfraModule.Proofs.TypeScope
import InfraModule.Proofs.UnknownTypes
import InfraModule.Proofs.Validation
import InfraModule.Provider.Directory
import InfraModule.Provider.Document
import InfraModule.Provider.Shape
import InfraModule.Provider.Specification
import InfraModule.Registry
import InfraModule.Resource.Conformance
import InfraModule.Resource.Review
import InfraModule.Roster
import InfraModule.SymbolTable
import InfraModule.Tree.Basic
import InfraModule.Tree.Integrity
import InfraModule.Vocabulary
