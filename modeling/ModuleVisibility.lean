import ModuleVisibility.Main
import ModuleVisibility.Proofs.MemberTable
import ModuleVisibility.Proofs.UseGraph
import ModuleVisibility.Proofs.CycleSearch
import ModuleVisibility.Proofs.Compose
import ModuleVisibility.Proofs.Flattening
import ModuleVisibility.Proofs.Entry
import ModuleVisibility.Proofs.Origin
import ModuleVisibility.Proofs.Recursion
import ModuleVisibility.Proofs.Collection
import ModuleVisibility.Proofs.CycleReport
import ModuleVisibility.Proofs.Analysis
import ModuleVisibility.Proofs.Access
import ModuleVisibility.Proofs.Execution
import ModuleVisibility.Proofs.Violation
import ModuleVisibility.Proofs.Resolution
import ModuleVisibility.Proofs.Provider
import ModuleVisibility.Proofs.Degradation
import ModuleVisibility.Proofs.Cycle
import ModuleVisibility.Proofs.Layering
import ModuleVisibility.Proofs.CyclicTraits
import ModuleVisibility.Proofs.CutCycles
import ModuleVisibility.Proofs.SearchLoop
import ModuleVisibility.Proofs.Renumbering
import ModuleVisibility.Proofs.Declaring
import ModuleVisibility.Proofs.Reordering
import ModuleVisibility.Proofs.CycleOrder
import ModuleVisibility.Proofs.GenuineCycle
import ModuleVisibility.Proofs.RenumberedComposition
import ModuleVisibility.Proofs.RenumberedFlattening
import ModuleVisibility.Proofs.RenumberedCheck
import ModuleVisibility.Proofs.Wording
import ModuleVisibility.Proofs.OrderIndependence
import ModuleVisibility.Proofs.Collision
import ModuleVisibility.Proofs.CollisionReport
import ModuleVisibility.Proofs.Narrowing
import ModuleVisibility.Proofs.Coverage
import ModuleVisibility.Proofs.Revision
import ModuleVisibility.Proofs.RevisedCheck
import ModuleVisibility.Proofs.ListEdit
import ModuleVisibility.Proofs.Opening
import ModuleVisibility.Proofs.Monotonicity
import ModuleVisibility.Proofs.Rewiring
import ModuleVisibility.Proofs.DeclarationSite
import ModuleVisibility.Proofs.RewiredCheck
import ModuleVisibility.Proofs.RewiredFlattening
import ModuleVisibility.Proofs.RewiredAnalysis
import ModuleVisibility.Proofs.ErasedClause
import ModuleVisibility.Proofs.InertClause
import ModuleVisibility.Proofs.PermutedClauses
import ModuleVisibility.Proofs.IndependentClauses
import ModuleVisibility.Proofs.Diamond
import ModuleVisibility.Proofs.ExtendedSearch
import ModuleVisibility.Proofs.Extension
import ModuleVisibility.Proofs.ExtendedFlattening
import ModuleVisibility.Proofs.ExtendedCheck
import ModuleVisibility.Proofs.Appending
import ModuleVisibility.Proofs.Frame
import ModuleVisibility.Proofs.Scan
import ModuleVisibility.Proofs.Reading
import ModuleVisibility.Proofs.Composer
import ModuleVisibility.Proofs.Place
import ModuleVisibility.Proofs.ErrorReporting
import ModuleVisibility.Proofs.CollectedProgram
import ModuleVisibility.Proofs.TextPosition
import ModuleVisibility.Proofs.TokenText
import ModuleVisibility.Proofs.ReadPlaces
import ModuleVisibility.Proofs.Location
import ModuleVisibility.Proofs.PlainSyntax
import ModuleVisibility.Proofs.PlainLexing
import ModuleVisibility.Proofs.PlainScan
import ModuleVisibility.Proofs.PlainReading
import ModuleVisibility.Proofs.RoundTrip
import ModuleVisibility.Proofs.LexemeShape
import ModuleVisibility.Proofs.TokenSpelling
import ModuleVisibility.Proofs.HiddenText
import ModuleVisibility.Proofs.ContinuedText
import ModuleVisibility.Proofs.ContinuedReading
import ModuleVisibility.Proofs.Balance
import ModuleVisibility.Proofs.Nesting
import ModuleVisibility.Proofs.Recovery
import ModuleVisibility.Proofs.FailedReading
import ModuleVisibility.Proofs.NamespaceScope
import ModuleVisibility.Proofs.Guarded.Basic
import ModuleVisibility.Proofs.Guarded.Lexer
import ModuleVisibility.Proofs.Guarded.Stretch
import ModuleVisibility.Proofs.Guarded.Lexing
import ModuleVisibility.Proofs.Guarded.Scan
import ModuleVisibility.Proofs.Guarded.Walk
import ModuleVisibility.Proofs.Guarded.Body
import ModuleVisibility.Proofs.Guarded.Unit
import ModuleVisibility.Proofs.Guarded.Lines
import ModuleVisibility.Proofs.Guarded.FrontEnd
import ModuleVisibility.Proofs.PathSteps
import ModuleVisibility.Proofs.Descent
import ModuleVisibility.Proofs.SettingsSearch
import ModuleVisibility.Proofs.Heredoc
import ModuleVisibility.Proofs.StatementScan
import ModuleVisibility.Proofs.TypeArguments
import ModuleVisibility.Proofs.NameUse
import ModuleVisibility.Proofs.TokenReading
import ModuleVisibility.Proofs.Respelling
import ModuleVisibility.Proofs.Brackets
import ModuleVisibility.Proofs.Assignment
import ModuleVisibility.Proofs.ConstantStatement
import ModuleVisibility.Proofs.MemberInitializer
import ModuleVisibility.Proofs.QualifiedName
import ModuleVisibility.Proofs.StoredName
import ModuleVisibility.Proofs.NameSpelling
import ModuleVisibility.Proofs.FileSection
import ModuleVisibility.Proofs.LineTable
import ModuleVisibility.Proofs.ModuleHistory
import ModuleVisibility.Proofs.SymbolHistory
import ModuleVisibility.Proofs.Grading
import ModuleVisibility.Proofs.SettingsWarnings
import ModuleVisibility.Proofs.ReportTotals
import ModuleVisibility.Proofs.ProperTree
import ModuleVisibility.Proofs.FileDiscovery
import ModuleVisibility.Proofs.Excerpt
