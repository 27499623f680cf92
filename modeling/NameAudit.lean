import NameAudit.Analysis
import NameAudit.Proofs.Arena
import NameAudit.Proofs.Growth
import NameAudit.Proofs.Forest
import NameAudit.Proofs.Ancestors
import NameAudit.Proofs.Tally
import NameAudit.Proofs.Sites
import NameAudit.Proofs.Inside
import NameAudit.Proofs.Logs
import NameAudit.Proofs.Recording
import NameAudit.Proofs.Walk
import NameAudit.Proofs.Build
import NameAudit.Proofs.Parts
import NameAudit.Proofs.WellFormed
import NameAudit.Proofs.LoadingOrder
import NameAudit.Proofs.BuiltGraphs
import NameAudit.Proofs.Chains
import NameAudit.Proofs.Assembly
import NameAudit.Proofs.EvaluationOrder
import NameAudit.Proofs.Definedness
import NameAudit.Proofs.CheckedReferences
import NameAudit.Proofs.Findings
import NameAudit.Proofs.LateDefinitions
import NameAudit.Proofs.StrictDependencies
import NameAudit.Proofs.FindingOrder
import NameAudit.Proofs.Passage
import NameAudit.Proofs.Descent
import NameAudit.Proofs.Visits
import NameAudit.Proofs.Bindings
import NameAudit.Proofs.Shadowing
import NameAudit.Proofs.Assignments
import NameAudit.Proofs.FunctionDeclarations
import NameAudit.Proofs.Comments
import NameAudit.Proofs.FunctionScopes
import NameAudit.Proofs.InheritedStatics
import NameAudit.Proofs.Lockstep
import NameAudit.Proofs.VeiledPrograms
import NameAudit.Proofs.VeiledChecks
import NameAudit.Proofs.Suppressions
import NameAudit.Proofs.Additions
import NameAudit.Proofs.Outlines
import NameAudit.Proofs.LostKnowledge
import NameAudit.Proofs.AddedDependencies
import NameAudit.Proofs.LostKinds
import NameAudit.Proofs.PrototypeMembers
import NameAudit.Proofs.InheritedMembers
import NameAudit.Proofs.TokenStream
import NameAudit.Proofs.DeclaredPatterns
import NameAudit.Proofs.ArrowParameters
import NameAudit.Proofs.RestParameters
import NameAudit.Proofs.WrittenPlaces
import NameAudit.Proofs.Progress
import NameAudit.Proofs.StatementRegions
import NameAudit.Proofs.StringLiterals
import NameAudit.Proofs.Templates
import NameAudit.Proofs.PrintedTrees
import NameAudit.Proofs.ContinuedFunctions
import NameAudit.Proofs.EscapedNames
import NameAudit.Proofs.LineEnds
import NameAudit.Proofs.FixedTexts
import NameAudit.Proofs.AliasChains
import NameAudit.Proofs.AliasEquivalents
import NameAudit.Proofs.AddedNames
import NameAudit.Proofs.NumberTexts
import NameAudit.Proofs.QualifiedNames
import NameAudit.Proofs.ObjectMembers
import NameAudit.Proofs.SuppressedGroups
import NameAudit.Proofs.ChainsAndStars
import NameAudit.Proofs.StuckChunks
