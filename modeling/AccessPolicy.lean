import AccessPolicy.Compile
import AccessPolicy.Document.Result
import AccessPolicy.Evaluator
import AccessPolicy.Json.Reader
import AccessPolicy.Semantics.Decision
import AccessPolicy.Semantics.Typing
import AccessPolicy.Proofs.Hierarchy.Links
import AccessPolicy.Proofs.Hierarchy.NestedSet
import AccessPolicy.Proofs.ActionTree
import AccessPolicy.Proofs.Graph.Building
import AccessPolicy.Proofs.Graph.Trees
import AccessPolicy.Proofs.Graph.Sharing
import AccessPolicy.Proofs.Graph.HashedTable
import AccessPolicy.Proofs.Graph.HashedGraph
import AccessPolicy.Proofs.Evaluation.Memo
import AccessPolicy.Proofs.Evaluation.Reading
import AccessPolicy.Proofs.Evaluation.Lowering
import AccessPolicy.Proofs.Rules
import AccessPolicy.Proofs.Compile
import AccessPolicy.Proofs.Cache.Recency
import AccessPolicy.Proofs.Matching
import AccessPolicy.Proofs.Interpretation
import AccessPolicy.Proofs.Cache.Key
import AccessPolicy.Proofs.SharedCache
import AccessPolicy.Proofs.Hierarchy.Forest
import AccessPolicy.Proofs.ActionOrder
import AccessPolicy.Proofs.Verification
import AccessPolicy.Proofs.Rendering
import AccessPolicy.Proofs.Evaluation.Demand
import AccessPolicy.Proofs.Evaluation.Simulation
import AccessPolicy.Proofs.Evaluation.ReadOrder
import AccessPolicy.Proofs.Typing
import AccessPolicy.Proofs.Graph.Types
import AccessPolicy.Proofs.Graph.TypeChecking
import AccessPolicy.Proofs.Graph.History
import AccessPolicy.Proofs.Conformance
import AccessPolicy.Proofs.Validation
import AccessPolicy.Proofs.WellFormed
import AccessPolicy.Proofs.SubjectDependence
import AccessPolicy.Proofs.RoleIndependence
import AccessPolicy.Proofs.SchemaVersion
import AccessPolicy.Cache.History
import AccessPolicy.Proofs.Cache.History
import AccessPolicy.Proofs.ActiveRoles
import AccessPolicy.Proofs.Document.FieldOrder
import AccessPolicy.Proofs.Document.RoundTrip
import AccessPolicy.Proofs.Cache.Inclusion
import AccessPolicy.Semantics.PositionSet
import AccessPolicy.Proofs.PositionSet
import AccessPolicy.Proofs.ActionClosure
import AccessPolicy.Proofs.DecisionDetail
import AccessPolicy.Proofs.Graph.Appending
import AccessPolicy.Proofs.MemberLookup
import AccessPolicy.Proofs.Number.Integers
import AccessPolicy.Proofs.QueryCost
import AccessPolicy.Proofs.Graph.DeclaredTypes
import AccessPolicy.Proofs.Hierarchy.Faults
import AccessPolicy.Proofs.Hierarchy.Intervals
import AccessPolicy.Proofs.Settings
