import FormStaging.CodeStructure
import FormStaging.Decimal.Binary64
import FormStaging.Decimal.Shortest
import FormStaging.DependencySet
import FormStaging.Diagnostic
import FormStaging.FirstOccurrence
import FormStaging.FormArgument
import FormStaging.FormData
import FormStaging.Graph.Basic
import FormStaging.Graph.Equality
import FormStaging.Graph.Indexing
import FormStaging.Graph.Rebuild
import FormStaging.Graph.Unfold
import FormStaging.Graph.Walk
import FormStaging.Index
import FormStaging.Label
import FormStaging.Misuse
import FormStaging.Node
import FormStaging.Node.Profile
import FormStaging.Rendering.Graph
import FormStaging.Rendering.Layout
import FormStaging.Rendering.Term
import FormStaging.SlotTable
import FormStaging.Sorting
import FormStaging.Staging.Expression
import FormStaging.Staging.Registration
import FormStaging.Staging.Settings
import FormStaging.Staging.Split
import FormStaging.Staging.State
import FormStaging.Term
import FormStaging.Text.EditDistance
import FormStaging.Proofs.CodeStructure.Grouping
import FormStaging.Proofs.FirstOccurrence
import FormStaging.Proofs.LabelSupply
import FormStaging.Proofs.Graph.PostOrder
import FormStaging.Proofs.Graph.Reachability
import FormStaging.Proofs.Graph.Occurrences
import FormStaging.Proofs.Graph.Variables
import FormStaging.Proofs.Sharing
import FormStaging.Proofs.Staging.Runs
import FormStaging.Proofs.Staging.Derivation
import FormStaging.Proofs.Staging.Soundness
import FormStaging.Proofs.Staging.Outcome
import FormStaging.Proofs.Staging.Room
import FormStaging.Proofs.Graph.Expansion
import FormStaging.Proofs.Staging.Transport
import FormStaging.Proofs.Meaning
import FormStaging.Proofs.DependencySet
import FormStaging.Proofs.Staging.Settled
import FormStaging.Proofs.Graph.Layers
import FormStaging.Proofs.Dependencies
import FormStaging.Proofs.Emission
import FormStaging.Proofs.Staging.NormalForm
import FormStaging.Proofs.Staging.Replay
import FormStaging.Proofs.Idempotence
import FormStaging.Proofs.Canonical
import FormStaging.Proofs.CodeStructure.WellFormed
import FormStaging.Proofs.Promotion
import FormStaging.Proofs.Staging.Failures
import FormStaging.Proofs.Staging.Agreement
import FormStaging.Proofs.Graph.Nesting
import FormStaging.Proofs.Graph.Paths
import FormStaging.Proofs.Failures
import FormStaging.Proofs.Profiles
import FormStaging.Proofs.Staging.Entries
import FormStaging.Proofs.Staging.Memos
import FormStaging.Proofs.Staging.Calls
import FormStaging.Proofs.Resplitting
import FormStaging.Proofs.Contents
import FormStaging.Proofs.Freshness
import FormStaging.Proofs.Depth
import FormStaging.Proofs.Staging.Layers
import FormStaging.Proofs.Staging.Retries
import FormStaging.Proofs.CodeStructure.Extension
import FormStaging.Proofs.FailedCalls
import FormStaging.Proofs.Staging.Ranks
import FormStaging.Proofs.Validation
import FormStaging.Proofs.Graph.Equality
import FormStaging.Proofs.Registration
import FormStaging.Proofs.Staging.Reuse
import FormStaging.Proofs.Reuse
import FormStaging.Proofs.Graph.Copies
import FormStaging.Proofs.Staging.Renaming
import FormStaging.Proofs.Staging.RenamedRuns
import FormStaging.Proofs.Relabelling
import FormStaging.Proofs.Rendering.Positions
import FormStaging.Proofs.Rendering.Spans
import FormStaging.Proofs.Diagnostics
import FormStaging.Proofs.Text.Brackets
import FormStaging.Proofs.Rendering.Unambiguous
import FormStaging.Proofs.FormData
import FormStaging.Proofs.Sorting
import FormStaging.Proofs.SlotNumbering
import FormStaging.Proofs.Graph.Profile
import FormStaging.Proofs.FreeIndices
import FormStaging.Proofs.Indexing
import FormStaging.Proofs.Graph.Spreading
import FormStaging.Proofs.IndexDimensions
import FormStaging.Proofs.Repeats
import FormStaging.Proofs.DependencyLattice
import FormStaging.Proofs.CodeStructure.Reordering
