import QueryPipeline.Compile
import QueryPipeline.Proofs.Binding.Expression
import QueryPipeline.Proofs.Semantics.Stage
import QueryPipeline.Proofs.Binding.Clauses
import QueryPipeline.Proofs.Emission.Expression
import QueryPipeline.Proofs.Semantics.Server
import QueryPipeline.Proofs.Emission.Filter
import QueryPipeline.Proofs.GroupProjection
import QueryPipeline.Proofs.Binding.Invariant
import QueryPipeline.Proofs.Binding.Paging
import QueryPipeline.Proofs.Binding.Evaluation
import QueryPipeline.Proofs.Answer
import QueryPipeline.Proofs.Term.Children
import QueryPipeline.Proofs.Grouping.Placement
import QueryPipeline.Proofs.Grouping.Binding
import QueryPipeline.Proofs.Grouping.Rows
import QueryPipeline.Proofs.Term.Transform
import QueryPipeline.Proofs.Grouping.Spelling
import QueryPipeline.Proofs.Grouping.Attachment
import QueryPipeline.Proofs.Grouping.Resolution
import QueryPipeline.Proofs.Term.Sameness
import QueryPipeline.Proofs.Emission.Reader
import QueryPipeline.Proofs.Emission.Reading
import QueryPipeline.Proofs.Emission.Failure
import QueryPipeline.Proofs.Binding.Terms
import QueryPipeline.Proofs.Binding.Arrays
import QueryPipeline.Proofs.Binding.Rows
import QueryPipeline.Proofs.Grouping.Collection
import QueryPipeline.Proofs.Grouping.LastGroup
import QueryPipeline.Proofs.Grouping.Arrays
import QueryPipeline.Proofs.Grouping.Sharing
import QueryPipeline.Proofs.Options
import QueryPipeline.Proofs.Grouping.Faults
import QueryPipeline.Proofs.Binding.Matching
import QueryPipeline.Proofs.Binding.Renaming
import QueryPipeline.Proofs.Semantics.Group
import QueryPipeline.Proofs.Binding.CallFree
import QueryPipeline.Proofs.Binding.Group
import QueryPipeline.Proofs.Binding.Aggregate
import QueryPipeline.Proofs.Binding.Allowing
import QueryPipeline.Proofs.Term.Names
import QueryPipeline.Proofs.Binding.Sigils
import QueryPipeline.Proofs.Emission.Occurrences
import QueryPipeline.Proofs.Emission.Closure
import QueryPipeline.Proofs.Closed
import QueryPipeline.Proofs.Emission.Sorting
import QueryPipeline.Proofs.Binding.FreeNames
import QueryPipeline.Proofs.Quantifier
import QueryPipeline.Proofs.Binding.Distinct
import QueryPipeline.Proofs.Semantics.Unwinding
import QueryPipeline.Proofs.Binding.Flattening
import QueryPipeline.Proofs.Binding.Inheritance
import QueryPipeline.Proofs.Grouping.Keys
import QueryPipeline.Proofs.Emission.Leaves
import QueryPipeline.Proofs.Emission.Patterns
import QueryPipeline.Proofs.Binding.ItemCodecs
import QueryPipeline.Proofs.Emission.Conformance
import QueryPipeline.Proofs.Emission.Lowering
import QueryPipeline.Proofs.Binding.Folding
import QueryPipeline.Proofs.Binding.Arithmetic
import QueryPipeline.Proofs.Binding.Scoping
import QueryPipeline.Proofs.Binding.Tracing
import QueryPipeline.Proofs.Emission.Members
import QueryPipeline.Proofs.Binding.OpenSort
import QueryPipeline.Proofs.Binding.Throughout
import QueryPipeline.Proofs.Emission.Projection
import QueryPipeline.Proofs.Binding.Ledger
import QueryPipeline.Proofs.Term.SelfSame
import QueryPipeline.Proofs.Grouping.Outputs
