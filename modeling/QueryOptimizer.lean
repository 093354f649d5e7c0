import QueryOptimizer.Catalog.Basic
import QueryOptimizer.Catalog.Memory
import QueryOptimizer.Column.Basic
import QueryOptimizer.Column.Renaming
import QueryOptimizer.Column.Set
import QueryOptimizer.Column.Table
import QueryOptimizer.Config
import QueryOptimizer.Constraint.Basic
import QueryOptimizer.Constraint.Interval
import QueryOptimizer.Constraint.Lookup
import QueryOptimizer.Constraint.Predicate
import QueryOptimizer.Constraint.Property
import QueryOptimizer.Constraint.Range
import QueryOptimizer.Cost
import QueryOptimizer.DataType
import QueryOptimizer.Datum
import QueryOptimizer.Delivery.Alternative
import QueryOptimizer.Delivery.Enforcement
import QueryOptimizer.Derivation.Basic
import QueryOptimizer.Derivation.Property
import QueryOptimizer.Derivation.Statistics
import QueryOptimizer.Environment
import QueryOptimizer.Error
import QueryOptimizer.Hashing
import QueryOptimizer.Memo.Basic
import QueryOptimizer.Memo.Insertion
import QueryOptimizer.Memo.Report
import QueryOptimizer.Memo.Tree
import QueryOptimizer.Memo.Winner
import QueryOptimizer.Number.Binary
import QueryOptimizer.Number.Binary64
import QueryOptimizer.Number.Decimal
import QueryOptimizer.Number.Quantity
import QueryOptimizer.Number.Reading
import QueryOptimizer.Operator.Basic
import QueryOptimizer.Operator.Kind
import QueryOptimizer.Operator.Logical
import QueryOptimizer.Operator.Parameters
import QueryOptimizer.Operator.Physical
import QueryOptimizer.Plan.Basic
import QueryOptimizer.Plan.Builder
import QueryOptimizer.Plan.Drawing
import QueryOptimizer.Proofs.Bare
import QueryOptimizer.Proofs.Constraint.Algebra
import QueryOptimizer.Proofs.Constraint.Arranged
import QueryOptimizer.Proofs.Constraint.Components
import QueryOptimizer.Proofs.Constraint.Gaps
import QueryOptimizer.Proofs.Constraint.Interval
import QueryOptimizer.Proofs.Constraint.Meaning
import QueryOptimizer.Proofs.Constraint.Mixed
import QueryOptimizer.Proofs.Constraint.Order
import QueryOptimizer.Proofs.Constraint.Predicate
import QueryOptimizer.Proofs.Constraint.Printing
import QueryOptimizer.Proofs.Constraint.Projection
import QueryOptimizer.Proofs.Constraint.Propagation
import QueryOptimizer.Proofs.Constraint.Property
import QueryOptimizer.Proofs.Constraint.Range
import QueryOptimizer.Proofs.Constraint.ReadBack
import QueryOptimizer.Proofs.Constraint.Renaming
import QueryOptimizer.Proofs.Constraint.Strategy
import QueryOptimizer.Proofs.Constraint.Strings
import QueryOptimizer.Proofs.Cost
import QueryOptimizer.Proofs.Delivery.Alternative
import QueryOptimizer.Proofs.Delivery.Feasible
import QueryOptimizer.Proofs.Delivery.Hashed
import QueryOptimizer.Proofs.Delivery.Placement
import QueryOptimizer.Proofs.Delivery.Satisfaction
import QueryOptimizer.Proofs.Derivation.Bounded
import QueryOptimizer.Proofs.Derivation.Constrained
import QueryOptimizer.Proofs.Derivation.Constraint
import QueryOptimizer.Proofs.Derivation.Counting
import QueryOptimizer.Proofs.Derivation.Emptiness
import QueryOptimizer.Proofs.Derivation.Invariant
import QueryOptimizer.Proofs.Derivation.Keys
import QueryOptimizer.Proofs.Derivation.Output
import QueryOptimizer.Proofs.Derivation.SetConstraint
import QueryOptimizer.Proofs.Derivation.Sizes
import QueryOptimizer.Proofs.Derivation.Totality
import QueryOptimizer.Proofs.Memo.Atomicity
import QueryOptimizer.Proofs.Memo.Coherence
import QueryOptimizer.Proofs.Memo.Entering
import QueryOptimizer.Proofs.Memo.Founding
import QueryOptimizer.Proofs.Memo.Grafting
import QueryOptimizer.Proofs.Memo.Held
import QueryOptimizer.Proofs.Memo.Marks
import QueryOptimizer.Proofs.Memo.Model
import QueryOptimizer.Proofs.Memo.Outline
import QueryOptimizer.Proofs.Memo.Rank
import QueryOptimizer.Proofs.Memo.Records
import QueryOptimizer.Proofs.Memo.Saturation
import QueryOptimizer.Proofs.Memo.Tree
import QueryOptimizer.Proofs.Memo.Winners
import QueryOptimizer.Proofs.Number.Comparison
import QueryOptimizer.Proofs.Number.Machine
import QueryOptimizer.Proofs.Number.Quantity
import QueryOptimizer.Proofs.Number.Rounding
import QueryOptimizer.Proofs.Plan.Loading
import QueryOptimizer.Proofs.Plan.Meaning
import QueryOptimizer.Proofs.Plan.Sharing
import QueryOptimizer.Proofs.Renaming.Copies
import QueryOptimizer.Proofs.Renaming.Growth
import QueryOptimizer.Proofs.Renaming.Substitution
import QueryOptimizer.Proofs.Result
import QueryOptimizer.Proofs.Rule.Binding
import QueryOptimizer.Proofs.Rule.Choice
import QueryOptimizer.Proofs.Rule.Join
import QueryOptimizer.Proofs.Rule.Limit
import QueryOptimizer.Proofs.Rule.Outcome
import QueryOptimizer.Proofs.Rule.Rewriting
import QueryOptimizer.Proofs.Rule.SetOperation
import QueryOptimizer.Proofs.Rule.Soundness
import QueryOptimizer.Proofs.Rule.Totality
import QueryOptimizer.Proofs.Rule.Vocabulary
import QueryOptimizer.Proofs.Rule.Weight
import QueryOptimizer.Proofs.Rule.Window
import QueryOptimizer.Proofs.Search.Applying
import QueryOptimizer.Proofs.Search.Bookkeeping
import QueryOptimizer.Proofs.Search.Bounds
import QueryOptimizer.Proofs.Search.Colocation
import QueryOptimizer.Proofs.Search.Completeness
import QueryOptimizer.Proofs.Search.Constraints
import QueryOptimizer.Proofs.Search.Copies
import QueryOptimizer.Proofs.Search.Delivery
import QueryOptimizer.Proofs.Search.Described
import QueryOptimizer.Proofs.Search.Equivalence
import QueryOptimizer.Proofs.Search.Exploration
import QueryOptimizer.Proofs.Search.Extraction
import QueryOptimizer.Proofs.Search.Failure
import QueryOptimizer.Proofs.Search.Finishing
import QueryOptimizer.Proofs.Search.Founding
import QueryOptimizer.Proofs.Search.Height
import QueryOptimizer.Proofs.Search.Implementation
import QueryOptimizer.Proofs.Search.Keys
import QueryOptimizer.Proofs.Search.Measure
import QueryOptimizer.Proofs.Search.Promises
import QueryOptimizer.Proofs.Search.Ranked
import QueryOptimizer.Proofs.Search.Reached
import QueryOptimizer.Proofs.Search.Readiness
import QueryOptimizer.Proofs.Search.Recording
import QueryOptimizer.Proofs.Search.Sizes
import QueryOptimizer.Proofs.Search.Spending
import QueryOptimizer.Proofs.Search.Stages
import QueryOptimizer.Proofs.Search.States
import QueryOptimizer.Proofs.Search.Stepping
import QueryOptimizer.Proofs.Search.Termination
import QueryOptimizer.Proofs.Search.Validity
import QueryOptimizer.Proofs.Semantics.Bare
import QueryOptimizer.Proofs.Semantics.Domain
import QueryOptimizer.Proofs.Semantics.Operator
import QueryOptimizer.Proofs.Semantics.Scalar
import QueryOptimizer.Proofs.Semantics.Scoping
import QueryOptimizer.Proofs.Semantics.Unique
import QueryOptimizer.Proofs.Semantics.Value
import QueryOptimizer.Proofs.Statistics.Commutation
import QueryOptimizer.Proofs.Statistics.Counting
import QueryOptimizer.Proofs.Statistics.Covering
import QueryOptimizer.Proofs.Statistics.Filtering
import QueryOptimizer.Proofs.Statistics.Fractions
import QueryOptimizer.Proofs.Statistics.RowBounds
import QueryOptimizer.Proofs.Statistics.Tally
import QueryOptimizer.Proofs.Statistics.WellFormed
import QueryOptimizer.Property.ByProperty
import QueryOptimizer.Property.Distribution
import QueryOptimizer.Property.Keys
import QueryOptimizer.Property.Logical
import QueryOptimizer.Property.Order
import QueryOptimizer.Property.Partition
import QueryOptimizer.Property.Physical
import QueryOptimizer.Property.RowBound
import QueryOptimizer.Rule.Basic
import QueryOptimizer.Rule.Binding
import QueryOptimizer.Rule.Id
import QueryOptimizer.Rule.Implementation
import QueryOptimizer.Rule.Join
import QueryOptimizer.Rule.Limit
import QueryOptimizer.Rule.Pattern
import QueryOptimizer.Rule.SetOperation
import QueryOptimizer.Scalar.Analysis
import QueryOptimizer.Scalar.Basic
import QueryOptimizer.Scalar.Operator
import QueryOptimizer.Search.Bound
import QueryOptimizer.Search.Optimization
import QueryOptimizer.Search.Stage
import QueryOptimizer.Search.Task
import QueryOptimizer.Search.Text
import QueryOptimizer.Sorting
import QueryOptimizer.Statistics.Basic
import QueryOptimizer.Statistics.Bucket
import QueryOptimizer.Statistics.Histogram
import QueryOptimizer.Statistics.Join
import QueryOptimizer.Statistics.Selectivity
import QueryOptimizer.Statistics.SetOperation
import QueryOptimizer.Statistics.Shaping
import QueryOptimizer.Statistics.Source
import QueryOptimizer.Statistics.Text
import QueryOptimizer.Text.CharSet
import QueryOptimizer.Text.Combining
import QueryOptimizer.Text.Layout
import QueryOptimizer.Text.Unprintable
