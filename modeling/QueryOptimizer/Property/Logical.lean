import QueryOptimizer.Constraint.Property
import QueryOptimizer.Property.Keys
import QueryOptimizer.Property.Partition
import QueryOptimizer.Property.RowBound

/-!
# Logical properties

What is true of the rows of a relation however it is computed. All expressions of a memo group
share one logical property.
-/

namespace QueryOptimizer

/-- The properties of a relation that do not depend on how it is computed. -/
structure LogicalProperty where
  /-- The columns of its rows. -/
  output : ColumnSet := .empty
  /-- The columns that it uses but does not produce itself. -/
  outerRefs : ColumnSet := .empty
  keys : Keys := {}
  partitions : PartitionInfo := {}
  rowBound : RowBound := {}
  constraint : ConstraintProperty := {}
  deriving BEq

end QueryOptimizer
