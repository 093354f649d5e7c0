import QueryOptimizer.Environment
import QueryOptimizer.Error
import QueryOptimizer.Property.Logical

/-!
# What is derived about relations

A logical operator has its properties and its statistics derived from those of its inputs. The
consumers of a common table expression have no inputs; they look the shared result up in a
`CteTable`.
-/

namespace QueryOptimizer

/-- What is derived about a relation. -/
structure Relation (K : Type) where
  property : LogicalProperty
  statistics : Statistics K
  deriving BEq

/-- The shared result of a common table expression, under the producer's columns. -/
structure CteInfo (K : Type) extends Relation K where
  cols : List Column

/-- The shared results by id. The first one with an id is the one that counts. -/
abbrev CteTable (K : Type) := List (Nat × CteInfo K)

namespace CteTable

variable {K : Type}

/-- The shared result with an id. -/
def find? (t : CteTable K) (id : Nat) : Option (CteInfo K) :=
  t.lookup id

/-- Enters a shared result, unless there is one with its id. -/
def register (t : CteTable K) (id : Nat) (info : CteInfo K) : CteTable K :=
  if (t.find? id).isSome then t else t ++ [(id, info)]

end CteTable

/-- The inputs of an operator. -/
abbrev Inputs (K : Type) := List (Relation K)

namespace Inputs

variable {K : Type}

/-- The input at a position, which must exist. -/
def get (inputs : Inputs K) (index : Nat) : OptResult (Relation K) :=
  elementAt "input" inputs index

/-- The columns of all inputs. -/
def output (inputs : Inputs K) : ColumnSet :=
  .unionAll (inputs.map (·.property.output))

/-- The columns that inputs use but do not produce. -/
def outerRefs (inputs : Inputs K) : ColumnSet :=
  .unionAll (inputs.map (·.property.outerRefs))

/-- The partitioned scans below all inputs. -/
def partitions (inputs : Inputs K) : PartitionInfo :=
  (inputs.map (·.property.partitions)).foldl PartitionInfo.combine {}

end Inputs

end QueryOptimizer
