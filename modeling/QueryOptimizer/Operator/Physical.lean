import QueryOptimizer.Operator.Parameters
import QueryOptimizer.Property.Distribution

/-!
# Physical operators

The operators that say how a query is carried out. Sorts and motions are enforcers: they change
nothing about the rows of a relation but their order or their place.
-/

namespace QueryOptimizer

/-- How a query is carried out in one step. -/
inductive PhysicalOperator where
  | tableScan (scan : Scan)
  | dynamicTableScan (scan : DynamicScan)
  | valuesScan (values : Values)
  | filter (predicate : Scalar)
  | compute (definitions : List Definition)
  | hashAggregate (grouping : Grouping)
  | limit (limit : Limit)
  | hashJoin (join : Join)
  | nestedLoopJoin (join : Join)
  | indexNestedLoopJoin (apply : Apply)
  | unionAll (operation : SetOperation)
  | hashSetOp (operation : SetOperation)
  | sort (order : SortOrder)
  | sequence (id : Nat)
  | cteProducer (producer : CteProducer)
  | cteConsumer (consumer : CteConsumer)
  | motion (motion : Motion)
  deriving BEq

namespace PhysicalOperator

/-- The name of the operator. -/
def name : PhysicalOperator → String
  | tableScan _ => "PhysicalTableScan"
  | dynamicTableScan _ => "PhysicalDynamicTableScan"
  | valuesScan _ => "PhysicalConstTableScan"
  | filter _ => "PhysicalFilter"
  | compute _ => "PhysicalComputeScalar"
  | hashAggregate _ => "PhysicalHashAgg"
  | limit _ => "PhysicalLimit"
  | hashJoin _ => "PhysicalHashJoin"
  | nestedLoopJoin _ => "PhysicalNestedLoopJoin"
  | indexNestedLoopJoin _ => "PhysicalIndexNestedLoopJoin"
  | unionAll _ => "PhysicalUnionAll"
  | hashSetOp _ => "PhysicalHashSetOp"
  | sort _ => "PhysicalSort"
  | sequence _ => "PhysicalSequence"
  | cteProducer _ => "PhysicalCteProducer"
  | cteConsumer _ => "PhysicalCteConsumer"
  | motion _ => "PhysicalMotion"

/-- The labelled texts of the operator's parameters. -/
def fields : PhysicalOperator → Fields
  | tableScan s => s.fields
  | dynamicTableScan s => s.fields
  | valuesScan v => v.fields
  | filter p => [p.field]
  | compute ds => [Definition.field "exprs" ds]
  | hashAggregate g => g.fields
  | limit l => l.fields
  | hashJoin j | nestedLoopJoin j => j.fields
  | indexNestedLoopJoin a => a.fields
  | unionAll s | hashSetOp s => s.fields
  | sort o => [("orders", Text.quoted o.toText)]
  | sequence id => [("id", toString id)]
  | cteProducer p => p.fields
  | cteConsumer c => c.fields
  | motion m => [("kind", m.kind.toText), ("spec", Text.quoted m.target.toText)]

/-- The text of the operator. -/
def toText (op : PhysicalOperator) : String :=
  Text.record op.name op.fields

/-- The hash of all of the operator's parameters, also of those that a logical operator with
the same parameters leaves out. -/
def parameterHash : PhysicalOperator → UInt64
  | tableScan s => s.hashValue
  | dynamicTableScan s =>
    Hashing.ofParts "partitions" [s.hashValue, Column.hashSequence s.partitionKeys]
  | valuesScan v => v.hashValue
  | filter p => p.hashValue
  | compute ds => Hashing.ofParts "compute" (ds.map Definition.hashValue)
  | hashAggregate g => g.hashValue
  | limit l => l.hashValue
  | hashJoin j | nestedLoopJoin j => j.hashValue
  | indexNestedLoopJoin a => a.hashValue
  | unionAll s | hashSetOp s => s.hashValue
  | sort o => o.hashValue
  | sequence id => Hashing.ofNat id
  | cteProducer p => p.hashValue
  | cteConsumer c =>
    Hashing.ofParts "new names" [c.hashValue, Column.hashSequence c.producerCols]
  | motion m => m.target.hashValue

/-- The hash of the operator. Equal operators hash alike. -/
def hashValue (op : PhysicalOperator) : UInt64 :=
  Hashing.ofParts op.name [op.parameterHash]

/-- Whether the operator only changes the order or the place of rows. -/
def isEnforcer : PhysicalOperator → Bool
  | sort _ | motion _ => true
  | _ => false

end PhysicalOperator

end QueryOptimizer
