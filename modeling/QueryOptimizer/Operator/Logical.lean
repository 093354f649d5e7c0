import QueryOptimizer.Operator.Parameters

/-!
# Logical operators

The operators that say what a query computes. The anchor of a common table expression has two
inputs, the producer of the shared result and the body that uses it; consumers are leaves and
find the producer by its id.
-/

namespace QueryOptimizer

/-- What a query computes in one step. -/
inductive LogicalOperator where
  | get (scan : Scan)
  | dynamicGet (scan : DynamicScan)
  | values (values : Values)
  | select (predicate : Scalar)
  | project (definitions : List Definition)
  | groupBy (grouping : Grouping)
  | limit (limit : Limit)
  | join (join : Join)
  | apply (apply : Apply)
  | setOp (operation : SetOperation)
  | cteAnchor (id : Nat)
  | cteProducer (producer : CteProducer)
  | cteConsumer (consumer : CteConsumer)
  deriving BEq

namespace LogicalOperator

/-- The name of the operator. -/
def name : LogicalOperator → String
  | get _ => "LogicalGet"
  | dynamicGet _ => "LogicalDynamicGet"
  | values _ => "LogicalConstTableGet"
  | select _ => "LogicalSelect"
  | project _ => "LogicalProject"
  | groupBy _ => "LogicalGroupBy"
  | limit _ => "LogicalLimit"
  | join _ => "LogicalJoin"
  | apply _ => "LogicalIndexApply"
  | setOp _ => "LogicalSetOp"
  | cteAnchor _ => "LogicalCteAnchor"
  | cteProducer _ => "LogicalCteProducer"
  | cteConsumer _ => "LogicalCteConsumer"

/-- The labelled texts of the operator's parameters. -/
def fields : LogicalOperator → Fields
  | get s => s.fields
  | dynamicGet s => s.fields
  | values v => v.fields
  | select p => [p.field]
  | project ds => [Definition.field "exprs" ds]
  | groupBy g => g.fields
  | limit l => l.fields
  | join j => j.fields
  | apply a => a.fields
  | setOp s => s.fields
  | cteAnchor id => [("id", toString id)]
  | cteProducer p => p.fields
  | cteConsumer c => c.fields

/-- The text of the operator. -/
def toText (op : LogicalOperator) : String :=
  Text.record op.name op.fields

/-- The hash of the operator. Equal operators hash alike. -/
def hashValue : LogicalOperator → UInt64
  | get s => Hashing.ofParts "get" [s.hashValue]
  | dynamicGet s => Hashing.ofParts "dynamic get" [s.hashValue]
  | values v => Hashing.ofParts "values" [v.hashValue]
  | select p => Hashing.ofParts "select" [p.hashValue]
  | project ds => Hashing.ofParts "project" (ds.map Definition.hashValue)
  | groupBy g => Hashing.ofParts "group by" [g.hashValue]
  | limit l => Hashing.ofParts "limit" [l.hashValue]
  | join j => Hashing.ofParts "join" [j.hashValue]
  | apply a => Hashing.ofParts "apply" [a.hashValue]
  | setOp s => Hashing.ofParts "set operation" [s.hashValue]
  | cteAnchor id => Hashing.ofParts "anchor" [Hashing.ofNat id]
  | cteProducer p => Hashing.ofParts "producer" [p.hashValue]
  | cteConsumer c => Hashing.ofParts "consumer" [c.hashValue]

/-- The columns that the operator itself refers to. -/
def usedColumns : LogicalOperator → ColumnSet
  | get _ | dynamicGet _ | values _ | cteAnchor _ | cteConsumer _ => .empty
  | select p => p.usedColumns
  | project ds => Definition.usedColumns ds
  | groupBy g => (ColumnSet.ofList g.keys).union (Definition.usedColumns g.aggregates)
  | limit l => l.order.usedColumns
  | join j => j.predicate.usedColumns
  | apply a => a.predicate.usedColumns.insertMany a.outer
  | setOp s => .ofList s.inputs.flatten
  | cteProducer p => .ofList p.cols

open Renaming in
/-- The operator with its columns renamed, in the order in which it shows them; an
expression comes before the column that it defines. The columns of a producer are not
renamed in its consumers. -/
def rename (fresh : Bool) : LogicalOperator → StateM Renaming LogicalOperator
  | get s => return get { s with cols := ← columns fresh s.cols }
  | dynamicGet s => do
    let cols ← columns fresh s.cols
    return dynamicGet { s with cols, partitionKeys := ← columns fresh s.partitionKeys }
  | values v => return values { v with cols := ← columns fresh v.cols }
  | select p => return select (← p.rename fresh)
  | project ds => return project (← ds.mapM (Definition.rename fresh))
  | groupBy g => do
    let keys ← columns fresh g.keys
    return groupBy ⟨keys, ← g.aggregates.mapM (Definition.rename fresh)⟩
  | limit l => return limit { l with order := ← l.order.rename fresh }
  | join j => return join { j with predicate := ← j.predicate.rename fresh }
  | apply a => do
    let predicate ← a.predicate.rename fresh
    return apply ⟨a.type, predicate, ← columns fresh a.outer⟩
  | setOp s => do
    let output ← columns fresh s.output
    return setOp ⟨s.kind, output, ← s.inputs.mapM (columns fresh)⟩
  | cteAnchor id => return cteAnchor id
  | cteProducer p => return cteProducer { p with cols := ← columns fresh p.cols }
  | cteConsumer c => return cteConsumer { c with cols := ← columns fresh c.cols }

end LogicalOperator

end QueryOptimizer
