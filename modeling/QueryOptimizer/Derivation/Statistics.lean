import QueryOptimizer.Derivation.Property
import QueryOptimizer.Statistics.SetOperation
import QueryOptimizer.Statistics.Source

/-!
# Derivation of statistics

The statistics of an operator's result, derived from those of its inputs. A relation that has
no rows by its logical property has empty statistics.
-/

namespace QueryOptimizer

variable {K : Type} [Quantity K]

open Quantity

namespace Limit

/-- The rows that are left of a number of rows. -/
def rowsAfter (l : Limit) (rows : K) : K :=
  let rest := larger (rows - ofNat l.offset) 0.0
  match l.count with
  | some n => smaller rest (ofNat n)
  | none => rest

end Limit

namespace SetOperation

/-- The inputs with their columns. -/
def statisticsInputs (s : SetOperation) (inputs : Inputs K) : List (Statistics.SetInput K) :=
  (inputs.zip s.inputs).map fun (i, cols) => ⟨i.statistics, cols⟩

/-- An operation on two inputs applied from the left to all inputs. There are at least two. -/
def foldStatistics (s : SetOperation) (inputs : Inputs K)
    (f : Statistics.SetInput K → Statistics.SetInput K → List Column → Statistics K) :
    OptResult (Statistics K) := do
  let input (index : Nat) : OptResult (Statistics.SetInput K) := do
    return ⟨(← inputs.get index).statistics, ← s.inputCols index⟩
  let first := f (← input 0) (← input 1) s.output
  ((List.range inputs.length).drop 2).foldlM
    (fun acc i => return f ⟨acc, s.output⟩ (← input i) s.output) first

/-- The statistics of a set operation. -/
def statistics (s : SetOperation) (config : Config K) (inputs : Inputs K) :
    OptResult (Statistics K) := do
  let all := Statistics.unionAllOf (s.statisticsInputs inputs) s.output
  match s.kind with
  | .unionAll => return all
  | .union => return all.groupBy config s.output []
  | .differenceAll => s.foldStatistics inputs (Statistics.differenceAll config)
  | .difference => s.foldStatistics inputs (Statistics.difference config)
  | .intersectAll => s.foldStatistics inputs (Statistics.intersectAll config)
  | .intersect => s.foldStatistics inputs (Statistics.intersect config)

end SetOperation

namespace JoinType

/-- The statistics of a join. -/
def statistics (type : JoinType) (predicate : Scalar) (config : Config K) (inputs : Inputs K) :
    OptResult (Statistics K) := do
  let left ← inputs.get 0
  let right ← inputs.get 1
  return Statistics.join config type left.statistics right.statistics
    (.ofPredicate predicate left.property.output right.property.output)

end JoinType

namespace LogicalOperator

/-- The statistics of the result, as the operator estimates them. -/
def estimate (op : LogicalOperator) (env : Environment K) (ctes : CteTable K)
    (inputs : Inputs K) : OptResult (Statistics K) := do
  match op with
  | get s => Statistics.ofTable env.catalog env.config s.table s.cols
  | dynamicGet s => Statistics.ofTable env.catalog env.config s.table s.cols
  | values v => return .ofRows v.cols v.rows
  | select p => (← inputs.get 0).statistics.filter env.catalog env.config p
  | project ds => return (← inputs.get 0).statistics.project ds
  | groupBy g =>
    return (← inputs.get 0).statistics.groupBy env.config g.keys
      (Definition.columns g.aggregates)
  | limit l =>
    let input := (← inputs.get 0).statistics
    return input.limit (l.rowsAfter input.rows)
  | join j => j.type.statistics j.predicate env.config inputs
  | apply a => a.type.statistics a.predicate env.config inputs
  | setOp s => s.statistics env.config inputs
  | cteAnchor _ => return (← inputs.get 1).statistics
  | cteProducer p => return (← inputs.get 0).statistics.restrict (.ofList p.cols)
  | cteConsumer c =>
    match ctes.find? c.id with
    | some info => return info.statistics.rename c.producerCols c.cols
    | none => throw (.unregisteredProducer c.id)

/-- The statistics of the result, whose logical property is `property`. -/
def statistics (op : LogicalOperator) (env : Environment K) (ctes : CteTable K)
    (inputs : Inputs K) (property : LogicalProperty) : OptResult (Statistics K) :=
  if env.isCancelled then throw .cancelled
  else if property.rowBound.isZero then return .empty property.output.toList
  else op.estimate env ctes inputs

/-- What is derived about the result of the operator. -/
def derive (op : LogicalOperator) (env : Environment K) (ctes : CteTable K)
    (inputs : Inputs K) : OptResult (Relation K) := do
  let property ← op.property env ctes inputs
  return { property, statistics := ← op.statistics env ctes inputs property }

end LogicalOperator

end QueryOptimizer
