import QueryOptimizer.Memo.Tree
import QueryOptimizer.Rule.Pattern
import QueryOptimizer.Statistics.Join

/-!
# Rules that choose physical operators

Each of these rules keeps the inputs of an expression and replaces its logical operator with a
physical one that has the same parameters.
-/

namespace QueryOptimizer

variable {K : Type}

namespace RuleId

/-- The physical operator that an implementation rule puts in place of a logical one. -/
def physical? : RuleId → LogicalOperator → Option PhysicalOperator
  | getToTableScan, .get s => some (.tableScan s)
  | dynamicGetToDynamicTableScan, .dynamicGet s => some (.dynamicTableScan s)
  | valuesToValuesScan, .values v => some (.valuesScan v)
  | selectToFilter, .select p => some (.filter p)
  | projectToCompute, .project ds => some (.compute ds)
  | groupByToHashAggregate, .groupBy g => some (.hashAggregate g)
  | limitToPhysicalLimit, .limit l => some (.limit l)
  | joinToHashJoin, .join j => some (.hashJoin j)
  | joinToNestedLoopJoin, .join j => some (.nestedLoopJoin j)
  | applyToIndexNestedLoopJoin, .apply a => some (.indexNestedLoopJoin a)
  | unionAllToPhysicalUnionAll, .setOp s =>
    if s.kind == .unionAll then some (.unionAll s) else none
  | setOpToHashSetOp, .setOp s => if s.kind == .unionAll then none else some (.hashSetOp s)
  | anchorToSequence, .cteAnchor id => some (.sequence id)
  | producerToPhysical, .cteProducer p => some (.cteProducer p)
  | consumerToPhysical, .cteConsumer c => some (.cteConsumer c)
  | _, _ => none

/-- The physical operator that an implementation rule puts in place of an operator. -/
def implementation? (r : RuleId) : Operator → Option PhysicalOperator
  | .logical op => r.physical? op
  | .physical _ => none

end RuleId

namespace ImplementationRule

/-- The operators that a rule can implement. -/
def implementable (r : RuleId) : Pattern :=
  .leaf fun op => (r.implementation? op).isSome

/-- Whether a physical operator can work on the inputs of a tree: a hash join needs an equality
of a left with a right column. -/
def canRun (m : Memo K) (t : ExprTree) : PhysicalOperator → OptResult Bool
  | .hashJoin j => do
    let left ← (← t.input 0).property m
    let right ← (← t.input 1).property m
    return !(JoinPredicate.ofPredicate j.predicate left.output right.output).equalities.isEmpty
  | _ => return true

/-- An expression with its operator implemented by a rule. -/
def apply (r : RuleId) (m : Memo K) (t : ExprTree) : OptResult (Option ExprTree) := do
  let op ← t.rootAs m r.implementation?
  if ← canRun m t op then return some (.operator (.physical op) t.inputs) else return none

end ImplementationRule

end QueryOptimizer
