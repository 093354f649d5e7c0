import QueryOptimizer.Memo.Tree
import QueryOptimizer.Rule.Pattern

/-!
# Rules about limits

A limit moves down through a projection, so that less is computed, and two limits become one.
-/

namespace QueryOptimizer

variable {K : Type}

namespace LimitRule

/-- A limit over an operator that passes a test. -/
def limitOver (accepts : Operator → Bool) : Pattern :=
  .node (·.limit?.isSome) [.leaf accepts]

/-- A limit over a projection changes places with it, unless it sorts by a column that the
projection computes. -/
def pushBelowProject (m : Memo K) (t : ExprTree) : OptResult (Option ExprTree) := do
  let l ← t.rootAs m Operator.limit?
  let input ← t.input 0
  let ds ← input.rootAs m Operator.project?
  if l.order.usedColumns.isDisjoint (.ofList (Definition.columns ds)) then
    let limited : ExprTree := .operator (.logical (.limit l)) input.inputs
    return some (.operator (.logical (.project ds)) [limited])
  else return none

/-- A limit over a limit becomes one limit, if there is one that does the same. -/
def merge (m : Memo K) (t : ExprTree) : OptResult (Option ExprTree) := do
  let outer ← t.rootOperator m
  let input ← t.input 0
  let inner ← input.rootOperator m
  match outer.limit?, inner.limit? with
  | some outer, some inner =>
    return (outer.mergeOver inner).map fun l => .operator (.logical (.limit l)) input.inputs
  | _, _ => throw .patternMismatch

end LimitRule

end QueryOptimizer
