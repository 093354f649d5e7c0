import QueryOptimizer.Config
import QueryOptimizer.Error
import QueryOptimizer.Operator.Physical
import QueryOptimizer.Statistics.Basic

/-!
# Costs

The cost of one operator, without that of its inputs, as a number of units of work. It depends
on the estimated rows of the operator's result and of its inputs.
-/

namespace QueryOptimizer

namespace Cost

open Quantity

variable {K : Type} [Quantity K]

/-- The work of reading a row of hundred bytes less the work for these bytes. -/
def scanRow : K := 1.0

/-- The work of handling a row in memory. -/
def handleRow : K := 0.1

/-- The work of entering a row into a hash table. -/
def buildRow : K := 1.0

/-- The work of looking a row up in a hash table. -/
def probeRow : K := 0.5

/-- The work of sending a row to another segment. -/
def moveRow : K := 2.0

/-- The rows of an input, which must exist. -/
def inputRows (op : PhysicalOperator) (inputs : List (Statistics K)) (index : Nat) :
    OptResult K :=
  match inputs[index]? with
  | some s => .ok s.rows
  | none => .error (.inputNotCosted op.name index)

/-- The cost of an operator with the statistics of its result and of its inputs. -/
def ofOperator (config : Config K) (op : PhysicalOperator) (output : Statistics K)
    (inputs : List (Statistics K)) : OptResult K := do
  let rows := output.rows
  let input := inputRows op inputs
  match op with
  | .tableScan _ | .dynamicTableScan _ =>
    return rows * scanRow * (1.0 + output.rowWidth / 100.0)
  | .valuesScan _ | .cteConsumer _ => return rows * handleRow
  | .filter _ | .compute _ | .cteProducer _ => return (← input 0) * handleRow
  | .limit _ => return rows * handleRow
  | .hashAggregate _ => return (← input 0) * buildRow + rows * handleRow
  | .hashJoin _ =>
    let right ← input 1
    return right * buildRow + (← input 0) * probeRow + rows * handleRow
  | .nestedLoopJoin _ => return (← input 0) * (← input 1) * handleRow + rows * handleRow
  | .indexNestedLoopJoin _ =>
    let lookup := larger (log2 ((← input 1) + 1.0)) 1.0
    return (← input 0) * lookup * handleRow + rows * handleRow
  | .unionAll _ => return rows * handleRow
  | .hashSetOp _ => return sum (inputs.map (·.rows)) * buildRow
  | .sequence _ => return handleRow
  | .sort _ =>
    let rows := larger rows 1.0
    return rows * larger (log2 rows) 1.0 * handleRow
  | .motion m =>
    let moved := rows * moveRow
    match m.kind with
    | .broadcast => return moved * ofNat config.segments
    | _ => return moved

/-- The text of a cost. -/
def toText (cost : Binary64) : String :=
  cost.fixed 2

end Cost

end QueryOptimizer
