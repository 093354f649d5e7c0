import QueryOptimizer.Derivation.Basic
import QueryOptimizer.Operator.Physical
import QueryOptimizer.Property.Physical
import QueryOptimizer.Statistics.Join

/-!
# Alternatives of physical operators

A physical operator can be carried out in several ways. Each `Alternative` says what it
requires of the inputs and what the operator delivers then. `PhysicalOperator.alternatives`
lists them for a required property; none of them has to deliver it.
-/

namespace QueryOptimizer

/-- One way to carry out an operator. -/
structure Alternative where
  /-- The property that the operator delivers. -/
  delivers : PhysicalProperty
  /-- The property that is required of each input. -/
  requires : List PhysicalProperty
  deriving BEq

namespace Alternative

/-- Requires the same of every input. -/
def uniform (delivers required : PhysicalProperty) (arity : Nat) : Alternative :=
  ⟨delivers, List.replicate arity required⟩

/-- Everything happens on one segment. -/
def gathered (arity : Nat) : Alternative :=
  uniform .singleton .singleton arity

/-- Has no input. -/
def leaf (distribution : Distribution) : Alternative :=
  ⟨.ofDistribution distribution, []⟩

end Alternative

/-- The distribution of a table read into columns. When a hash column is not among them,
nothing is known but that the rows are spread. -/
def Table.distributionOver (t : Table) (cols : List Column) : Distribution :=
  match t.distribution with
  | .hashed positions =>
    match positions.mapM (cols[·]?) with
    | some hashCols => .hashedOn hashCols
    | none => .random false
  | .random => .random false
  | .replicated => .replicated
  | .singleton => .singleton

/-- Whether an input has all columns that a property refers to. -/
def inputProduces (inputs : List ColumnSet) (index : Nat) (p : PhysicalProperty) :
    OptResult Bool :=
  return p.usedColumns.isSubset (← elementAt "input" inputs index)

/-- Passes the requirement on to the only input if that can meet it, and requires nothing
otherwise. -/
def passThrough (required : PhysicalProperty) (inputs : List ColumnSet) :
    OptResult (List Alternative) := do
  if ← inputProduces inputs 0 required then return [.uniform required required 1]
  else return [.uniform .any .any 1]

/-- The right input is sent to every segment and the left one stays where it is; or both are
gathered on one segment. -/
def broadcastOrGather (required : PhysicalProperty) (inputs : List ColumnSet) :
    OptResult (List Alternative) := do
  let outer :=
    if ← inputProduces inputs 0 required then required.distribution else .any
  return [
    ⟨.ofDistribution outer, [.ofDistribution outer, .ofDistribution .replicated]⟩,
    .gathered 2]

/-- Rows with equal keys meet on one segment, if there are keys. -/
def colocated (predicate : Scalar) (inputs : List ColumnSet) :
    OptResult (List Alternative) := do
  let p := JoinPredicate.ofPredicate predicate (← elementAt "input" inputs 0)
    (← elementAt "input" inputs 1)
  let (left, right) := p.equalities.unzip
  if left.isEmpty then return []
  else return [⟨.hashedOn left, [.hashedOn left, .hashedOn right]⟩]

namespace PhysicalOperator

/-- The ways to carry out an operator whose inputs have the given columns. -/
def alternatives (op : PhysicalOperator) (required : PhysicalProperty)
    (inputs : List ColumnSet) : OptResult (List Alternative) := do
  match op with
  | tableScan s => return [.leaf (s.table.distributionOver s.cols)]
  | dynamicTableScan s => return [.leaf (s.table.distributionOver s.cols)]
  | valuesScan _ => return [.leaf .singleton]
  | filter _ | compute _ => passThrough required inputs
  | hashAggregate g =>
    return .gathered 1 ::
      if g.keys.isEmpty then [] else [.uniform (.hashedOn g.keys) (.hashedOn g.keys) 1]
  | limit l =>
    let sorted : PhysicalProperty := ⟨.singleton, l.order⟩
    return [.uniform sorted sorted 1]
  | hashJoin j =>
    return (← colocated j.predicate inputs) ++ (← broadcastOrGather required inputs)
  | nestedLoopJoin _ | indexNestedLoopJoin _ => broadcastOrGather required inputs
  | unionAll s =>
    let arity := s.inputs.length
    return [
      .uniform (.ofDistribution (.random false)) (.ofDistribution .nonSingleton) arity,
      .gathered arity]
  | hashSetOp s =>
    return [
      ⟨.hashedOn s.output, s.inputs.map PhysicalProperty.hashedOn⟩,
      .gathered s.inputs.length]
  | sort o =>
    let unsorted := PhysicalProperty.ofDistribution required.distribution
    return [⟨{ unsorted with order := o }, [unsorted]⟩]
  | sequence _ => return [.gathered 2]
  | cteProducer _ => return [.gathered 1]
  | cteConsumer _ => return [.gathered 0]
  | motion m => return [⟨.ofDistribution m.target, [.any]⟩]

end PhysicalOperator

end QueryOptimizer
