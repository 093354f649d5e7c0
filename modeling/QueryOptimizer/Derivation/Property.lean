import QueryOptimizer.Derivation.Basic
import QueryOptimizer.Operator.Logical
import QueryOptimizer.Statistics.Join

/-!
# Derivation of logical properties

The logical property of an operator's result, derived part by part from the properties of its
inputs. A result that no row can be in has at most zero rows, whatever the operator says.
-/

namespace QueryOptimizer

variable {K : Type} [Quantity K]

/-! ### Stored tables and literal rows -/

namespace Table

/-- The keys of a table read into columns. A key with a position beyond the columns is lost. -/
def keysOver (t : Table) (cols : List Column) : Keys :=
  .ofList <| t.keys.filterMap fun key => (key.mapM (cols[·]?)).map ColumnSet.ofList

/-- The bound on the rows of a table: its recorded number of rows, if there is one. -/
def rowBound (t : Table) (catalog : Catalog K) : OptResult RowBound := do
  match ← (catalog.tableStats? t.id).orFail with
  | some stats => return .atMost (Quantity.ceilCount stats.rows)
  | none => return .unbounded

end Table

namespace ConstraintProperty

/-- Columns that cannot be null are not null. -/
def ofNullability (cols : List Column) : ConstraintProperty :=
  ofClasses [] <| Constraint.conjunction?
    ((cols.filter (!·.isNullable)).map fun c => .interval (.notNull c)) .index

/-- A column of literal rows has one of its values. -/
def literalInterval (c : Column) (values : List Datum) : Interval :=
  .ofRanges c ((values.filter (!·.isNull)).map Range.point) (values.any (·.isNull))

/-- Each column of literal rows has one of its values. -/
def ofValues (v : Values) : ConstraintProperty :=
  ofClasses [] <| Constraint.conjunction?
    (v.cols.mapIdx fun i c => .interval (literalInterval c (v.rows.filterMap (·[i]?)))) .scan

/-- What a computed column adds to the classes: a renamed column equals its source. -/
def definitionClass? : Definition → Option ColumnSet
  | (c, .column source) => some (.ofList [c, source])
  | _ => none

/-- What a computed column adds to the constraint: a constant column has its value. -/
def definitionConstraint? : Definition → Option Constraint
  | (c, .literal value) =>
    some <| .interval <|
      if value.isNull then .nullOnly c else .ofRanges c [.point value] false
  | _ => none

/-- What is known about computed columns by themselves. -/
def ofDefinitions (ds : List Definition) : ConstraintProperty :=
  ofClasses (ds.filterMap definitionClass?)
    (Constraint.conjunction? (ds.filterMap definitionConstraint?) .index)

end ConstraintProperty

/-! ### Joins -/

namespace JoinType

/-- The columns of a join's result. -/
def output (type : JoinType) (inputs : Inputs K) : OptResult ColumnSet := do
  if type.isLeftOnly then return (← inputs.get 0).property.output else return inputs.output

/-- The keys of a join's result. Where each left row has at most one match, the left keys stay
keys; otherwise a left and a right key together are one. -/
def keys (type : JoinType) (predicate : Scalar) (inputs : Inputs K) : OptResult Keys := do
  let left := (← inputs.get 0).property
  if type.isLeftOnly then return left.keys
  let right := (← inputs.get 1).property
  let p := JoinPredicate.ofPredicate predicate left.output right.output
  if right.keys.isUniqueOn (.ofList (p.equalities.map (·.2))) then return left.keys
  return .ofList (left.keys.sets.flatMap fun l => right.keys.sets.map l.union)

/-- The bound on the rows of a join's result. -/
def rowBound (type : JoinType) (inputs : Inputs K) : OptResult RowBound := do
  let left := (← inputs.get 0).property.rowBound
  if type.isLeftOnly then return left
  let right := (← inputs.get 1).property.rowBound
  if type == .leftOuter && right.isZero then return left
  return left.times right

/-- The constraint of a join's result. -/
def constraint (type : JoinType) (predicate : Scalar) (catalog : Catalog K)
    (inputs : Inputs K) : OptResult ConstraintProperty := do
  let left := (← inputs.get 0).property
  match type with
  | .inner =>
    let known ← ConstraintProperty.ofPredicate catalog predicate
    return (left.constraint.conjoin (← inputs.get 1).property.constraint).conjoin known
  | .leftSemi =>
    let known ← ConstraintProperty.ofPredicate catalog predicate
    return left.constraint.conjoin (known.restrict left.output)
  | _ => return left.constraint

end JoinType

/-! ### Set operations -/

namespace SetOperation

/-- The columns of an input, which must exist. -/
def inputCols (s : SetOperation) (index : Nat) : OptResult (List Column) :=
  elementAt "input columns" s.inputs index

/-- The constraint of an input, said about the output columns. -/
def inputConstraint (s : SetOperation) (inputs : Inputs K) (index : Nat) :
    OptResult ConstraintProperty := do
  let map := ColumnMap.ofLists (← s.inputCols index) s.output
  let renamed ← (← inputs.get index).property.constraint.rename map false
  return renamed.restrict (.ofList s.output)

/-- The bound on the rows of a set operation. -/
def rowBound (s : SetOperation) (inputs : Inputs K) : OptResult RowBound := do
  let bounds := inputs.map (·.property.rowBound)
  match s.kind with
  | .unionAll | .union => return bounds.foldl RowBound.plus (.atMost 0)
  | .intersect | .intersectAll => return bounds.foldl RowBound.min .unbounded
  | .difference | .differenceAll => return (← inputs.get 0).property.rowBound

/-- The constraint of a set operation: a row is in one of the inputs of a union, in all inputs
of an intersection, in the first input of a difference. -/
def constraint (s : SetOperation) (inputs : Inputs K) : OptResult ConstraintProperty := do
  let first ← s.inputConstraint inputs 0
  let others := (List.range inputs.length).tail
  match s.kind with
  | .unionAll | .union =>
    others.foldlM (fun acc i => return acc.disjoin (← s.inputConstraint inputs i)) first
  | .intersect | .intersectAll =>
    others.foldlM (fun acc i => return acc.conjoin (← s.inputConstraint inputs i)) first
  | .difference | .differenceAll => return first

end SetOperation

/-! ### Operators -/

namespace LogicalOperator

/-- The columns of the result. -/
def output (op : LogicalOperator) (inputs : Inputs K) : OptResult ColumnSet := do
  match op with
  | get s => return .ofList s.cols
  | dynamicGet s => return .ofList s.cols
  | values v => return .ofList v.cols
  | select _ | limit _ => return (← inputs.get 0).property.output
  | project ds => return (← inputs.get 0).property.output.insertMany (Definition.columns ds)
  | groupBy g => return .ofList (g.keys ++ Definition.columns g.aggregates)
  | join j => j.type.output inputs
  | apply a => a.type.output inputs
  | setOp s => return .ofList s.output
  | cteAnchor _ => return (← inputs.get 1).property.output
  | cteProducer p => return .ofList p.cols
  | cteConsumer c => return .ofList c.cols

/-- The columns that the operator or one of its inputs uses and no input produces. -/
def outerRefs (op : LogicalOperator) (inputs : Inputs K) : ColumnSet :=
  (op.usedColumns.union inputs.outerRefs).diff inputs.output

/-- The keys of the result. -/
def keys (op : LogicalOperator) (ctes : CteTable K) (inputs : Inputs K) : OptResult Keys := do
  match op with
  | get s => return s.table.keysOver s.cols
  | dynamicGet s => return s.table.keysOver s.cols
  | values _ => return .none
  | select _ | project _ | limit _ => return (← inputs.get 0).property.keys
  | groupBy g => return .ofList [.ofList g.keys]
  | join j => j.type.keys j.predicate inputs
  | apply a => a.type.keys a.predicate inputs
  | setOp s => return if s.kind.isDistinct then .ofList [.ofList s.output] else .none
  | cteAnchor _ => return (← inputs.get 1).property.keys
  | cteProducer p => return (← inputs.get 0).property.keys.restrict (.ofList p.cols)
  | cteConsumer c =>
    match ctes.find? c.id with
    | some info => return (info.property.keys.substitute c.newNames).restrict (.ofList c.cols)
    | none => return .none

/-- The partitioned scans below the operator. -/
def partitions (op : LogicalOperator) (ctes : CteTable K) (inputs : Inputs K) :
    OptResult PartitionInfo := do
  match op with
  | dynamicGet s => return ⟨[⟨s.scan, s.table.id, s.partitionKeys⟩]⟩
  | cteAnchor id =>
    let body := (← inputs.get 1).property.partitions
    match ctes.find? id with
    | some info => return body.combine info.property.partitions
    | none => return body
  | cteConsumer c =>
    match ctes.find? c.id with
    | some info => return info.property.partitions.substitute c.newNames
    | none => return {}
  | _ => return inputs.partitions

/-- The bound on the rows of the result, as far as the operator itself knows. -/
def rowBound (op : LogicalOperator) (env : Environment K) (ctes : CteTable K)
    (inputs : Inputs K) : OptResult RowBound := do
  match op with
  | get s => s.table.rowBound env.catalog
  | dynamicGet s => s.table.rowBound env.catalog
  | values v => return .atMost v.rows.length
  | select p =>
    if p.isFalse then return .atMost 0 else return (← inputs.get 0).property.rowBound
  | project _ | cteProducer _ => return (← inputs.get 0).property.rowBound
  | groupBy g =>
    if g.keys.isEmpty then return .atMost 1 else return (← inputs.get 0).property.rowBound
  | limit l =>
    return (← inputs.get 0).property.rowBound.min (l.count.elim .unbounded RowBound.atMost)
  | join j =>
    if j.type == .inner && j.predicate.isFalse then return .atMost 0
    else j.type.rowBound inputs
  | apply a => a.type.rowBound inputs
  | setOp s => s.rowBound inputs
  | cteAnchor _ => return (← inputs.get 1).property.rowBound
  | cteConsumer c => return (ctes.find? c.id).elim .unbounded (·.property.rowBound)

/-- The constraint of the result. -/
def constraint (op : LogicalOperator) (env : Environment K) (ctes : CteTable K)
    (inputs : Inputs K) : OptResult ConstraintProperty := do
  match op with
  | get s => return .ofNullability s.cols
  | dynamicGet s => return .ofNullability s.cols
  | values v => return .ofValues v
  | select p =>
    let known ← ConstraintProperty.ofPredicate env.catalog p
    return (← inputs.get 0).property.constraint.conjoin known
  | project ds => return (← inputs.get 0).property.constraint.conjoin (.ofDefinitions ds)
  | groupBy g => return (← inputs.get 0).property.constraint.restrict (.ofList g.keys)
  | limit _ => return (← inputs.get 0).property.constraint
  | join j => j.type.constraint j.predicate env.catalog inputs
  | apply a => a.type.constraint a.predicate env.catalog inputs
  | setOp s => s.constraint inputs
  | cteAnchor _ => return (← inputs.get 1).property.constraint
  | cteProducer p => return (← inputs.get 0).property.constraint.restrict (.ofList p.cols)
  | cteConsumer c =>
    match ctes.find? c.id with
    | some info =>
      return (← info.property.constraint.rename c.newNames false).restrict (.ofList c.cols)
    | none => return {}

/-- The logical property of the result. -/
def property (op : LogicalOperator) (env : Environment K) (ctes : CteTable K)
    (inputs : Inputs K) : OptResult LogicalProperty := do
  if env.isCancelled then throw .cancelled
  let output ← op.output inputs
  let outerRefs := op.outerRefs inputs
  let keys ← op.keys ctes inputs
  let partitions ← op.partitions ctes inputs
  let constraint ← op.constraint env ctes inputs
  let rowBound ←
    if constraint.isContradiction then pure (.atMost 0) else op.rowBound env ctes inputs
  return { output, outerRefs, keys, partitions, rowBound, constraint }

end LogicalOperator

end QueryOptimizer
