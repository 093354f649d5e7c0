import QueryOptimizer.Memo.Basic

/-!
# Equality up to names and types

Columns and tables are the same when their ids agree, so equal operators may differ in names
and types. The bare form of an operator has the ids only: operators are equal when their bare
forms are one and the same, and an operator hashes like its bare form. It follows that equality
of keys is an equivalence that hashes respect, as lookups in the index of a memo need it to be.

## Main results

* `LogicalOperator.beq_iff_bare`, `PhysicalOperator.beq_iff_bare`: operators are equal exactly
  when their bare forms are.
* `ExprKey.instEquivBEq`, `ExprKey.instLawfulHashable`: keys can be looked up by equality.
* `Operator.equal_operators_hash_alike`: equality of operators and of expressions is an
  equivalence, and what is equal hashes alike.
-/

namespace QueryOptimizer

/-- If a function tells elements apart just as matching does, lists match when
their images are equal. -/
theorem list_beq_iff_map {α β : Type} [BEq α] {f : α → β}
    (h : ∀ a b : α, (a == b) = true ↔ f a = f b) {as bs : List α} :
    (as == bs) = true ↔ as.map f = bs.map f := by
  induction as generalizing bs with
  | nil => cases bs <;> simp
  | cons a as ih => cases bs <;> simp [h, ih]

/-! ### Columns and tables -/

namespace Column

/-- The column with nothing but its id. -/
def bare (c : Column) : Column :=
  ⟨c.id, .null, 0, "", .computed⟩

@[simp] theorem bare_id (c : Column) : c.bare.id = c.id := rfl

/-- Columns match when they are equal without what matching ignores. -/
theorem beq_iff_bare {a b : Column} : (a == b) = true ↔ a.bare = b.bare := by
  simp [bare]

/-- Lists of columns match when they are equal without what matching ignores. -/
theorem list_beq_iff_bare {as bs : List Column} :
    (as == bs) = true ↔ as.map bare = bs.map bare :=
  list_beq_iff_map fun _ _ => beq_iff_bare

@[simp] theorem hashValue_bare (c : Column) : c.bare.hashValue = c.hashValue := rfl

/-- What matching ignores does not count for the hash of columns. -/
@[simp] theorem hashSequence_bare (cols : List Column) :
    hashSequence (cols.map bare) = hashSequence cols := by
  simp [hashSequence, List.foldl_map]

end Column

namespace Table

/-- The table with nothing but its id. -/
def bare (t : Table) : Table :=
  { id := t.id, name := "", columns := [] }

@[simp] theorem bare_id (t : Table) : t.bare.id = t.id := rfl

/-- Tables match when they are equal without what matching ignores. -/
theorem beq_iff_bare {a b : Table} : (a == b) = true ↔ a.bare = b.bare := by
  simp [BEq.beq, bare]

@[simp] theorem hash_bare (t : Table) : hash t.bare = hash t := rfl

end Table

/-! ### Expressions -/

namespace Scalar

mutual

/-- The expression with nothing but the ids of its columns. -/
def bare : Scalar → Scalar
  | column c => column c.bare
  | literal v => literal v
  | binary op l r => binary op l.bare r.bare
  | not e => not e.bare
  | isNull e => isNull e.bare
  | cast e t => cast e.bare t
  | call n as t => call n (bareList as) t
  | aggregate f as d => aggregate f (bareList as) d

/-- The expressions with nothing but the ids of their columns. -/
def bareList : List Scalar → List Scalar
  | [] => []
  | e :: es => e.bare :: bareList es

end

mutual

/-- The comparison of expressions looks at what is not ignored. -/
theorem equal_iff_bare : ∀ {a b : Scalar}, equal a b = true ↔ a.bare = b.bare
  | column c, b => by cases b <;> simp [equal, bare, Column.bare]
  | literal v, b => by cases b <;> simp [equal, bare]
  | binary op l r, b => by
    cases b with
    | binary op' l' r' =>
      simp [equal, bare, equal_iff_bare (a := l), equal_iff_bare (a := r), and_assoc]
    | _ => simp [equal, bare]
  | not e, b => by cases b <;> simp [equal, bare, equal_iff_bare (a := e)]
  | isNull e, b => by cases b <;> simp [equal, bare, equal_iff_bare (a := e)]
  | cast e t, b => by cases b <;> simp [equal, bare, equal_iff_bare (a := e)]
  | call n as t, b => by
    cases b <;> simp [equal, bare, equalList_iff_bare (a := as), and_assoc]
  | aggregate f as d, b => by
    cases b <;> simp [equal, bare, equalList_iff_bare (a := as), and_assoc]

/-- The comparison of lists of expressions looks at what is not ignored. -/
theorem equalList_iff_bare : ∀ {a b : List Scalar},
    equalList a b = true ↔ bareList a = bareList b
  | [], bs => by cases bs <;> simp [equalList, bareList]
  | e :: es, bs => by
    cases bs <;>
      simp [equalList, bareList, equal_iff_bare (a := e), equalList_iff_bare (a := es)]

end

/-- Expressions match when they are equal without what matching ignores. -/
theorem beq_iff_bare {a b : Scalar} : (a == b) = true ↔ a.bare = b.bare :=
  equal_iff_bare

mutual

/-- What matching ignores does not count for the hash of an expression. -/
@[simp] theorem hashValue_bare : ∀ e : Scalar, e.bare.hashValue = e.hashValue
  | column c => by simp [bare, hashValue]
  | literal v => rfl
  | binary op l r => by simp [bare, hashValue, hashValue_bare l, hashValue_bare r]
  | not e => by simp [bare, hashValue, hashValue_bare e]
  | isNull e => by simp [bare, hashValue, hashValue_bare e]
  | cast e t => by simp [bare, hashValue, hashValue_bare e]
  | call n as t => by simp [bare, hashValue, hashList_bare as]
  | aggregate f as d => by simp [bare, hashValue, hashList_bare as]

/-- What matching ignores does not count for the hash of expressions. -/
theorem hashList_bare : ∀ es : List Scalar, hashList (bareList es) = hashList es
  | [] => rfl
  | e :: es => by simp [bareList, hashList, hashValue_bare e, hashList_bare es]

end

instance instEquivBEq : EquivBEq Scalar where
  rfl := beq_iff_bare.2 rfl
  symm h := beq_iff_bare.2 (beq_iff_bare.1 h).symm
  trans h k := beq_iff_bare.2 ((beq_iff_bare.1 h).trans (beq_iff_bare.1 k))

instance instLawfulHashable : LawfulHashable Scalar where
  hash_eq a b h := (hashValue_bare a).symm.trans
    ((congrArg hashValue (beq_iff_bare.1 h)).trans (hashValue_bare b))

end Scalar

namespace Definition

/-- The definition with nothing but the ids of its columns. -/
def bare (d : Definition) : Definition :=
  (d.1.bare, d.2.bare)

/-- Definitions match when they are equal without what matching ignores. -/
theorem beq_iff_bare {a b : Definition} : (a == b) = true ↔ bare a = bare b := by
  change (a.1 == b.1 && a.2 == b.2) = true ↔ _
  rw [Bool.and_eq_true, Column.beq_iff_bare, Scalar.beq_iff_bare, bare, bare, Prod.mk.injEq]

/-- Lists of definitions match when they are equal without what matching ignores. -/
theorem list_beq_iff_bare {as bs : List Definition} :
    (as == bs) = true ↔ as.map bare = bs.map bare :=
  list_beq_iff_map fun _ _ => beq_iff_bare

/-- What matching ignores does not count for the hash of a definition. -/
@[simp] theorem hashValue_bare (d : Definition) : hashValue (bare d) = hashValue d := by
  simp [hashValue, bare]

/-- The columns of definitions without what matching ignores. -/
@[simp] theorem columns_bare (ds : List Definition) :
    columns (ds.map bare) = (columns ds).map Column.bare := by
  simp [columns, bare]

end Definition

/-! ### Parameters of operators -/

section Parameters

/-- The scan with nothing but the ids of its table and its columns. -/
def Scan.bare (s : Scan) : Scan :=
  ⟨s.table.bare, s.cols.map Column.bare⟩

/-- Scans match when they are equal without what matching ignores. -/
theorem Scan.beq_iff_bare {a b : Scan} : (a == b) = true ↔ a.bare = b.bare := by
  cases a; cases b
  change (_ && _) = true ↔ _
  simp only [Bool.and_eq_true, Table.beq_iff_bare, Column.list_beq_iff_bare, bare, mk.injEq]

/-- The scan with nothing but the ids of its table and its columns. -/
def DynamicScan.bare (s : DynamicScan) : DynamicScan :=
  ⟨s.table.bare, s.cols.map Column.bare, s.scan, s.partitionKeys.map Column.bare⟩

/-- Scans of partitions match when they are equal without what matching ignores. -/
theorem DynamicScan.beq_iff_bare {a b : DynamicScan} : (a == b) = true ↔ a.bare = b.bare := by
  cases a; cases b
  change (_ && (_ && (_ && _))) = true ↔ _
  simp only [Bool.and_eq_true, Table.beq_iff_bare, Column.list_beq_iff_bare, beq_iff_eq, bare,
    mk.injEq]

/-- The literal rows with nothing but the ids of their columns. -/
def Values.bare (v : Values) : Values :=
  ⟨v.cols.map Column.bare, v.rows⟩

/-- Constant tables match when they are equal without what matching ignores. -/
theorem Values.beq_iff_bare {a b : Values} : (a == b) = true ↔ a.bare = b.bare := by
  cases a; cases b
  change (_ && _) = true ↔ _
  simp only [Bool.and_eq_true, Column.list_beq_iff_bare, beq_iff_eq, bare, mk.injEq]

/-- The grouping with nothing but the ids of its columns. -/
def Grouping.bare (g : Grouping) : Grouping :=
  ⟨g.keys.map Column.bare, g.aggregates.map Definition.bare⟩

/-- Groupings match when they are equal without what matching ignores. -/
theorem Grouping.beq_iff_bare {a b : Grouping} : (a == b) = true ↔ a.bare = b.bare := by
  cases a; cases b
  change (_ && _) = true ↔ _
  simp only [Bool.and_eq_true, Column.list_beq_iff_bare, Definition.list_beq_iff_bare, bare,
    mk.injEq]

/-- The sort key with nothing but the id of its column. -/
def SortKey.bare (k : SortKey) : SortKey :=
  ⟨k.column.bare, k.ascending, k.nullsFirst⟩

/-- Sort keys match when they are equal without what matching ignores. -/
theorem SortKey.beq_iff_bare {a b : SortKey} : (a == b) = true ↔ a.bare = b.bare := by
  cases a; cases b
  change (_ && (_ && _)) = true ↔ _
  simp only [Bool.and_eq_true, Column.beq_iff_bare, beq_iff_eq, bare, mk.injEq]

/-- The order with nothing but the ids of its columns. -/
def SortOrder.bare (o : SortOrder) : SortOrder :=
  ⟨o.keys.map SortKey.bare⟩

/-- Sort orders match when they are equal without what matching ignores. -/
theorem SortOrder.beq_iff_bare {a b : SortOrder} : (a == b) = true ↔ a.bare = b.bare := by
  obtain ⟨as⟩ := a
  obtain ⟨bs⟩ := b
  change (as == bs) = true ↔ _
  simp only [list_beq_iff_map fun _ _ => SortKey.beq_iff_bare, bare, mk.injEq]

/-- The limit with nothing but the ids of its columns. -/
def Limit.bare (l : Limit) : Limit :=
  ⟨l.offset, l.count, l.order.bare⟩

/-- Limits match when they are equal without what matching ignores. -/
theorem Limit.beq_iff_bare {a b : Limit} : (a == b) = true ↔ a.bare = b.bare := by
  cases a; cases b
  change (_ && (_ && _)) = true ↔ _
  simp only [Bool.and_eq_true, SortOrder.beq_iff_bare, beq_iff_eq, bare, mk.injEq]

/-- The join with nothing but the ids of its columns. -/
def Join.bare (j : Join) : Join :=
  ⟨j.type, j.predicate.bare⟩

/-- Joins match when they are equal without what matching ignores. -/
theorem Join.beq_iff_bare {a b : Join} : (a == b) = true ↔ a.bare = b.bare := by
  cases a; cases b
  change (_ && _) = true ↔ _
  simp only [Bool.and_eq_true, Scalar.beq_iff_bare, beq_iff_eq, bare, mk.injEq]

/-- The apply with nothing but the ids of its columns. -/
def Apply.bare (a : Apply) : Apply :=
  ⟨a.type, a.predicate.bare, a.outer.map Column.bare⟩

/-- Applies match when they are equal without what matching ignores. -/
theorem Apply.beq_iff_bare {a b : Apply} : (a == b) = true ↔ a.bare = b.bare := by
  cases a; cases b
  change (_ && (_ && _)) = true ↔ _
  simp only [Bool.and_eq_true, Scalar.beq_iff_bare, Column.list_beq_iff_bare, beq_iff_eq, bare,
    mk.injEq]

/-- The set operation with nothing but the ids of its columns. -/
def SetOperation.bare (s : SetOperation) : SetOperation :=
  ⟨s.kind, s.output.map Column.bare, s.inputs.map (·.map Column.bare)⟩

/-- Set operations match when they are equal without what matching ignores. -/
theorem SetOperation.beq_iff_bare {a b : SetOperation} :
    (a == b) = true ↔ a.bare = b.bare := by
  cases a; cases b
  change (_ && (_ && _)) = true ↔ _
  simp only [Bool.and_eq_true, Column.list_beq_iff_bare,
    list_beq_iff_map fun _ _ => Column.list_beq_iff_bare, beq_iff_eq, bare, mk.injEq]

/-- The producer with nothing but the ids of its columns. -/
def CteProducer.bare (p : CteProducer) : CteProducer :=
  ⟨p.id, p.cols.map Column.bare⟩

/-- Producers match when they are equal without what matching ignores. -/
theorem CteProducer.beq_iff_bare {a b : CteProducer} : (a == b) = true ↔ a.bare = b.bare := by
  cases a; cases b
  change (_ && _) = true ↔ _
  simp only [Bool.and_eq_true, Column.list_beq_iff_bare, beq_iff_eq, bare, mk.injEq]

/-- The consumer with nothing but the ids of its columns. -/
def CteConsumer.bare (c : CteConsumer) : CteConsumer :=
  ⟨c.id, c.cols.map Column.bare, c.producerCols.map Column.bare⟩

/-- Consumers match when they are equal without what matching ignores. -/
theorem CteConsumer.beq_iff_bare {a b : CteConsumer} : (a == b) = true ↔ a.bare = b.bare := by
  cases a; cases b
  change (_ && (_ && _)) = true ↔ _
  simp only [Bool.and_eq_true, Column.list_beq_iff_bare, beq_iff_eq, bare, mk.injEq]

/-- What matching ignores does not count for the hash of a sort order. -/
@[simp] theorem SortOrder.hashValue_bare (o : SortOrder) : o.bare.hashValue = o.hashValue := by
  simp [hashValue, bare, SortKey.bare, List.flatMap_map]

end Parameters

/-! ### Operators -/

namespace LogicalOperator

/-- The operator with nothing but ids of columns and tables. -/
def bare : LogicalOperator → LogicalOperator
  | get s => get s.bare
  | dynamicGet s => dynamicGet s.bare
  | values v => values v.bare
  | select p => select p.bare
  | project ds => project (ds.map Definition.bare)
  | groupBy g => groupBy g.bare
  | limit l => limit l.bare
  | join j => join j.bare
  | apply a => apply a.bare
  | setOp s => setOp s.bare
  | cteAnchor id => cteAnchor id
  | cteProducer p => cteProducer p.bare
  | cteConsumer c => cteConsumer c.bare

/-- Operators are equal when their bare forms are. -/
theorem beq_iff_bare {a b : LogicalOperator} : (a == b) = true ↔ a.bare = b.bare := by
  cases a <;> cases b
  case get.get s t => exact Scan.beq_iff_bare.trans (by simp only [bare, get.injEq])
  case dynamicGet.dynamicGet s t =>
    exact DynamicScan.beq_iff_bare.trans (by simp only [bare, dynamicGet.injEq])
  case values.values v w => exact Values.beq_iff_bare.trans (by simp only [bare, values.injEq])
  case select.select p q => exact Scalar.beq_iff_bare.trans (by simp only [bare, select.injEq])
  case project.project ds es =>
    exact Definition.list_beq_iff_bare.trans (by simp only [bare, project.injEq])
  case groupBy.groupBy g h =>
    exact Grouping.beq_iff_bare.trans (by simp only [bare, groupBy.injEq])
  case limit.limit l m => exact Limit.beq_iff_bare.trans (by simp only [bare, limit.injEq])
  case join.join j k => exact Join.beq_iff_bare.trans (by simp only [bare, join.injEq])
  case apply.apply c d => exact Apply.beq_iff_bare.trans (by simp only [bare, apply.injEq])
  case setOp.setOp s t =>
    exact SetOperation.beq_iff_bare.trans (by simp only [bare, setOp.injEq])
  case cteAnchor.cteAnchor i j =>
    exact (beq_iff_eq (a := i) (b := j)).trans (by simp only [bare, cteAnchor.injEq])
  case cteProducer.cteProducer p q =>
    exact CteProducer.beq_iff_bare.trans (by simp only [bare, cteProducer.injEq])
  case cteConsumer.cteConsumer c d =>
    exact CteConsumer.beq_iff_bare.trans (by simp only [bare, cteConsumer.injEq])
  all_goals exact ⟨fun h => Bool.noConfusion h, fun h => LogicalOperator.noConfusion h⟩

/-- What matching ignores does not count for the hash of a logical operator. -/
@[simp] theorem hashValue_bare (op : LogicalOperator) : op.bare.hashValue = op.hashValue := by
  cases op <;> simp [bare, hashValue, Scan.bare, Scan.hashValue, DynamicScan.bare,
    DynamicScan.hashValue, Values.bare, Values.hashValue, Grouping.bare, Grouping.hashValue,
    Limit.bare, Limit.hashValue, Join.bare, Join.hashValue, Apply.bare, Apply.hashValue,
    SetOperation.bare, SetOperation.hashValue, CteProducer.bare, CteProducer.hashValue,
    CteConsumer.bare, CteConsumer.hashValue, Function.comp_def]

end LogicalOperator

namespace Distribution

/-- The distribution with nothing but the ids of its columns. -/
def bare : Distribution → Distribution
  | hashed cols nulls duplicates => hashed (cols.map Column.bare) nulls duplicates
  | strictHashed cols nulls => strictHashed (cols.map Column.bare) nulls
  | d => d

/-- Distributions match when they are equal without what matching ignores. -/
theorem beq_iff_bare {a b : Distribution} : (a == b) = true ↔ a.bare = b.bare := by
  cases a <;> cases b
  case hashed.hashed cols nulls duplicates cols' nulls' duplicates' =>
    change (cols == cols' && (nulls == nulls' && duplicates == duplicates')) = true ↔ _
    simp only [Bool.and_eq_true, Column.list_beq_iff_bare, beq_iff_eq, bare, hashed.injEq]
  case strictHashed.strictHashed cols nulls cols' nulls' =>
    change (cols == cols' && nulls == nulls') = true ↔ _
    simp only [Bool.and_eq_true, Column.list_beq_iff_bare, beq_iff_eq, bare,
      strictHashed.injEq]
  case random.random sensitive allowed =>
    change (sensitive == allowed) = true ↔ _
    simp only [beq_iff_eq, bare, random.injEq]
  case any.any | singleton.singleton | replicated.replicated | nonSingleton.nonSingleton
      | strictRandom.strictRandom => exact ⟨fun _ => rfl, fun _ => rfl⟩
  all_goals exact ⟨fun h => Bool.noConfusion h, fun h => Distribution.noConfusion h⟩

/-- What matching ignores does not count for the hash of a distribution. -/
@[simp] theorem hashValue_bare (d : Distribution) : d.bare.hashValue = d.hashValue := by
  cases d <;> simp [bare, hashValue]

/-- Whether a motion leads to a distribution does not depend on what matching ignores. -/
@[simp] theorem isMovable_bare (d : Distribution) : d.bare.isMovable = d.isMovable := by
  cases d <;> simp [bare, isMovable]

end Distribution

namespace Motion

/-- The motion with nothing but the ids of its columns. -/
def bare (m : Motion) : Motion :=
  ⟨m.target.bare, m.target.isMovable_bare.trans m.movable⟩

/-- Motions match when they are equal without what matching ignores. -/
theorem beq_iff_bare {a b : Motion} : (a == b) = true ↔ a.bare = b.bare := by
  change (a.target == b.target) = true ↔ _
  simp only [Distribution.beq_iff_bare, bare, mk.injEq]

end Motion

namespace PhysicalOperator

/-- The operator with nothing but ids of columns and tables. -/
def bare : PhysicalOperator → PhysicalOperator
  | tableScan s => tableScan s.bare
  | dynamicTableScan s => dynamicTableScan s.bare
  | valuesScan v => valuesScan v.bare
  | filter p => filter p.bare
  | compute ds => compute (ds.map Definition.bare)
  | hashAggregate g => hashAggregate g.bare
  | limit l => limit l.bare
  | hashJoin j => hashJoin j.bare
  | nestedLoopJoin j => nestedLoopJoin j.bare
  | indexNestedLoopJoin a => indexNestedLoopJoin a.bare
  | unionAll s => unionAll s.bare
  | hashSetOp s => hashSetOp s.bare
  | sort o => sort o.bare
  | sequence id => sequence id
  | cteProducer p => cteProducer p.bare
  | cteConsumer c => cteConsumer c.bare
  | motion m => motion m.bare

/-- Operators are equal when their bare forms are. -/
theorem beq_iff_bare {a b : PhysicalOperator} : (a == b) = true ↔ a.bare = b.bare := by
  cases a <;> cases b
  case tableScan.tableScan s t =>
    exact Scan.beq_iff_bare.trans (by simp only [bare, tableScan.injEq])
  case dynamicTableScan.dynamicTableScan s t =>
    exact DynamicScan.beq_iff_bare.trans (by simp only [bare, dynamicTableScan.injEq])
  case valuesScan.valuesScan v w =>
    exact Values.beq_iff_bare.trans (by simp only [bare, valuesScan.injEq])
  case filter.filter p q => exact Scalar.beq_iff_bare.trans (by simp only [bare, filter.injEq])
  case compute.compute ds es =>
    exact Definition.list_beq_iff_bare.trans (by simp only [bare, compute.injEq])
  case hashAggregate.hashAggregate g h =>
    exact Grouping.beq_iff_bare.trans (by simp only [bare, hashAggregate.injEq])
  case limit.limit l m => exact Limit.beq_iff_bare.trans (by simp only [bare, limit.injEq])
  case hashJoin.hashJoin j k =>
    exact Join.beq_iff_bare.trans (by simp only [bare, hashJoin.injEq])
  case nestedLoopJoin.nestedLoopJoin j k =>
    exact Join.beq_iff_bare.trans (by simp only [bare, nestedLoopJoin.injEq])
  case indexNestedLoopJoin.indexNestedLoopJoin c d =>
    exact Apply.beq_iff_bare.trans (by simp only [bare, indexNestedLoopJoin.injEq])
  case unionAll.unionAll s t =>
    exact SetOperation.beq_iff_bare.trans (by simp only [bare, unionAll.injEq])
  case hashSetOp.hashSetOp s t =>
    exact SetOperation.beq_iff_bare.trans (by simp only [bare, hashSetOp.injEq])
  case sort.sort o p => exact SortOrder.beq_iff_bare.trans (by simp only [bare, sort.injEq])
  case sequence.sequence i j =>
    exact (beq_iff_eq (a := i) (b := j)).trans (by simp only [bare, sequence.injEq])
  case cteProducer.cteProducer p q =>
    exact CteProducer.beq_iff_bare.trans (by simp only [bare, cteProducer.injEq])
  case cteConsumer.cteConsumer c d =>
    exact CteConsumer.beq_iff_bare.trans (by simp only [bare, cteConsumer.injEq])
  case motion.motion m n => exact Motion.beq_iff_bare.trans (by simp only [bare, motion.injEq])
  all_goals exact ⟨fun h => Bool.noConfusion h, fun h => PhysicalOperator.noConfusion h⟩

/-- What matching ignores does not count for the hash of a physical operator. -/
@[simp] theorem hashValue_bare (op : PhysicalOperator) : op.bare.hashValue = op.hashValue := by
  cases op <;> simp [bare, hashValue, name, parameterHash, Scan.bare, Scan.hashValue,
    DynamicScan.bare, DynamicScan.hashValue, Values.bare, Values.hashValue, Grouping.bare,
    Grouping.hashValue, Limit.bare, Limit.hashValue, Join.bare, Join.hashValue, Apply.bare,
    Apply.hashValue, SetOperation.bare, SetOperation.hashValue, CteProducer.bare,
    CteProducer.hashValue, CteConsumer.bare, CteConsumer.hashValue, Motion.bare,
    Function.comp_def]

end PhysicalOperator

namespace Operator

/-- The operator with nothing but ids of columns and tables. -/
def bare : Operator → Operator
  | logical op => logical op.bare
  | physical op => physical op.bare

/-- Operators match when they are equal without what matching ignores. -/
theorem beq_iff_bare {a b : Operator} : (a == b) = true ↔ a.bare = b.bare := by
  cases a <;> cases b
  case logical.logical op op' =>
    exact LogicalOperator.beq_iff_bare.trans (by simp only [bare, logical.injEq])
  case physical.physical op op' =>
    exact PhysicalOperator.beq_iff_bare.trans (by simp only [bare, physical.injEq])
  all_goals exact ⟨fun h => Bool.noConfusion h, fun h => Operator.noConfusion h⟩

/-- Operators that match are enforcers or not alike. -/
theorem isEnforcer_congr {a b : Operator} (same : (a == b) = true) :
    a.isEnforcer = b.isEnforcer := by
  have bare (op : Operator) : op.bare.isEnforcer = op.isEnforcer := by
    cases op with
    | logical op => rfl
    | physical op => cases op <;> rfl
  rw [← bare a, ← bare b, beq_iff_bare.1 same]

/-- What matching ignores does not count for the hash of an operator. -/
@[simp] theorem hashValue_bare (op : Operator) : op.bare.hashValue = op.hashValue := by
  cases op <;> simp [bare, hashValue]

instance instEquivBEq : EquivBEq Operator where
  rfl := beq_iff_bare.2 rfl
  symm h := beq_iff_bare.2 (beq_iff_bare.1 h).symm
  trans h k := beq_iff_bare.2 ((beq_iff_bare.1 h).trans (beq_iff_bare.1 k))

instance instLawfulHashable : LawfulHashable Operator where
  hash_eq a b h := (hashValue_bare a).symm.trans
    ((congrArg hashValue (beq_iff_bare.1 h)).trans (hashValue_bare b))

/-- Operators, logical and physical ones, are equal when they are the same but for names and
types of columns and for what is known about tables; likewise expressions. Both are
equivalences, and what is equal hashes alike. -/
theorem equal_operators_hash_alike :
    (∀ a b : Operator, (a == b) = true ↔ a.bare = b.bare) ∧
    (∀ e f : Scalar, (e == f) = true ↔ e.bare = f.bare) ∧
    Equivalence (fun a b : Operator => (a == b) = true) ∧
    Equivalence (fun e f : Scalar => (e == f) = true) ∧
    (∀ a b : Operator, (a == b) = true → a.hashValue = b.hashValue) ∧
    ∀ e f : Scalar, (e == f) = true → e.hashValue = f.hashValue :=
  ⟨fun _ _ => beq_iff_bare, fun _ _ => Scalar.beq_iff_bare,
    ⟨fun _ => BEq.rfl, BEq.symm, BEq.trans⟩, ⟨fun _ => BEq.rfl, BEq.symm, BEq.trans⟩,
    fun _ _ => LawfulHashable.hash_eq _ _, fun _ _ => LawfulHashable.hash_eq _ _⟩

/-- Consumers of one shared result that name its columns differently are equal
and hash alike. -/
theorem equal_operators_hash_alike_consumers :
    let consumer (name : String) (type : DataType) : Operator :=
      .physical
        (.cteConsumer ⟨7, [⟨2, type, -1, name, .computed⟩], [⟨1, type, -1, name, .computed⟩]⟩)
    (consumer "a" .boolean == consumer "b" .float64) = true ∧
      (consumer "a" .boolean).hashValue = (consumer "b" .float64).hashValue :=
  ⟨rfl, equal_operators_hash_alike.2.2.2.2.1 _ _ rfl⟩

end Operator

/-! ### Keys -/

namespace ExprKey

/-- The key with nothing but ids of columns and tables. -/
def bare (k : ExprKey) : ExprKey :=
  ⟨k.operator.bare, k.inputs⟩

/-- Expressions of the memo match when they are equal without what matching ignores. -/
theorem beq_iff_bare {a b : ExprKey} : (a == b) = true ↔ a.bare = b.bare := by
  cases a; cases b
  change (_ && _) = true ↔ _
  simp only [Bool.and_eq_true, Operator.beq_iff_bare, beq_iff_eq, bare, mk.injEq]

/-- Keys are equal when they are equal operators over the same groups. -/
theorem beq_iff {a b : ExprKey} :
    (a == b) = true ↔ (a.operator == b.operator) = true ∧ a.inputs = b.inputs := by
  rw [beq_iff_bare, Operator.beq_iff_bare, bare, bare, mk.injEq]

/-- What matching ignores does not count for the hash of an expression of the memo. -/
theorem hash_bare (k : ExprKey) : hash k.bare = hash k := by
  obtain ⟨op, inputs⟩ := k
  exact congrArg (fun h => mixHash (mixHash 0 h) (hash inputs)) op.hashValue_bare

instance instEquivBEq : EquivBEq ExprKey where
  rfl := beq_iff_bare.2 rfl
  symm h := beq_iff_bare.2 (beq_iff_bare.1 h).symm
  trans h k := beq_iff_bare.2 ((beq_iff_bare.1 h).trans (beq_iff_bare.1 k))

instance instLawfulHashable : LawfulHashable ExprKey where
  hash_eq a b h := by rw [← hash_bare a, ← hash_bare b, beq_iff_bare.1 h]

end ExprKey

end QueryOptimizer
