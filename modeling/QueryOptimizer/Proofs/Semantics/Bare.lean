import QueryOptimizer.Proofs.Bare
import QueryOptimizer.Proofs.Semantics.Operator

/-!
# Equal operators mean the same

What an operator means depends on the ids of its columns and tables only, so an operator means
the same as its bare form, and equal operators mean the same.

## Main results

* `LogicalOperator.meaning_eq_of_beq`: equal operators have equal meanings over
  the same inputs.
-/

namespace QueryOptimizer

/-! ### Columns -/

namespace Column

/-- What matching ignores does not count for the ids of columns. -/
@[simp] theorem idsOf_bare (cols : List Column) : idsOf (cols.map bare) = idsOf cols := by
  simp [idsOf, Function.comp_def]

/-- Columns that match have the same ids. -/
theorem idsOf_eq_of_beq {as bs : List Column} (h : (as == bs) = true) :
    idsOf as = idsOf bs := by
  rw [← idsOf_bare as, ← idsOf_bare bs, list_beq_iff_bare.1 h]

end Column

namespace Row

/-- What matching ignores does not count for the values that are read from a row. -/
@[simp] theorem tuple_bare (r : Row) (cols : List Column) :
    r.tuple (cols.map Column.bare) = r.tuple cols := by
  simp [tuple, Function.comp_def]

/-- What matching ignores does not count for the values that are assigned. -/
@[simp] theorem assign_bare (r : Row) (cols : List Column) (t : Tuple) :
    r.assign (cols.map Column.bare) t = r.assign cols t := by
  induction cols generalizing t with
  | nil => rfl
  | cons c cs ih =>
    rw [List.map_cons]
    simp only [assign, Column.bare_id, ih]

end Row

/-! ### Expressions -/

namespace Scalar

mutual

/-- What matching ignores does not count for the value of an expression. -/
@[simp] theorem eval_bare (I : Interpretation) (group : Bag) :
    ∀ (e : Scalar) (r : Row), e.bare.eval I group r = e.eval I group r
  | column c, r => rfl
  | literal v, r => rfl
  | binary op l f, r => by simp only [bare, eval, eval_bare I group l, eval_bare I group f]
  | not e, r => by simp only [bare, eval, eval_bare I group e]
  | isNull e, r => by simp only [bare, eval, eval_bare I group e]
  | cast e t, r => by simp only [bare, eval, eval_bare I group e]
  | call n as t, r => by simp only [bare, eval, evalList_bare I group as]
  | aggregate f as d, r => by simp only [bare, eval, evalList_bare I group as]

/-- What matching ignores does not count for the values of expressions. -/
theorem evalList_bare (I : Interpretation) (group : Bag) :
    ∀ (es : List Scalar) (r : Row), evalList I group (bareList es) r = evalList I group es r
  | [], r => rfl
  | e :: es, r => by
    simp only [bareList, evalList, eval_bare I group e, evalList_bare I group es]

end

/-- What matching ignores does not count for the truth of a condition. -/
@[simp] theorem test_bare (I : Interpretation) (r : Row) (e : Scalar) :
    e.bare.test I r = e.test I r := by
  rw [test, test, eval_bare]

mutual

/-- What matching ignores does not count for the columns that an expression uses. -/
@[simp] theorem uses_bare : ∀ e : Scalar, e.bare.uses = e.uses
  | column c => by simp [bare]
  | literal v => rfl
  | binary op l r => by simp only [bare, uses_binary, uses_bare l, uses_bare r]
  | not e => by simp only [bare, uses_not, uses_bare e]
  | isNull e => by simp only [bare, uses_isNull, uses_bare e]
  | cast e t => by simp only [bare, uses_cast, uses_bare e]
  | call n as t => by simp only [bare, uses_call, usesOf_bare as]
  | aggregate f as d => by simp only [bare, uses_aggregate, usesOf_bare as]

/-- What matching ignores does not count for the columns that expressions use. -/
theorem usesOf_bare : ∀ es : List Scalar, usesOf (bareList es) = usesOf es
  | [] => rfl
  | e :: es => by simp only [bareList, usesOf_cons, uses_bare e, usesOf_bare es]

end

end Scalar

/-! ### Operators -/

/-- What matching ignores does not count for the columns that definitions use. -/
theorem Definition.uses_bare (ds : List Definition) :
    (usedColumns (ds.map bare)).idSet = (usedColumns ds).idSet := by
  ext i
  rw [mem_usedColumns, mem_usedColumns]
  simp [bare]

namespace Grouping

/-- What matching ignores does not count for the groups of a grouping. -/
@[simp] theorem rows_bare (I : Interpretation) (g : Grouping) (env : Row) (rows : Bag) :
    g.bare.rows I env rows = g.rows I env rows := by
  have hrow : g.bare.row I env rows = g.row I env rows := by
    funext t
    simp only [row, bare, Definition.columns_bare, Row.assign_bare,
      Row.tuple_bare, List.map_map]
    exact congrArg _ (List.map_congr_left fun d _ => Scalar.eval_bare I _ d.2 _)
  have htuples : g.bare.keyTuples rows = g.keyTuples rows := by
    simp [keyTuples, bare]
  rw [Grouping.rows, Grouping.rows, hrow, htuples]

end Grouping

/-- What matching ignores does not count for the columns of a sort order. -/
theorem SortOrder.idSet_usedColumns_bare (o : SortOrder) :
    o.bare.usedColumns.idSet = o.usedColumns.idSet := by
  simp only [usedColumns, bare, ColumnSet.idSet_ofList, List.map_map]
  rw [← Column.idsOf_bare (o.keys.map (·.column)), List.map_map]
  rfl

/-- Sort orders that match use the same columns. -/
theorem SortOrder.idSet_usedColumns_eq_of_beq {o o' : SortOrder} (h : (o == o') = true) :
    o.usedColumns.idSet = o'.usedColumns.idSet := by
  rw [← idSet_usedColumns_bare o, ← idSet_usedColumns_bare o', beq_iff_bare.1 h]

namespace LogicalOperator

/-- What matching ignores does not count for the columns that an operator makes. -/
theorem produced_bare (op : LogicalOperator) (inputs : List Scope) :
    op.bare.produced inputs = op.produced inputs := by
  cases op with
  | select | limit | project | join | apply | cteAnchor =>
    rcases inputs with _ | ⟨_, _ | ⟨_, _ | _⟩⟩ <;> simp [bare, produced, Join.bare, Apply.bare]
  | get s => exact Column.idsOf_bare s.cols
  | dynamicGet s => exact Column.idsOf_bare s.cols
  | values v => exact Column.idsOf_bare v.cols
  | setOp s => exact Column.idsOf_bare s.output
  | cteProducer p => exact Column.idsOf_bare p.cols
  | cteConsumer c => exact Column.idsOf_bare c.cols
  | groupBy g => simp [bare, produced, Grouping.bare, Column.idsOf_append]

/-- What matching ignores does not count for the columns that an operator passes on. -/
theorem inherited_bare (op : LogicalOperator) (inputs : List Scope) :
    op.bare.inherited inputs = op.inherited inputs := by
  cases op with
  | apply =>
    rcases inputs with _ | ⟨_, _ | ⟨_, _ | _⟩⟩ <;> simp [bare, inherited, Apply.bare]
  | _ => rfl

/-- What matching ignores does not count for the columns that an operator uses. -/
theorem usedColumns_bare (op : LogicalOperator) :
    op.bare.usedColumns.idSet = op.usedColumns.idSet := by
  cases op with
  | get | dynamicGet | values | cteAnchor | cteConsumer => rfl
  | select p => exact Scalar.uses_bare p
  | project ds => exact Definition.uses_bare ds
  | groupBy g =>
    simp [bare, usedColumns, Grouping.bare, Definition.uses_bare]
  | limit l => exact l.order.idSet_usedColumns_bare
  | join j => exact Scalar.uses_bare j.predicate
  | apply a =>
    have := Scalar.uses_bare a.predicate
    simp only [Scalar.uses] at this
    simp [bare, usedColumns, Apply.bare, ColumnSet.idSet_insertMany, this]
  | setOp s =>
    simp only [bare, usedColumns, SetOperation.bare, ColumnSet.idSet_ofList]
    rw [← Column.idsOf_bare s.inputs.flatten, List.map_flatten]
  | cteProducer p => simp [bare, usedColumns, CteProducer.bare]

/-- What matching ignores does not count for the results of an operator. -/
theorem results_bare (I : Interpretation) (db : Database) (op : LogicalOperator)
    (inputs : List Meaning) : op.bare.results I db inputs = op.results I db inputs := by
  funext env
  cases op with
  | get | dynamicGet | values | select | groupBy | cteProducer | cteConsumer | cteAnchor =>
    rcases inputs with _ | ⟨_, _ | ⟨_, _ | _⟩⟩ <;>
      simp [bare, results, Scan.bare, DynamicScan.bare, Values.bare, CteProducer.bare,
        CteConsumer.bare]
  | limit l =>
    have keeps (all kept : Bag) : l.bare.Keeps all kept ↔ l.Keeps all kept :=
      ⟨fun h => ⟨h.1, h.2, h.3⟩, fun h => ⟨h.1, h.2, h.3⟩⟩
    rcases inputs with _ | ⟨_, _ | ⟨_, _ | _⟩⟩ <;> simp [bare, results, keeps]
  | project ds =>
    have values (r : Row) :
        (ds.map Definition.bare).map (fun d => d.2.eval I 0 r) = ds.map fun d =>
          d.2.eval I 0 r := by
      simp [Definition.bare]
    rcases inputs with _ | ⟨_, _ | ⟨_, _ | _⟩⟩ <;> simp only [bare, results]
    simp only [values, Definition.columns_bare, Row.assign_bare]
  | join =>
    rcases inputs with _ | ⟨_, _ | ⟨_, _ | _⟩⟩ <;> simp [bare, results, Join.bare]
  | apply =>
    rcases inputs with _ | ⟨_, _ | ⟨_, _ | _⟩⟩ <;> simp [bare, results, Apply.bare]
  | setOp s =>
    have tuples : (fun b cols => Bag.tuples b (cols.map Column.bare)) = Bag.tuples := by
      funext b cols
      simp [Bag.tuples]
    simp only [bare, results, SetOperation.bare, Row.assign_bare,
      List.zipWith_map_right, tuples]

/-- Equal operators have equal meanings over the same inputs. -/
theorem meaning_eq_of_beq (I : Interpretation) (db : Database) {op op' : LogicalOperator}
    (h : (op == op') = true) (inputs : List Meaning) :
    op.meaning I db inputs = op'.meaning I db inputs := by
  have bare (op : LogicalOperator) : op.bare.meaning I db inputs = op.meaning I db inputs := by
    simp only [meaning, scope, produced_bare, inherited_bare, usedColumns_bare, results_bare]
  rw [← bare op, ← bare op', beq_iff_bare.1 h]

end LogicalOperator

end QueryOptimizer
