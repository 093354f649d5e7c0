import QueryOptimizer.Operator.Logical
import QueryOptimizer.Proofs.Semantics.Scalar

/-!
# Meaning of logical operators

The scope of a relational expression says which columns it produces, which columns are
defined anywhere below it and which columns from outside it reads. Its meaning says besides
which bags of rows it can result in for given parameters. Without limits there is exactly one
such bag. A limit may keep any of the rows, whichever its order puts first; only their number
is known (`Limit.Keeps`).

`LogicalOperator.meaning` is the meaning of an operator applied to expressions with known
meanings.
-/

namespace QueryOptimizer

/-- The columns of a relational expression. -/
@[ext] structure Scope where
  /-- The columns of its rows. -/
  output : Finset Nat
  /-- The columns that are produced anywhere below, and its own ones. -/
  defined : Finset Nat
  /-- The columns from outside that it reads. -/
  free : Finset Nat

namespace Scope

/-- The columns that some inputs produce. -/
def outputs (inputs : List Scope) : Finset Nat :=
  inputs.foldr (fun m s => m.output ∪ s) ∅

/-- The columns that are defined below some inputs. -/
def definitions (inputs : List Scope) : Finset Nat :=
  inputs.foldr (fun m s => m.defined ∪ s) ∅

/-- The columns from outside that some inputs read. -/
def reads (inputs : List Scope) : Finset Nat :=
  inputs.foldr (fun m s => m.free ∪ s) ∅

variable (m : Scope) (ms : List Scope)

@[simp] theorem outputs_nil : outputs [] = ∅ := rfl
@[simp] theorem outputs_cons : outputs (m :: ms) = m.output ∪ outputs ms := rfl
@[simp] theorem definitions_nil : definitions [] = ∅ := rfl
@[simp] theorem definitions_cons : definitions (m :: ms) = m.defined ∪ definitions ms := rfl
@[simp] theorem reads_nil : reads [] = ∅ := rfl
@[simp] theorem reads_cons : reads (m :: ms) = m.free ∪ reads ms := rfl

variable {m} {ms}

/-- What one input defines is defined by the inputs. -/
theorem defined_subset_definitions (h : m ∈ ms) : m.defined ⊆ definitions ms := by
  induction h with
  | head ms => exact Finset.subset_union_left
  | tail _ _ ih => exact ih.trans Finset.subset_union_right

/-- What one input reads is read by the inputs. -/
theorem free_subset_reads (h : m ∈ ms) : m.free ⊆ reads ms := by
  induction h with
  | head ms => exact Finset.subset_union_left
  | tail _ _ ih => exact ih.trans Finset.subset_union_right

end Scope

/-- What a relational expression means: its columns, and the bags of rows that it can result in
for each assignment of parameters. -/
@[ext] structure Meaning extends Scope where
  results : Row → Set Bag

namespace Meaning

/-- Meanings are equal if their scopes are and they have the same results. -/
theorem eq_of_scope {m n : Meaning} (scope : m.toScope = n.toScope)
    (results : ∀ env bag, bag ∈ m.results env ↔ bag ∈ n.results env) : m = n :=
  Meaning.ext (congrArg _ scope) (congrArg _ scope) (congrArg _ scope)
    (funext fun env => Set.ext (results env))

/-- A meaning in which no rows are possible. -/
def void : Meaning := ⟨⟨∅, ∅, ∅⟩, fun _ => ∅⟩

/-- Columns that are produced are defined, and rows keep the parameters in all
other columns. -/
structure Sound (m : Meaning) : Prop where
  output_subset : m.output ⊆ m.defined
  keeps : ∀ ⦃env bag⦄, bag ∈ m.results env → ∀ ⦃r⦄, r ∈ bag → ∀ ⦃i⦄, i ∉ m.output → r i = env i

/-- Exactly one bag of rows is possible. -/
def Determined (m : Meaning) : Prop :=
  ∀ env, ∃ bag, m.results env = {bag}

end Meaning

/-! ### Joins -/

/-- The rows that one left row contributes to a join with the rows `rs`, which produce
the columns `right`. -/
def JoinType.rows (type : JoinType) (right : Finset Nat) (p : Row → Truth) (l : Row)
    (rs : Bag) : Bag :=
  let pairs := rs.map (l.beside right)
  let hits := pairs.filter fun r => p r = some true
  match type with
  | .inner => hits
  | .leftOuter => if hits.card = 0 then {l.padded right} else hits
  | .leftSemi => if hits.card = 0 then 0 else {l}
  | .leftAntiSemi => if hits.card = 0 then {l} else 0
  | .leftAntiSemiNotIn => if (pairs.filter fun r => p r ≠ some false).card = 0 then {l} else 0

/-- The columns of a join. -/
def JoinType.columns (type : JoinType) (left right : Finset Nat) : Finset Nat :=
  if type.isLeftOnly then left else left ∪ right

/-! ### Grouping -/

namespace Grouping

/-- The values of the keys for which there is a group. Without keys there is one group. -/
def keyTuples (g : Grouping) (rows : Bag) : Multiset Tuple :=
  if g.keys.isEmpty then {[]} else (rows.map (·.tuple g.keys)).dedup

/-- The row of the group with the key values `t`. -/
def row (I : Interpretation) (g : Grouping) (env : Row) (rows : Bag) (t : Tuple) : Row :=
  let keyed := env.assign g.keys t
  let group := rows.filter fun r => r.tuple g.keys = t
  keyed.assign (Definition.columns g.aggregates)
    (g.aggregates.map fun d => d.2.eval I group keyed)

/-- One row for each group. -/
def rows (I : Interpretation) (g : Grouping) (env : Row) (rows : Bag) : Bag :=
  (g.keyTuples rows).map (g.row I env rows)

/-- With keys, every group has the key values of one of the rows. -/
theorem exists_of_mem_keyTuples {g : Grouping} (some : g.keys ≠ [])
    (apart : Disjoint (Column.idsOf g.keys) (Column.idsOf (Definition.columns g.aggregates)))
    {rows : Bag} {t : Tuple} (ht : t ∈ g.keyTuples rows) (I : Interpretation) (env : Row) :
    ∃ r ∈ rows, t = r.tuple g.keys ∧ ∀ i ∈ Column.idsOf g.keys,
      g.row I env rows t i = r i := by
  have tuples : g.keyTuples rows = (rows.map (·.tuple g.keys)).dedup := by
    simp [keyTuples, some]
  obtain ⟨r, hr, rfl⟩ := Multiset.mem_map.1 (Multiset.mem_dedup.1 (tuples ▸ ht))
  refine ⟨r, hr, rfl, fun i hi => ?_⟩
  rw [row, Row.assign_of_notMem _ (Finset.disjoint_left.1 apart hi), Row.assign_tuple _ _ hi]

end Grouping

/-! ### Set operations -/

/-- The tuples of a set operation applied to the tuples of its inputs. -/
def SetOpKind.tuples : SetOpKind → List (Multiset Tuple) → Multiset Tuple
  | unionAll, bags => bags.sum
  | union, bags => bags.sum.dedup
  | _, [] => 0
  | difference, bag :: bags =>
    (bags.foldl
      (fun acc b => acc.filter fun t => (b.filter (Tuple.same t ·)).card = 0) bag).dedup
  | differenceAll, bag :: bags => bags.foldl (· - ·) bag
  | intersect, bag :: bags =>
    (bags.foldl
      (fun acc b => acc.filter fun t => (b.filter (Tuple.same t ·)).card ≠ 0) bag).dedup
  | intersectAll, bag :: bags => bags.foldl (· ∩ ·) bag

/-- The tuples of some columns in the rows of a bag. -/
def Bag.tuples (rows : Bag) (cols : List Column) : Multiset Tuple :=
  Multiset.map (·.tuple cols) rows

/-! ### Limits -/

/-- Whether a limit may leave the rows `kept` of the rows `all`. Which rows come first is not
said; the offset counts as long as the rows can be counted. -/
structure Limit.Keeps (l : Limit) (all kept : Bag) : Prop where
  kept_le : kept ≤ all
  card_le : ∀ n ∈ l.count, kept.card ≤ n
  offset : all.card ≤ Limit.maximum → kept.card ≤ all.card - l.offset

/-! ### Operators -/

namespace LogicalOperator

/-- The columns of the rows of an operator. -/
def produced : LogicalOperator → List Scope → Finset Nat
  | get s, _ => Column.idsOf s.cols
  | dynamicGet s, _ => Column.idsOf s.cols
  | values v, _ => Column.idsOf v.cols
  | select _, [m] | limit _, [m] => m.output
  | project ds, [m] => m.output ∪ Column.idsOf (Definition.columns ds)
  | groupBy g, _ => Column.idsOf (g.keys ++ Definition.columns g.aggregates)
  | join j, [l, r] => j.type.columns l.output r.output
  | apply a, [l, r] => a.type.columns l.output r.output
  | setOp s, _ => Column.idsOf s.output
  | cteAnchor _, [_, body] => body.output
  | cteProducer p, _ => Column.idsOf p.cols
  | cteConsumer c, _ => Column.idsOf c.cols
  | _, _ => ∅

/-- The columns from outside that the inputs of an operator read. The left rows of an apply are
not from outside for its right input. -/
def inherited : LogicalOperator → List Scope → Finset Nat
  | apply a, [l, r] => l.free ∪ r.free \ Column.idsOf a.outer
  | _, inputs => Scope.reads inputs

/-- The columns of an operator applied to inputs with known columns. -/
def scope (op : LogicalOperator) (inputs : List Scope) : Scope where
  output := op.produced inputs
  defined := op.produced inputs ∪ Scope.definitions inputs
  free := op.usedColumns.idSet \ Scope.outputs inputs ∪ op.inherited inputs

/-- The bags of rows that an operator can result in. -/
def results (I : Interpretation) (db : Database) :
    LogicalOperator → List Meaning → Row → Set Bag
  | get s, [], env => {(db.table s.table.id).map (env.assign s.cols)}
  | dynamicGet s, [], env => {(db.table s.table.id).map (env.assign s.cols)}
  | values v, [], env =>
    {Multiset.ofList (v.rows.map fun r => env.assign v.cols (r.map Datum.value))}
  | select p, [m], env => {out | ∃ b ∈ m.results env,
      out = b.filter fun r => p.test I r = some true}
  | project ds, [m], env => {out | ∃ b ∈ m.results env,
      out = b.map fun r => r.assign (Definition.columns ds) (ds.map fun d => d.2.eval I 0 r)}
  | groupBy g, [m], env => {out | ∃ b ∈ m.results env, out = g.rows I env b}
  | limit l, [m], env => {out | ∃ b ∈ m.results env, l.Keeps b out}
  | join j, [l, r], env => {out | ∃ ls ∈ l.results env, ∃ rs ∈ r.results env,
      out = ls.bind fun x => j.type.rows r.output (j.predicate.test I ·) x rs}
  | apply a, [l, r], env => {out | ∃ matched : Multiset (Row × Bag),
      matched.map Prod.fst ∈ l.results env ∧
      (∀ x ∈ matched, x.2 ∈ r.results (env.assign a.outer (x.1.tuple a.outer))) ∧
      out = matched.bind fun x => a.type.rows r.output (a.predicate.test I ·) x.1 x.2}
  | setOp s, inputs, env => {out | ∃ bags : List Bag,
      List.Forall₂ (fun m b => b ∈ m.results env) inputs bags ∧
      out = (s.kind.tuples (List.zipWith Bag.tuples bags s.inputs)).map (env.assign s.output)}
  | cteAnchor _, [_, body], env => body.results env
  | cteProducer p, [m], env => {out | ∃ b ∈ m.results env,
      out = b.map fun r => env.assign p.cols (r.tuple p.cols)}
  | cteConsumer c, [], env =>
    {(db.shared c.id env).map fun r => env.assign c.cols (r.tuple c.producerCols)}
  | _, _, _ => ∅

/-- The meaning of an operator applied to inputs with known meanings. -/
def meaning (I : Interpretation) (db : Database) (op : LogicalOperator)
    (inputs : List Meaning) :
    Meaning where
  toScope := op.scope (inputs.map Meaning.toScope)
  results := op.results I db inputs

/-- Every left row of a join belongs to the same right rows. -/
theorem exists_matched_of_mem_results {I : Interpretation} {db : Database} {j : Join}
    {l r : Meaning} {row : Row} {bag : Bag}
    (h : bag ∈ ((join j).meaning I db [l, r]).results row) :
    ∃ matched : Multiset (Row × Bag), matched.map Prod.fst ∈ l.results row ∧
      (∀ x ∈ matched, x.2 ∈ r.results row) ∧
        bag = matched.bind fun x => j.type.rows r.output (j.predicate.test I ·) x.1 x.2 := by
  obtain ⟨ls, hls, rs, hrs, rfl⟩ := h
  refine ⟨ls.map fun x => (x, rs), by simpa [Multiset.map_map] using hls, fun x hx => ?_, ?_⟩
  · obtain ⟨y, -, rfl⟩ := Multiset.mem_map.1 hx
    exact hrs
  · rw [Multiset.bind_map]

end LogicalOperator

end QueryOptimizer
