import QueryOptimizer.Derivation.Statistics
import QueryOptimizer.Proofs.Result
import QueryOptimizer.Proofs.Semantics.Scoping

/-!
# Derived columns

The derived columns of an operator are the columns of its rows, when those of its inputs are.

## Main results

* `LogicalOperator.output_eq_ok`: columns are derived for every operator that fits its inputs,
  and they are the ones that its rows have.
-/

namespace QueryOptimizer

variable {K : Type}

/-- Whether the derived columns of a relation are those of a meaning. -/
def Relation.Produces (r : Relation K) (m : Meaning) : Prop :=
  r.property.output.idSet = m.output

/-- A shared result that is found in a table is in the table. -/
theorem CteTable.mem_of_find? {t : CteTable K} {id : Nat} {info : CteInfo K}
    (h : t.find? id = some info) : (id, info) ∈ t := by
  obtain ⟨before, after, parts, -⟩ := List.lookup_eq_some_iff.1 h
  rw [parts]
  exact List.mem_append_right before List.mem_cons_self

namespace Inputs

variable {inputs : Inputs K} {r : Relation K}

/-- An input is found by its position. -/
theorem get_eq_ok {i : Nat} : inputs.get i = .ok r ↔ inputs[i]? = some r :=
  OptResult.elementAt_eq_ok

@[simp] theorem get_zero (rs : Inputs K) : get (r :: rs) 0 = .ok r := rfl

@[simp] theorem get_one (first : Relation K) (rs : Inputs K) :
    get (first :: r :: rs) 1 = .ok r := rfl

/-- What is known of the one input of an operator. -/
theorem of_single {P : Relation K → Meaning → Prop} {m : Meaning}
    (h : List.Forall₂ P inputs [m]) : ∃ r, inputs = [r] ∧ P r m := by
  obtain ⟨r, none, first, hnone, rfl⟩ := List.forall₂_cons_right_iff.1 h
  obtain rfl := List.forall₂_nil_right_iff.1 hnone
  exact ⟨r, rfl, first⟩

/-- What is known of the two inputs of an operator. -/
theorem of_pair {P : Relation K → Meaning → Prop} {m n : Meaning}
    (h : List.Forall₂ P inputs [m, n]) : ∃ r s, inputs = [r, s] ∧ P r m ∧ P s n := by
  obtain ⟨r, rest, first, hrest, rfl⟩ := List.forall₂_cons_right_iff.1 h
  obtain ⟨s, rfl, second⟩ := of_single hrest
  exact ⟨r, s, rfl, first, second⟩

/-- The columns of inputs are those that they produce. -/
theorem idSet_output {ms : List Meaning} (h : List.Forall₂ Relation.Produces inputs ms) :
    inputs.output.idSet = Scope.outputs (ms.map Meaning.toScope) := by
  have all : ∀ {inputs : Inputs K} {ms : List Meaning} (s : ColumnSet),
      List.Forall₂ Relation.Produces inputs ms →
      ((inputs.map (·.property.output)).foldl ColumnSet.union s).idSet =
        s.idSet ∪ Scope.outputs (ms.map Meaning.toScope) := by
    intro inputs ms s h
    induction h generalizing s with
    | nil => simp
    | cons first _ ih =>
      rw [List.map_cons, List.foldl_cons, ih, ColumnSet.idSet_union, first, List.map_cons,
        Scope.outputs_cons, Finset.union_assoc]
  rw [output, ColumnSet.unionAll, all _ h]
  simp

end Inputs

/-- The columns of a join are found from those that its inputs produce. -/
theorem JoinType.output_eq_ok {type : JoinType} {l r : Meaning} {a b : Relation K}
    (ha : a.Produces l) (hb : b.Produces r) :
    ∃ columns, type.output [a, b] = .ok columns ∧
      columns.idSet = type.columns l.output r.output := by
  unfold output JoinType.columns
  cases type.isLeftOnly with
  | true => exact ⟨_, rfl, ha⟩
  | false =>
    refine ⟨_, rfl, ?_⟩
    rw [Inputs.idSet_output (.cons ha (.cons hb .nil))]
    simp

namespace LogicalOperator

variable [Quantity K] {op : LogicalOperator} {rels : Inputs K} {ms : List Meaning}

omit [Quantity K] in
/-- The derived columns are those of the rows. -/
theorem output_eq_ok (fits : op.Fits Meaning.toScope ms)
    (h : List.Forall₂ Relation.Produces rels ms) :
    ∃ columns, op.output rels = .ok columns ∧
      columns.idSet = (op.scope (ms.map Meaning.toScope)).output := by
  cases fits with
  | get | dynamicGet | values | groupBy | setOp | cteProducer | cteConsumer =>
    exact ⟨_, rfl, ColumnSet.idSet_ofList _⟩
  | select | limit =>
    obtain ⟨r, rfl, first⟩ := Inputs.of_single h
    exact ⟨_, rfl, first⟩
  | project =>
    obtain ⟨r, rfl, first⟩ := Inputs.of_single h
    refine ⟨_, rfl, ?_⟩
    rw [ColumnSet.idSet_insertMany, first]
    rfl
  | join | apply =>
    obtain ⟨a, b, rfl, ha, hb⟩ := Inputs.of_pair h
    exact JoinType.output_eq_ok ha hb
  | cteAnchor =>
    obtain ⟨a, b, rfl, -, hb⟩ := Inputs.of_pair h
    exact ⟨_, rfl, hb⟩

/-- What is derived about a result consists of its property and its statistics. -/
theorem derive_eq_ok {env : Environment K} {ctes : CteTable K} {r : Relation K} :
    op.derive env ctes rels = .ok r ↔ op.property env ctes rels = .ok r.property ∧
      op.statistics env ctes rels r.property = .ok r.statistics := by
  simp only [derive, OptResult.bind_eq_ok, OptResult.pure_eq_ok]
  constructor
  · rintro ⟨p, hp, s, hs, rfl⟩
    exact ⟨hp, hs⟩
  · rintro ⟨hp, hs⟩
    exact ⟨_, hp, _, hs, rfl⟩

/-- What is derived about a result, part by part. -/
structure Derived (op : LogicalOperator) (env : Environment K) (ctes : CteTable K)
    (rels : Inputs K) (r : Relation K) : Prop where
  output : op.output rels = .ok r.property.output
  keys : op.keys ctes rels = .ok r.property.keys
  constraint : op.constraint env ctes rels = .ok r.property.constraint
  /-- Nothing is asked about the rows of a result that has none. -/
  rowBound : if r.property.constraint.isContradiction then r.property.rowBound = .atMost 0
    else op.rowBound env ctes rels = .ok r.property.rowBound
  statistics : if r.property.rowBound.isZero then
      r.statistics = .empty r.property.output.toList
    else op.estimate env ctes rels = .ok r.statistics

/-- What is derived of an operator is derived part by part. -/
theorem derived_of_eq_ok {env : Environment K} {ctes : CteTable K} {r : Relation K}
    (h : op.derive env ctes rels = .ok r) : op.Derived env ctes rels r := by
  obtain ⟨property, statistics⟩ := derive_eq_ok.1 h
  unfold LogicalOperator.property at property
  unfold LogicalOperator.statistics at statistics
  split at property
  · cases property
  rename_i running
  rw [if_neg running] at statistics
  simp only [OptResult.bind_eq_ok] at property
  obtain ⟨columns, hcolumns, keys, hkeys, partitions, -, constraint, hconstraint, rest⟩ :=
    property
  obtain ⟨bound, hbound, same⟩ : ∃ bound, (if constraint.isContradiction then bound = .atMost 0
      else op.rowBound env ctes rels = .ok bound) ∧
        ⟨columns, op.outerRefs rels, keys, partitions, bound, constraint⟩ = r.property := by
    split at rest
    · rename_i contradiction
      exact ⟨.atMost 0, by rw [if_pos contradiction], Except.ok.inj rest⟩
    · rename_i satisfiable
      obtain ⟨bound, hbound, same⟩ := OptResult.bind_eq_ok.1 rest
      exact ⟨bound, by rwa [if_neg satisfiable], Except.ok.inj same⟩
  rw [← same] at statistics
  refine ⟨same ▸ hcolumns, same ▸ hkeys, same ▸ hconstraint, same ▸ hbound, same ▸ ?_⟩
  split at statistics
  · rename_i zero
    exact (if_pos zero).symm ▸ (Except.ok.inj statistics).symm
  · rename_i positive
    exact (if_neg positive).symm ▸ statistics

/-- What is derived of an operator produces its columns. -/
theorem produces_of_derive (fits : op.Fits Meaning.toScope ms)
    (h : List.Forall₂ Relation.Produces rels ms) {env : Environment K} {ctes : CteTable K}
    {r : Relation K} (derived : op.Derived env ctes rels r) (I : Interpretation)
    (db : Database) : r.Produces (op.meaning I db ms) := by
  obtain ⟨columns, found, same⟩ := output_eq_ok fits h
  obtain rfl := Except.ok.inj (found.symm.trans derived.output)
  exact same

end LogicalOperator

end QueryOptimizer
