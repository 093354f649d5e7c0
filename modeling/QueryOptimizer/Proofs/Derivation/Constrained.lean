import QueryOptimizer.Proofs.Derivation.SetConstraint
import QueryOptimizer.Proofs.Semantics.Bare

/-!
# Constraints of operators

Every row of an operator has the constraint property that is derived for the operator, when the
rows of its inputs have theirs. The property may speak of the parameters of the operator, too.

## Main results

* `LogicalOperator.constrained_of_derive`: the constraint of every operator.
-/

namespace QueryOptimizer

variable {K : Type} {Γ : Nat → DataType} {D : Domains} {I : Interpretation} {db : Database}

/-- Whether the rows of a meaning have a property, which speaks of its columns
and parameters. -/
structure ConstraintProperty.Describes (Γ : Nat → DataType) (D : Domains)
    (p : ConstraintProperty) (m : Meaning) : Prop where
  about : p.About Γ (m.output ∪ m.free)
  holds : ∀ env : Row, env.Within D → ∀ bag ∈ m.results env, ∀ row ∈ bag, p.Holds row

/-- Whether the rows of a meaning have values of the types of their columns and the derived
constraint property. -/
structure Relation.Constrained (Γ : Nat → DataType) (D : Domains) (r : Relation K)
    (m : Meaning) : Prop where
  produces : r.Produces m
  within : m.Within D
  constraint : r.property.constraint.Describes Γ D m

/-- Whether the rows of a shared result have the constraint property that is known of it. The
property speaks of the columns of a producer. -/
structure CteInfo.Constrained (db : Database) (Γ : Nat → DataType) (D : Domains)
    (producers : Nat → Set Scope) (id : Nat) (info : CteInfo K) : Prop where
  about : ∃ s ∈ producers id, info.property.constraint.About Γ (s.output ∪ s.free)
  holds : ∀ env : Row, env.Within D → ∀ row ∈ db.shared id env,
    row.Within D ∧ info.property.constraint.Holds row

namespace LogicalOperator

/-- Whether columns and values that an operator compares, and columns that it puts in place of
each other, are of one type. -/
def WellTyped (Γ : Nat → DataType) : LogicalOperator → Prop
  | select p => p.WellTyped Γ
  | project ds => ∀ d ∈ ds, d.WellTyped Γ
  | join j => j.predicate.WellTyped Γ
  | apply a => a.predicate.WellTyped Γ
  | setOp s => ∀ cols ∈ s.inputs, ∀ p ∈ cols.zip s.output, Γ p.1.id = Γ p.2.id
  | cteConsumer c => ∀ p ∈ c.producerCols.zip c.cols, Γ p.1.id = Γ p.2.id
  | _ => True

/-- Whether stored rows have values in columns that cannot be null, and shared results are read
under columns that are new to their producers. -/
def RespectsColumns (db : Database) (producers : Nat → Set Scope) : LogicalOperator → Prop
  | get s => Table.RespectNullability s.cols (db.table s.table.id)
  | dynamicGet s => Table.RespectNullability s.cols (db.table s.table.id)
  | cteConsumer c => ∀ s ∈ producers c.id, Disjoint (s.output ∪ s.free) (Column.idsOf c.cols)
  | _ => True

variable {op : LogicalOperator} {rels : Inputs K} {ms : List Meaning} {l r m : Meaning}

/-! ### Columns of an operator in scope -/

/-- An operator uses columns of its inputs or reads them from outside. -/
theorem usedColumns_subset (op : LogicalOperator) (ss : List Scope) :
    op.usedColumns.idSet ⊆ Scope.outputs ss ∪ (op.scope ss).free := by
  intro i hi
  by_cases inside : i ∈ Scope.outputs ss
  · exact Finset.mem_union_left _ inside
  · exact Finset.mem_union_right _ (Finset.mem_union_left _ (Finset.mem_sdiff.2 ⟨hi, inside⟩))

namespace InScope

/-- What an operator makes is not read from outside of it. -/
theorem disjoint_produced (scope : op.InScope ms) :
    Disjoint (op.scope (ms.map Meaning.toScope)).free
      (op.scope (ms.map Meaning.toScope)).output :=
  scope.free_disjoint.mono_right Finset.subset_union_left

/-- What an input makes is not read from outside. -/
theorem disjoint_output (scope : op.InScope ms) (sound : ∀ m ∈ ms, m.Sound) (hm : m ∈ ms) :
    Disjoint (op.scope (ms.map Meaning.toScope)).free m.output := by
  have mem : m.toScope ∈ ms.map Meaning.toScope := List.mem_map_of_mem hm
  have defined : m.defined ⊆ (op.scope (ms.map Meaning.toScope)).defined :=
    (Scope.defined_subset_definitions mem).trans Finset.subset_union_right
  exact scope.free_disjoint.mono_right ((sound m hm).output_subset.trans defined)

end InScope

/-- What an input reads from outside is read from outside of the operator, unless the
operator is an apply. -/
theorem free_subset (notApply : ∀ a, op ≠ .apply a) (hm : m ∈ ms) :
    m.free ⊆ (op.scope (ms.map Meaning.toScope)).free := by
  have mem : m.toScope ∈ ms.map Meaning.toScope := List.mem_map_of_mem hm
  have reads :
      op.inherited (ms.map Meaning.toScope) = Scope.reads (ms.map Meaning.toScope) := by
    cases op with
    | apply a => exact absurd rfl (notApply a)
    | _ => rfl
  change m.free ⊆ _ ∪ op.inherited (ms.map Meaning.toScope)
  rw [reads]
  exact (Scope.free_subset_reads mem).trans Finset.subset_union_right

/-! ### Literal rows, predicates, computed columns and groups -/

variable {env : Environment K} {ctes : CteTable K} {a b : Relation K} {p : ConstraintProperty}
  (le : D ≤ .ofTypes Γ)
include le

/-- Literal rows are among those that the constraint is made of. -/
theorem values_spec {v : Values} (fits : (values v).Fits Meaning.toScope [])
    (stays : (values v).StaysWithin I db D) (within : ((values v).meaning I db []).Within D) :
    (ConstraintProperty.ofValues v).Describes Γ D ((values v).meaning I db []) := by
  cases fits with
  | values distinct lengths =>
    have literals : ∀ row ∈ v.rows, ∀ p ∈ v.cols.zip row, p.2.isNull = false →
        p.2.HasType (Γ p.1.id) := by
      intro row hrow p hp value
      have mem : (p.1, p.2.value) ∈ v.cols.zip (row.map Datum.value) := by
        rw [List.zip_map_right]
        exact List.mem_map_of_mem hp
      have typed : p.2.IsValue (Γ p.1.id) :=
        le p.1.id (stays row hrow _ mem p.2 (by simp [Datum.value, value]))
      exact typed.type
    obtain ⟨about, holds⟩ := ConstraintProperty.ofValues_spec distinct lengths literals
    refine ⟨about.mono Finset.subset_union_left, fun row hrow bag hbag x hx => ?_⟩
    have hx' := (within row hrow bag hbag x hx).hasTypes le
    obtain rfl := hbag
    obtain ⟨t, ht, rfl⟩ := List.mem_map.1 (Multiset.mem_coe.1 hx)
    exact holds _ hx' ⟨t, ht, row, rfl⟩

/-- The rows that pass a predicate have what is read off the predicate besides. -/
theorem select_spec {e : Scalar} (truthful : env.catalog.Truthful I) (mirrored : I.Mirrored)
    (typed : e.WellTyped Γ) (ha : a.Constrained Γ D m)
    (within : ((select e).meaning I db [m]).Within D)
    (read : ConstraintProperty.ofPredicate env.catalog e = .ok p) :
    (a.property.constraint.conjoin p).Describes Γ D ((select e).meaning I db [m]) := by
  obtain ⟨about, holds⟩ := ConstraintProperty.ofPredicate_spec truthful mirrored typed read
  have below : m.free ⊆ ((select e).meaning I db [m]).free := free_subset (by simp) (by simp)
  have input := ha.constraint.about.mono (Finset.union_subset_union_right below)
  have uses : e.uses ⊆ m.output ∪ ∅ ∪ ((select e).meaning I db [m]).free :=
    usedColumns_subset (.select e) [m.toScope]
  rw [Finset.union_empty] at uses
  have about := about.mono uses
  refine ⟨input.conjoin about, fun row hrow bag hbag x hx => ?_⟩
  have hx' := (within row hrow bag hbag x hx).hasTypes le
  obtain ⟨b, hb, rfl⟩ := hbag
  obtain ⟨hx, true⟩ := Multiset.mem_filter.1 hx
  exact .conjoin input about hx' (ha.constraint.holds row hrow b hb x hx) (holds x hx' true)

/-- Rows keep what was known of them when columns are computed, because these are new. -/
theorem project_spec {ds : List Definition} (scope : (project ds).InScope [m])
    (sound : m.Sound) (typed : ∀ d ∈ ds, d.WellTyped Γ) (ha : a.Constrained Γ D m)
    (within : ((project ds).meaning I db [m]).Within D) :
    (a.property.constraint.conjoin (.ofDefinitions ds)).Describes Γ D
      ((project ds).meaning I db [m]) := by
  cases scope.fits with
  | project distinct fresh =>
    have new : Disjoint (Column.idsOf (Definition.columns ds)) m.output :=
      fresh.mono_right sound.output_subset
    have outside :
        Disjoint ((project ds).meaning I db [m]).free (Column.idsOf (Definition.columns ds)) :=
      scope.disjoint_produced.mono_right Finset.subset_union_right
    have old : ∀ i ∈ m.output ∪ ((project ds).meaning I db [m]).free,
        i ∉ Column.idsOf (Definition.columns ds) := fun i hi =>
      (Finset.mem_union.1 hi).elim (fun hi => Finset.disjoint_right.1 new hi)
        fun hi => Finset.disjoint_left.1 outside hi
    have below : m.free ⊆ ((project ds).meaning I db [m]).free :=
      free_subset (by simp) (by simp)
    have uses : ∀ d ∈ ds, d.2.uses ⊆ m.output ∪ ((project ds).meaning I db [m]).free := by
      intro d hd
      have used : d.2.uses ⊆ (Definition.usedColumns ds).idSet := fun i hi =>
        Definition.mem_usedColumns.2 ⟨d, hd, hi⟩
      have all := usedColumns_subset (.project ds) [m.toScope]
      rw [Scope.outputs_cons, Scope.outputs_nil, Finset.union_empty] at all
      exact used.trans all
    have wider : m.output ∪ ((project ds).meaning I db [m]).free ⊆
        ((project ds).meaning I db [m]).output ∪ ((project ds).meaning I db [m]).free :=
      Finset.union_subset_union_left Finset.subset_union_left
    have input :=
      ha.constraint.about.mono ((Finset.union_subset_union_right below).trans wider)
    obtain ⟨about, holds⟩ := ConstraintProperty.ofDefinitions_spec typed fun d hd =>
      ⟨Finset.mem_union_left _ (Finset.mem_union_right m.output
        (Column.mem_idsOf.2 ⟨d.1, List.mem_map_of_mem hd, rfl⟩)), (uses d hd).trans wider⟩
    refine ⟨input.conjoin about, fun row hrow bag hbag x hx => ?_⟩
    have hx' := (within row hrow bag hbag x hx).hasTypes le
    obtain ⟨b, hb, rfl⟩ := hbag
    obtain ⟨y, hy, rfl⟩ := Multiset.mem_map.1 hx
    refine .conjoin input about hx' ?_
      (holds _ hx' fun d hd => ⟨fun s hs => ?_, fun v hv => ?_⟩)
    · exact (ha.constraint.holds row hrow b hb y hy).of_eq ha.constraint.about fun i hi =>
        Row.assign_of_notMem y (old i (Finset.union_subset_union_right below hi)) _
    · have source : s.id ∉ Column.idsOf (Definition.columns ds) :=
        old _ (uses d hd (by simp [hs]))
      rw [Row.assign_definitions distinct hd, Row.assign_of_notMem y source, hs]
      rfl
    · rw [Row.assign_definitions distinct hd, hv]
      rfl

/-- A group has the key values of one of its rows. -/
theorem groupBy_spec {g : Grouping} (fits : (groupBy g).Fits Meaning.toScope [m])
    (sound : m.Sound) (ha : a.Constrained Γ D m) :
    (a.property.constraint.restrict (.ofList g.keys)).Describes Γ D
      ((groupBy g).meaning I db [m]) := by
  cases fits with
  | groupBy keys distinct fresh =>
    have apart :
        Disjoint (Column.idsOf g.keys) (Column.idsOf (Definition.columns g.aggregates)) :=
      (fresh.mono_right (keys.trans sound.output_subset)).symm
    have restricted := ha.constraint.about.restrict (.ofList g.keys)
    rw [ColumnSet.idSet_ofList] at restricted
    have made : Column.idsOf g.keys ⊆ ((groupBy g).meaning I db [m]).output := by
      change Column.idsOf g.keys ⊆ Column.idsOf (g.keys ++ Definition.columns g.aggregates)
      rw [Column.idsOf_append]
      exact Finset.subset_union_left
    refine ⟨restricted.mono (made.trans Finset.subset_union_left),
      fun row hrow bag hbag x hx => ?_⟩
    obtain ⟨b, hb, rfl⟩ := hbag
    obtain ⟨t, ht, rfl⟩ := Multiset.mem_map.1 hx
    by_cases none : g.keys = []
    · rw [none] at restricted ⊢
      exact restricted.holds _
    · obtain ⟨y, hy, -, same⟩ := Grouping.exists_of_mem_keyTuples none apart ht I row
      have typed := ha.within row hrow b hb y hy
      exact ((ha.constraint.holds row hrow b hb y hy).restrict ha.constraint.about
        (typed.hasTypes le) _).of_eq restricted same

/-! ### Joins -/

section Join

variable {type : JoinType} {e : Scalar} {F : Finset Nat} {catalog : Catalog K}

/-- The property of a join that reads the columns `F` from outside. -/
theorem sides_spec (truthful : catalog.Truthful I) (mirrored : I.Mirrored)
    (typed : e.WellTyped Γ) (ha : a.Constrained Γ D l) (hb : b.Constrained Γ D r)
    (apart : Disjoint l.output r.output) (outside : Disjoint F r.output)
    (leftFree : l.free ⊆ F) (rightFree : r.free ⊆ l.output ∪ r.output ∪ F)
    (uses : e.uses ⊆ l.output ∪ r.output ∪ F)
    (made : type.constraint e catalog [a, b] = .ok p) :
    p.About Γ (type.columns l.output r.output ∪ F) ∧ ∀ (x : Row) (rs : Bag), x.Within D →
      (∀ y ∈ rs, Row.Within D y) → a.property.constraint.Holds x →
      (∀ y ∈ rs, b.property.constraint.Holds y) →
        (∀ y ∈ rs, ∀ i ∈ r.free, i ∉ r.output → y i = x i) →
        ∀ z ∈ type.rows r.output (e.test I ·) x rs, p.Holds z := by
  have output : a.property.output.idSet ⊆ l.output ∪ l.free := by
    rw [ha.produces]
    exact Finset.subset_union_left
  obtain ⟨about, holds⟩ := JoinType.constraint_spec truthful mirrored typed ha.constraint.about
    hb.constraint.about output
    (Finset.disjoint_union_left.2 ⟨apart, outside.mono_left leftFree⟩) made
  refine ⟨about.mono ?_, fun x rs hx hrs left right linked =>
    holds x rs (hx.hasTypes le) (fun y hy => (hrs y hy).hasTypes le) left right ?_⟩
  · split
    · rename_i inner
      subst inner
      have left : l.output ∪ l.free ⊆ l.output ∪ r.output ∪ F :=
        Finset.union_subset_union Finset.subset_union_left leftFree
      have right : r.output ⊆ l.output ∪ r.output ∪ F :=
        Finset.subset_union_right.trans Finset.subset_union_left
      exact Finset.union_subset
        left (Finset.union_subset (Finset.union_subset right rightFree) uses)
    · refine Finset.union_subset_union ?_ leftFree
      unfold JoinType.columns
      split
      · exact subset_rfl
      · exact Finset.subset_union_left
  · intro y hy i hi notMade
    exact linked y hy i ((Finset.mem_union.1 hi).resolve_left notMade) notMade

/-- The constraint property of a join describes it. -/
theorem join_spec {j : Join} (truthful : catalog.Truthful I) (mirrored : I.Mirrored)
    (scope : (join j).InScope [l, r]) (sound : ∀ m ∈ [l, r], m.Sound)
    (typed : j.predicate.WellTyped Γ) (ha : a.Constrained Γ D l) (hb : b.Constrained Γ D r)
    (made : j.type.constraint j.predicate catalog [a, b] = .ok p) :
    p.Describes Γ D ((join j).meaning I db [l, r]) := by
  cases scope.fits with
  | join apart =>
    have outside (m : Meaning) (hm : m ∈ [l, r]) := scope.disjoint_output sound hm
    have uses :
        j.predicate.uses ⊆ l.output ∪ (r.output ∪ ∅) ∪ ((join j).meaning I db [l, r]).free :=
      usedColumns_subset (.join j) [l.toScope, r.toScope]
    rw [Finset.union_empty] at uses
    have leftFree : l.free ⊆ ((join j).meaning I db [l, r]).free :=
      free_subset (by simp) (by simp)
    have rightFree : r.free ⊆ ((join j).meaning I db [l, r]).free :=
      free_subset (by simp) (by simp)
    obtain ⟨about, holds⟩ := sides_spec le truthful mirrored typed ha hb
      (sides_apart apart sound) (outside r (by simp)) leftFree
      (rightFree.trans Finset.subset_union_right) uses made
    refine ⟨about, fun row hrow bag hbag x hx => ?_⟩
    obtain ⟨matched, hls, hrs, rfl⟩ := exists_matched_of_mem_results hbag
    obtain ⟨y, hy, hx⟩ := Multiset.mem_bind.1 hx
    have hy' : y.1 ∈ matched.map Prod.fst := Multiset.mem_map_of_mem Prod.fst hy
    refine holds y.1 y.2 (ha.within row hrow _ hls y.1 hy') (hb.within row hrow y.2 (hrs y hy))
      (ha.constraint.holds row hrow _ hls y.1 hy')
      (hb.constraint.holds row hrow y.2 (hrs y hy)) ?_ x hx
    intro z hz i hi notMade
    have notLeft : i ∉ l.output := Finset.disjoint_left.1 (outside l (by simp)) (rightFree hi)
    rw [(sound r (by simp)).keeps (hrs y hy) hz notMade,
      (sound l (by simp)).keeps hls hy' notLeft]

/-- The right rows of an apply have what is known of them with the values of a
left row as parameters. -/
theorem apply_spec {j : Apply} (truthful : catalog.Truthful I) (mirrored : I.Mirrored)
    (scope : (apply j).InScope [l, r]) (sound : ∀ m ∈ [l, r], m.Sound)
    (typed : j.predicate.WellTyped Γ) (ha : a.Constrained Γ D l) (hb : b.Constrained Γ D r)
    (made : j.type.constraint j.predicate catalog [a, b] = .ok p) :
    p.Describes Γ D ((apply j).meaning I db [l, r]) := by
  cases scope.fits with
  | apply apart outer =>
    have outside (m : Meaning) (hm : m ∈ [l, r]) := scope.disjoint_output sound hm
    have uses : (j.predicate.usedColumns.insertMany j.outer).idSet ⊆
        l.output ∪ (r.output ∪ ∅) ∪ ((apply j).meaning I db [l, r]).free :=
      usedColumns_subset (.apply j) [l.toScope, r.toScope]
    rw [Finset.union_empty, ColumnSet.idSet_insertMany] at uses
    have bound :
        Column.idsOf j.outer ⊆ l.output ∪ r.output ∪ ((apply j).meaning I db [l, r]).free :=
      Finset.subset_union_right.trans uses
    have leftFree : l.free ⊆ ((apply j).meaning I db [l, r]).free :=
      Finset.subset_union_left.trans Finset.subset_union_right
    have unbound : r.free \ Column.idsOf j.outer ⊆ ((apply j).meaning I db [l, r]).free :=
      Finset.subset_union_right.trans Finset.subset_union_right
    have rightFree : r.free ⊆ l.output ∪ r.output ∪ ((apply j).meaning I db [l, r]).free := by
      rw [← Finset.sdiff_union_inter r.free (Column.idsOf j.outer)]
      exact Finset.union_subset (unbound.trans Finset.subset_union_right)
        (Finset.inter_subset_right.trans bound)
    obtain ⟨about, holds⟩ := sides_spec le truthful mirrored typed ha hb
      (sides_apart apart sound) (outside r (by simp)) leftFree rightFree
      (Finset.subset_union_left.trans uses) made
    refine ⟨about, fun row hrow bag hbag x hx => ?_⟩
    obtain ⟨matched, hls, hrs, rfl⟩ := hbag
    obtain ⟨y, hy, hx⟩ := Multiset.mem_bind.1 hx
    have hy' : y.1 ∈ matched.map Prod.fst := Multiset.mem_map_of_mem Prod.fst hy
    have typed : y.1.Within D := ha.within row hrow _ hls y.1 hy'
    have params := hrow.assign (typed.tuple j.outer)
    refine holds y.1 y.2 typed (hb.within _ params y.2 (hrs y hy))
      (ha.constraint.holds row hrow _ hls y.1 hy')
      (hb.constraint.holds _ params y.2 (hrs y hy)) ?_ x hx
    intro z hz i hi notMade
    rw [(sound r (by simp)).keeps (hrs y hy) hz notMade]
    by_cases passed : i ∈ Column.idsOf j.outer
    · rw [Row.assign_tuple row y.1 passed]
    · have free := unbound (Finset.mem_sdiff.2 ⟨hi, passed⟩)
      have notLeft : i ∉ l.output := Finset.disjoint_left.1 (outside l (by simp)) free
      rw [Row.assign_of_notMem row passed, (sound l (by simp)).keeps hls hy' notLeft]

end Join

/-! ### Set operations -/

omit le in
/-- The columns of an input of a set operation are replaced by columns that are new to it. -/
theorem Fits.notMem_output {s : SetOperation}
    (fits : (LogicalOperator.setOp s).Fits Meaning.toScope ms) (sound : ∀ m ∈ ms, m.Sound)
    {i : Nat} {cols : List Column} (hm : ms[i]? = some m) (hcols : s.inputs[i]? = some cols) :
    ∀ j ∈ m.output, j ∉ Column.idsOf cols → j ∉ Column.idsOf s.output := by
  cases fits with
  | setOp someColumn distinct someInput apart aligned fresh =>
    intro j hj other made
    have mem : m ∈ ms := List.mem_of_getElem? hm
    have here : j ∈ m.defined := (sound m mem).output_subset hj
    rcases fresh with fresh | first
    · exact Finset.disjoint_left.1 fresh made
        (Scope.defined_subset_definitions (List.mem_map_of_mem mem) here)
    · cases lists : s.inputs with
      | nil =>
        rw [lists] at first
        cases first
      | cons head heads =>
        rw [lists] at aligned first hcols
        obtain ⟨n, ns, ⟨-, -, inside⟩, -, rfl⟩ := List.forall₂_cons_left_iff.1 aligned
        have same : Column.idsOf head = Column.idsOf s.output := Column.idsOf_eq_of_beq first
        cases i with
        | zero =>
          obtain rfl := Option.some.inj hcols
          exact other (same ▸ made)
        | succ i =>
          -- The columns of the first input are not below another one.
          have below : j ∈ n.defined :=
            (sound n (by simp)).output_subset (inside (same ▸ made))
          exact Finset.disjoint_left.1
            ((List.pairwise_cons.1 apart).1 m (List.mem_of_getElem? hm)) below here

/-- What is known of one input of a set operation is known of the rows that come from it. -/
theorem setOp_input_spec {s : SetOperation} (scope : (setOp s).InScope ms)
    (sound : ∀ m ∈ ms, m.Sound)
    (typed : ∀ cols ∈ s.inputs, ∀ p ∈ cols.zip s.output, Γ p.1.id = Γ p.2.id)
    (h : List.Forall₂ (Relation.Constrained Γ D) rels ms) {i : Nat}
    (made : s.inputConstraint rels i = .ok p) : p.About Γ (Column.idsOf s.output) ∧
      ∀ m cols, ms[i]? = some m → s.inputs[i]? = some cols → ∀ row : Row, row.Within D →
        ∀ bag ∈ m.results row, ∀ r ∈ bag, ∀ x : Row, x.HasTypes Γ →
          (∀ j ∈ Column.idsOf s.output,
            (x j).same (r.assign s.output (r.tuple cols) j) = true) →
            p.Holds x := by
  have hidden := scope.disjoint_produced
  obtain ⟨cols, foundCols, rest⟩ := OptResult.bind_eq_ok.1 made
  obtain ⟨rel, foundRel, -⟩ := OptResult.bind_eq_ok.1 rest
  have hcols : s.inputs[i]? = some cols := OptResult.elementAt_eq_ok.1 foundCols
  have hrel : rels[i]? = some rel := Inputs.get_eq_ok.1 foundRel
  obtain ⟨hi, rfl⟩ := List.getElem?_eq_some_iff.1 hrel
  obtain ⟨hi', rfl⟩ := List.getElem?_eq_some_iff.1 hcols
  have inside : i < ms.length := h.length_eq ▸ hi
  have hm : ms[i]? = some ms[i] := List.getElem?_eq_getElem inside
  have constrained : Relation.Constrained Γ D rels[i] ms[i] := h.get hi inside
  have types := typed s.inputs[i] (List.getElem_mem hi')
  cases scope.fits with
  | setOp someColumn distinct someInput apart aligned fresh =>
    obtain ⟨-, length, -⟩ := aligned.get hi' inside
    have new : ∀ j ∈ ms[i].output ∪ ms[i].free, j ∉ Column.idsOf s.inputs[i] →
        j ∉ Column.idsOf s.output := by
      intro j hj other
      rcases Finset.mem_union.1 hj with hj | hj
      · exact scope.fits.notMem_output sound hm hcols j hj other
      · exact Finset.disjoint_left.1 hidden
          (free_subset (by simp) (List.getElem_mem inside) hj)
    obtain ⟨about, holds⟩ := SetOperation.inputConstraint_spec hcols hrel length distinct types
      constrained.constraint.about new made
    refine ⟨about, fun m cols place found row hrow bag hbag r hr x hx same => ?_⟩
    obtain rfl := Option.some.inj (hm.symm.trans place)
    obtain rfl := Option.some.inj (hcols.symm.trans found)
    have typedRow : r.Within D := constrained.within row hrow bag hbag r hr
    have renamed : (r.assign s.output (r.tuple s.inputs[i])).HasTypes Γ :=
      Row.HasTypes.assign_renamed (typedRow.hasTypes le) types
    refine holds r x (typedRow.hasTypes le) hx
      (constrained.constraint.holds row hrow bag hbag r hr) fun j hj => ?_
    exact Value.same_symm (hx j) (renamed j) (same j hj)

/-- A row of a set operation has what is known of the inputs that it comes from. -/
theorem setOp_spec {s : SetOperation} (scope : (setOp s).InScope ms)
    (sound : ∀ m ∈ ms, m.Sound)
    (typed : ∀ cols ∈ s.inputs, ∀ p ∈ cols.zip s.output, Γ p.1.id = Γ p.2.id)
    (h : List.Forall₂ (Relation.Constrained Γ D) rels ms)
    (within : ((setOp s).meaning I db ms).Within D) (made : s.constraint rels = .ok p) :
    p.Describes Γ D ((setOp s).meaning I db ms) := by
  have input (i : Nat) (q : ConstraintProperty) (hq : s.inputConstraint rels i = .ok q) :=
    setOp_input_spec le scope sound typed h hq
  cases scope.fits with
  | setOp someColumn distinct someInput apart aligned fresh =>
    have lengths : rels.length = ms.length := h.length_eq
    have some : 0 < ms.length := List.length_pos_iff.2 someInput
    obtain ⟨about, holds⟩ :=
      SetOperation.constraint_spec (fun i q hq => (input i q hq).1) (lengths ▸ some) made
    refine ⟨about.mono Finset.subset_union_left, fun row hrow bag hbag x hx => ?_⟩
    have hx' := (within row hrow bag hbag x hx).hasTypes le
    obtain ⟨bags, hbags, rfl⟩ := hbag
    obtain ⟨t, ht, rfl⟩ := Multiset.mem_map.1 hx
    have length : t.length = s.output.length := by
      obtain ⟨-, -, cols, hcols, r, -, rfl⟩ := SetOpKind.exists_row_of_mem_tuples ht
      exact scope.fits.length_tuple hcols r
    refine holds _ hx'
      (lengths ▸ (scope.fits.among_of_mem_tuples hbags ht).imp some fun i hi comes q hq => ?_)
    obtain ⟨m, hm, cols, hcols, b, hb, r, hr, same⟩ := comes
    exact (input i q hq).2 m cols hm hcols row hrow b hb r hr _ hx' fun j hj =>
      Tuple.same_assign same row r length j hj

/-! ### Shared results -/

/-- The constraint property of a producer describes it. -/
theorem cteProducer_spec {c : CteProducer} (ha : a.Constrained Γ D m) :
    (a.property.constraint.restrict (.ofList c.cols)).Describes Γ D
      ((cteProducer c).meaning I db [m]) := by
  have restricted := ha.constraint.about.restrict (.ofList c.cols)
  rw [ColumnSet.idSet_ofList] at restricted
  refine ⟨restricted.mono Finset.subset_union_left, fun row hrow bag hbag x hx => ?_⟩
  obtain ⟨b, hb, rfl⟩ := hbag
  obtain ⟨y, hy, rfl⟩ := Multiset.mem_map.1 hx
  have typed := ha.within row hrow b hb y hy
  exact ((ha.constraint.holds row hrow b hb y hy).restrict ha.constraint.about
    (typed.hasTypes le) _).of_eq restricted fun i hi => Row.assign_tuple row y hi

/-- Rows of a shared result have under new names what they have at its producer. -/
theorem cteConsumer_spec {c : CteConsumer} {producers : Nat → Set Scope}
    (fits : (cteConsumer c).Fits Meaning.toScope ms)
    (typed : ∀ p ∈ c.producerCols.zip c.cols, Γ p.1.id = Γ p.2.id)
    (new : ∀ s ∈ producers c.id, Disjoint (s.output ∪ s.free) (Column.idsOf c.cols))
    (shared : ∀ entry ∈ ctes, CteInfo.Constrained db Γ D producers entry.1 entry.2)
    (within : ((cteConsumer c).meaning I db ms).Within D)
    (made : (cteConsumer c).constraint env ctes rels = .ok p) :
    p.Describes Γ D ((cteConsumer c).meaning I db ms) := by
  cases fits with
  | cteConsumer distinct length =>
    simp only [LogicalOperator.constraint] at made
    split at made
    · rename_i info found
      obtain ⟨renamed, hrenamed, made⟩ := OptResult.bind_eq_ok.1 made
      obtain rfl := Except.ok.inj made
      have known : CteInfo.Constrained db Γ D producers c.id info :=
        shared _ (CteTable.mem_of_find? found)
      obtain ⟨s, hs, about⟩ := known.about
      obtain ⟨about, holds⟩ := ConstraintProperty.newNames_spec length distinct typed about
        (fun i hi _ => Finset.disjoint_left.1 (new s hs) hi) hrenamed
      refine ⟨about.mono Finset.subset_union_left, fun row hrow bag hbag x hx => ?_⟩
      have hx' := (within row hrow bag hbag x hx).hasTypes le
      obtain rfl := hbag
      obtain ⟨r, hr, rfl⟩ := Multiset.mem_map.1 hx
      obtain ⟨typedRow, known⟩ := known.holds row hrow r hr
      refine holds r _ (typedRow.hasTypes le) hx' known fun i hi => ?_
      rw [Row.assign_congr r row hi]
      exact Value.same_self _
    · obtain rfl := Except.ok.inj made
      exact ⟨.nothing Γ _, fun _ _ _ _ x _ => .nothing x⟩

/-! ### Operators -/

variable {producers : Nat → Set Scope}

/-- Every row has the derived property, when the rows of the inputs have theirs. -/
theorem constraint_spec (truthful : env.catalog.Truthful I) (mirrored : I.Mirrored)
    (scope : op.InScope ms) (sound : ∀ m ∈ ms, m.Sound) (stays : op.StaysWithin I db D)
    (typed : op.WellTyped Γ) (respects : op.RespectsColumns db producers)
    (h : List.Forall₂ (Relation.Constrained Γ D) rels ms)
    (shared : ∀ entry ∈ ctes, CteInfo.Constrained db Γ D producers entry.1 entry.2)
    (within : (op.meaning I db ms).Within D) (made : op.constraint env ctes rels = .ok p) :
    p.Describes Γ D (op.meaning I db ms) := by
  cases scope.fits with
  | @get s | @dynamicGet s =>
    obtain rfl := Except.ok.inj made
    refine ⟨(ConstraintProperty.ofNullability_spec s.cols).1.mono Finset.subset_union_left,
      fun row hrow bag hbag x hx => ?_⟩
    have hx' := (within row hrow bag hbag x hx).hasTypes le
    obtain rfl := hbag
    exact ConstraintProperty.ofNullability_holds respects hx' hx
  | values =>
    obtain rfl := Except.ok.inj made
    exact values_spec le scope.fits stays within
  | @select e m =>
    obtain ⟨a, rfl, ha⟩ := Inputs.of_single h
    obtain ⟨known, read, made⟩ := OptResult.bind_eq_ok.1 made
    obtain rfl := Except.ok.inj made
    exact select_spec le truthful mirrored typed ha within read
  | @project ds m =>
    obtain ⟨a, rfl, ha⟩ := Inputs.of_single h
    obtain rfl := Except.ok.inj made
    exact project_spec le scope (sound m (by simp)) typed ha within
  | @groupBy g m =>
    obtain ⟨a, rfl, ha⟩ := Inputs.of_single h
    obtain rfl := Except.ok.inj made
    exact groupBy_spec le scope.fits (sound m (by simp)) ha
  | @limit l m =>
    obtain ⟨a, rfl, ha⟩ := Inputs.of_single h
    obtain rfl := Except.ok.inj made
    refine ⟨ha.constraint.about.mono
      (Finset.union_subset_union_right (free_subset (by simp) (by simp))),
      fun row hrow bag hbag x hx => ?_⟩
    obtain ⟨b, hb, kept⟩ := hbag
    exact ha.constraint.holds row hrow b hb x (Multiset.mem_of_le kept.kept_le hx)
  | @join j l r apart =>
    obtain ⟨a, b, rfl, ha, hb⟩ := Inputs.of_pair h
    exact join_spec le truthful mirrored scope sound typed ha hb made
  | @apply a l r =>
    obtain ⟨left, right, rfl, hl, hr⟩ := Inputs.of_pair h
    exact apply_spec le truthful mirrored scope sound typed hl hr made
  | @setOp s => exact setOp_spec le scope sound typed h within made
  | @cteAnchor id producer body =>
    obtain ⟨a, b, rfl, -, hb⟩ := Inputs.of_pair h
    obtain rfl := Except.ok.inj made
    exact ⟨hb.constraint.about.mono
      (Finset.union_subset_union_right (free_subset (by simp) (by simp))),
      fun row hrow bag hbag x hx => hb.constraint.holds row hrow bag hbag x hx⟩
  | @cteProducer c m =>
    obtain ⟨a, rfl, ha⟩ := Inputs.of_single h
    obtain rfl := Except.ok.inj made
    exact cteProducer_spec le ha
  | @cteConsumer c => exact cteConsumer_spec le scope.fits typed respects shared within made

/-- What is derived about an operator is right about its rows, when what is derived
about its inputs is. -/
theorem constrained_of_derive [Quantity K] (truthful : env.catalog.Truthful I)
    (mirrored : I.Mirrored) (scope : op.InScope ms) (sound : ∀ m ∈ ms, m.Sound)
    (stays : op.StaysWithin I db D) (typed : op.WellTyped Γ)
    (respects : op.RespectsColumns db producers)
    (h : List.Forall₂ (Relation.Constrained Γ D) rels ms)
    (shared : ∀ entry ∈ ctes, CteInfo.Constrained db Γ D producers entry.1 entry.2)
    {r : Relation K} (derived : op.Derived env ctes rels r) :
    r.Constrained Γ D (op.meaning I db ms) := by
  have within : (op.meaning I db ms).Within D := within_meaning scope.fits stays fun m hm => by
    obtain ⟨r, -, constrained⟩ := exists_of_mem_right h hm
    exact constrained.within
  exact
    { produces := produces_of_derive scope.fits
        (h.imp fun _ _ => Relation.Constrained.produces) derived I db
      within
      constraint := constraint_spec le truthful mirrored scope sound stays typed
        respects h shared within derived.constraint }

end LogicalOperator

end QueryOptimizer
