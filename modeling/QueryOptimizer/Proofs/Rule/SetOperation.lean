import QueryOptimizer.Proofs.Rule.Join
import QueryOptimizer.Proofs.Rule.Limit
import QueryOptimizer.Proofs.Semantics.Bare
import QueryOptimizer.Proofs.Semantics.Scoping
import QueryOptimizer.Rule.SetOperation

/-!
# Equivalences of set operations

The equivalences behind the rules about set operations. Removing duplicates is grouping by
all columns, and a row of one input is in another one when a join on
`IS NOT DISTINCT FROM` finds it there.

## Main results

* `Equivalence.unionToUnionAll`: a union is a union that keeps duplicates, with these removed.
* `Equivalence.toJoin`: the difference and the intersection of two inputs are joins without
  duplicates.
-/

namespace QueryOptimizer

namespace Equivalence

open LogicalOperator

variable {I : Interpretation} {db : Database} {m : Meaning} {inputs : List Meaning}
  {s : SetOperation} {cols : List Column}

/-! ### Removing duplicates -/

/-- The columns that dropping duplicates makes, defines and reads. -/
theorem distinct_scope (cols : List Column) (m : Scope) :
    (LogicalOperator.groupBy (.distinctOn cols)).scope [m] =
      ⟨Column.idsOf cols, Column.idsOf cols ∪ m.defined,
        Column.idsOf cols \ m.output ∪ m.free⟩ := by
  have none : (Definition.usedColumns []).idSet = ∅ := rfl
  simp [LogicalOperator.scope, produced, inherited, usedColumns, Grouping.distinctOn,
    Definition.columns, none]

/-- Dropping duplicates leaves one row for each tuple. -/
theorem distinct_rows (someColumn : cols ≠ []) (env : Row) (rows : Bag) :
    (Grouping.distinctOn cols).rows I env rows = (rows.tuples cols).dedup.map
      (env.assign cols) := by
  obtain ⟨c, cs, rfl⟩ := List.exists_cons_of_ne_nil someColumn
  rfl

/-- Duplicates can be dropped on columns of the input. -/
theorem distinct_fits (sub : Column.idsOf cols ⊆ m.output) :
    (LogicalOperator.groupBy (.distinctOn cols)).Fits Meaning.toScope [m] :=
  .groupBy sub List.nodup_nil (Finset.disjoint_empty_left _)

/-- The tuples of rows that were made of tuples. -/
theorem tuples_assign (distinct : Column.Distinct cols) (env : Row) {ts : Multiset Tuple}
    (lengths : ∀ t ∈ ts, t.length = cols.length) :
    Bag.tuples (ts.map (env.assign cols)) cols = ts := by
  rw [Bag.tuples, Multiset.map_map]
  exact (Multiset.map_congr rfl fun t ht => Row.tuple_assign env distinct (lengths t ht)).trans
    (Multiset.map_id ts)

/-- Tuples are filtered by filtering the rows. -/
theorem tuples_filter (P : Tuple → Prop) [DecidablePred P] (rows : Bag) (cols : List Column) :
    Bag.tuples (rows.filter fun r => P (r.tuple cols)) cols = (rows.tuples cols).filter P :=
  (Multiset.filter_map P (fun r : Row => r.tuple cols) rows).symm

/-- The tuples of several inputs have the length that the lists of columns have. -/
theorem length_of_mem_sum {n : Nat} {lists : List (List Column)}
    (lengths : ∀ cols ∈ lists, cols.length = n) {bags : List Bag} {t : Tuple}
    (h : t ∈ (List.zipWith Bag.tuples bags lists).sum) : t.length = n := by
  induction lists generalizing bags with
  | nil => simp at h
  | cons cols rest ih =>
    cases bags with
    | nil => simp at h
    | cons b bs =>
      rw [List.zipWith_cons_cons, List.sum_cons, Multiset.mem_add] at h
      rcases h with h | h
      · obtain ⟨r, -, rfl⟩ := Multiset.mem_map.1 h
        rw [Row.tuple, List.length_map]
        exact lengths cols (by simp)
      · exact ih (fun cols hc => lengths cols (List.mem_cons_of_mem _ hc)) h

/-- The lists of columns of aligned inputs have one length. -/
theorem lengths_of_aligned {n : Nat} {lists : List (List Column)} {M : Type*} {ms : List M}
    {P : List Column → M → Prop}
    (aligned : List.Forall₂ (fun cols m => Column.Distinct cols ∧ cols.length = n ∧ P cols m)
      lists ms) : ∀ cols ∈ lists, cols.length = n := by
  induction aligned with
  | nil => simp
  | cons h _ ih => simpa using ⟨h.2.1, ih⟩

/-! ### Columns of set operations -/

/-- The columns that a set operation reads are columns of its inputs. -/
theorem idsOf_flatten_subset {lists : List (List Column)} {inputs : List Scope}
    (aligned : List.Forall₂
      (fun cols (m : Scope) => Column.idsOf cols ⊆ m.output) lists inputs) :
    Column.idsOf lists.flatten ⊆ Scope.outputs inputs := by
  induction aligned with
  | nil => exact Finset.Subset.refl _
  | cons sub _ ih =>
    rw [List.flatten_cons, Column.idsOf_append, Scope.outputs_cons]
    exact Finset.union_subset_union sub ih

/-- The columns that a set operation makes, defines and reads. -/
theorem setOp_scope {inputs : List Scope}
    (aligned : List.Forall₂ (fun cols (m : Scope) => Column.idsOf cols ⊆ m.output)
      s.inputs inputs) :
    (LogicalOperator.setOp s).scope inputs =
      ⟨Column.idsOf s.output, Column.idsOf s.output ∪ Scope.definitions inputs,
        Scope.reads inputs⟩ := by
  have none : Column.idsOf s.inputs.flatten \ Scope.outputs inputs = ∅ :=
    Finset.sdiff_eq_empty_iff_subset.2 (idsOf_flatten_subset aligned)
  simp [LogicalOperator.scope, produced, inherited, usedColumns, none]

/-! ### Union -/

variable (I db) in
/-- A union is a union that keeps duplicates, with these removed. -/
theorem unionToUnionAll (scope : InScope (.setOp { s with kind := .union }) inputs) :
    InScope (.setOp { s with kind := .unionAll }) inputs ∧
      InScope (.groupBy (.distinctOn s.output))
        [(LogicalOperator.setOp { s with kind := .unionAll }).meaning I db inputs] ∧
      (LogicalOperator.groupBy (.distinctOn s.output)).meaning I db
          [(LogicalOperator.setOp { s with kind := .unionAll }).meaning I db inputs] =
        (LogicalOperator.setOp { s with kind := .union }).meaning I db inputs := by
  have hidden := scope.free_disjoint
  cases scope.fits with
  | setOp someColumn distinct someInput apart aligned fresh =>
  have columns : (LogicalOperator.groupBy (.distinctOn s.output)).scope
        [(LogicalOperator.setOp { s with kind := .unionAll }).scope
          (inputs.map Meaning.toScope)] =
      (LogicalOperator.setOp { s with kind := .union }).scope
        (inputs.map Meaning.toScope) := by
    rw [distinct_scope, setOp_scope, setOp_scope]
    · ext i <;> simp
    all_goals exact List.forall₂_map_right_iff.2 (aligned.imp fun _ _ h => h.2.2)
  have all : InScope (.setOp { s with kind := .unionAll }) inputs :=
    ⟨.setOp someColumn distinct someInput apart aligned fresh, hidden⟩
  refine ⟨all, ⟨distinct_fits (Finset.Subset.refl _), columns ▸ hidden⟩,
    Meaning.eq_of_scope columns fun env out => ?_⟩
  have lengths (bags : List Bag) :
      ∀ t ∈ (List.zipWith Bag.tuples bags s.inputs).sum, t.length = s.output.length :=
    fun _ ht => length_of_mem_sum (lengths_of_aligned aligned) ht
  constructor
  · rintro ⟨_, ⟨bags, hbags, rfl⟩, rfl⟩
    refine ⟨bags, hbags, ?_⟩
    rw [distinct_rows someColumn]
    exact congrArg (fun ts : Multiset Tuple => ts.dedup.map (env.assign s.output))
      (tuples_assign distinct env (lengths bags))
  · rintro ⟨bags, hbags, rfl⟩
    refine ⟨_, ⟨bags, hbags, rfl⟩, ?_⟩
    rw [distinct_rows someColumn]
    exact congrArg (fun ts : Multiset Tuple => ts.dedup.map (env.assign s.output))
      (tuples_assign distinct env (lengths bags)).symm

/-! ### Difference and intersection -/

/-- The join that finds the rows of a set operation on two inputs. -/
inductive Finds : SetOpKind → JoinType → Prop
  | difference : Finds .difference .leftAntiSemi
  | intersect : Finds .intersect .leftSemi

theorem Finds.isLeftOnly {kind : SetOpKind} {type : JoinType} (h : Finds kind type) :
    type.isLeftOnly = true := by
  cases h <;> rfl

variable {l r : Meaning} {kind : SetOpKind} {type : JoinType} {p : Scalar}
  {left right : List Column}

/-- The right rows that match a left row are those with the same tuple. -/
theorem card_hits (apart : Disjoint (Column.idsOf left) r.output)
    (inside : Column.idsOf right ⊆ r.output)
    (same : ∀ x : Row, p.test I x = some true ↔ (x.tuple left).same (x.tuple right) = true)
    (x : Row) (rs : Bag) :
    ((rs.map (x.beside r.output)).filter fun y => p.test I y = some true).card =
      ((rs.tuples right).filter ((x.tuple left).same ·)).card := by
  rw [Bag.tuples, Multiset.filter_map, Multiset.filter_map, Multiset.card_map,
    Multiset.card_map]
  refine congrArg _ (Multiset.filter_congr fun y _ => ?_)
  have leftTuple : (x.beside r.output y).tuple left = x.tuple left :=
    List.map_congr_left fun c hc => Row.beside_of_notMem
      (Finset.disjoint_left.1 apart (Column.mem_idsOf.2 ⟨c, hc, rfl⟩)) x y
  have rightTuple : (x.beside r.output y).tuple right = y.tuple right :=
    List.map_congr_left fun c hc => Row.beside_of_mem
      (inside (Column.mem_idsOf.2 ⟨c, hc, rfl⟩)) x y
  simp only [Function.comp_apply, same, leftTuple, rightTuple]

/-- The tuples of the join are those of the set operation, up to duplicates. -/
theorem tuples_join (finds : Finds kind type) (apart : Disjoint (Column.idsOf left) r.output)
    (inside : Column.idsOf right ⊆ r.output)
    (same : ∀ x : Row, p.test I x = some true ↔ (x.tuple left).same (x.tuple right) = true)
    (ls rs : Bag) :
    (Bag.tuples (ls.bind fun x => type.rows r.output (p.test I ·) x rs) left).dedup =
      kind.tuples [ls.tuples left, rs.tuples right] := by
  cases finds with
  | difference =>
    have filter : (ls.bind fun x => JoinType.leftAntiSemi.rows r.output (p.test I ·) x rs) =
        ls.filter fun x => ((rs.tuples right).filter ((x.tuple left).same ·)).card = 0 := by
      rw [Multiset.filter_eq_bind]
      refine Multiset.bind_congr fun x _ => ?_
      simp only [JoinType.rows, card_hits apart inside same]
    rw [filter, SetOpKind.tuples, List.foldl_cons, List.foldl_nil]
    exact congrArg
      _ (tuples_filter (fun t => ((rs.tuples right).filter (t.same ·)).card = 0) ls left)
  | intersect =>
    have filter : (ls.bind fun x => JoinType.leftSemi.rows r.output (p.test I ·) x rs) =
        ls.filter fun x => ((rs.tuples right).filter ((x.tuple left).same ·)).card ≠ 0 := by
      rw [Multiset.filter_eq_bind]
      refine Multiset.bind_congr fun x _ => ?_
      simp only [JoinType.rows, card_hits apart inside same, ne_eq, ite_not]
    rw [filter, SetOpKind.tuples, List.foldl_cons, List.foldl_nil]
    exact congrArg
      _ (tuples_filter (fun t => ((rs.tuples right).filter (t.same ·)).card ≠ 0) ls left)

/-! ### Renaming columns -/

/-- The definitions that give columns new names. -/
def renames (target source : List Column) : List Definition :=
  List.zipWith (fun c s => (c, .column s)) target source

/-- Renamed columns have the new names. -/
theorem columns_renames {target source : List Column}
    (length : source.length = target.length) :
    Definition.columns (renames target source) = target := by
  rw [Definition.columns, renames, List.map_zipWith]
  induction target generalizing source with
  | nil => rfl
  | cons c cs ih =>
    obtain ⟨d, ds, rfl⟩ := List.exists_cons_of_length_eq_add_one length
    rw [List.zipWith_cons_cons, ih (by simpa using length)]

/-- Renamed columns have the old values. -/
theorem values_renames {target source : List Column} (length : source.length = target.length)
    (r : Row) : (renames target source).map (fun d => d.2.eval I 0 r) = r.tuple source := by
  rw [renames, List.map_zipWith]
  induction target generalizing source with
  | nil => rw [List.length_eq_zero_iff.1 length]; rfl
  | cons c cs ih =>
    obtain ⟨d, ds, rfl⟩ := List.exists_cons_of_length_eq_add_one length
    rw [List.zipWith_cons_cons, ih (by simpa using length)]
    rfl

/-- Renaming uses the old columns only. -/
theorem uses_renames (target source : List Column) :
    (Definition.usedColumns (renames target source)).idSet ⊆ Column.idsOf source := by
  intro i hi
  obtain ⟨d, hd, hi⟩ := Definition.mem_usedColumns.1 hi
  rw [renames, ← List.map_uncurry_zip_eq_zipWith] at hd
  obtain ⟨⟨c, s⟩, hcs, rfl⟩ := List.mem_map.1 hd
  have id : i = s.id := by simpa using hi
  exact Column.mem_idsOf.2 ⟨s, (List.of_mem_zip hcs).2, id.symm⟩

/-- Under its new names a row has the values of its old columns. -/
theorem tuples_renames {target source : List Column} (distinct : Column.Distinct target)
    (length : source.length = target.length) (b : Bag) :
    Bag.tuples (b.map fun x => x.assign (Definition.columns (renames target source))
      ((renames target source).map fun d => d.2.eval I 0 x)) target = b.tuples source := by
  rw [Bag.tuples, Multiset.map_map]
  refine Multiset.map_congr rfl fun x _ => ?_
  rw [Function.comp_apply, columns_renames length, values_renames length,
    Row.tuple_assign x distinct (by rw [Row.tuple, List.length_map, length])]

/-! ### Two inputs -/

/-- The results of a set operation on two inputs. -/
theorem mem_results_setOp (lists : s.inputs = [left, right]) {env : Row} {out : Bag} :
    out ∈ (LogicalOperator.setOp s).results I db [l, r] env ↔
      ∃ ls ∈ l.results env, ∃ rs ∈ r.results env,
        out = (s.kind.tuples [ls.tuples left, rs.tuples right]).map (env.assign s.output) := by
  simp only [results, Set.mem_ofPred_eq]
  constructor
  · rintro ⟨bags, hbags, rfl⟩
    obtain ⟨ls, bs, hls, hbs, rfl⟩ := List.forall₂_cons_left_iff.1 hbags
    obtain ⟨rs, none, hrs, hnone, rfl⟩ := List.forall₂_cons_left_iff.1 hbs
    obtain rfl := List.forall₂_nil_left_iff.1 hnone
    exact ⟨ls, hls, rs, hrs, by rw [lists]; rfl⟩
  · rintro ⟨ls, hls, rs, hrs, rfl⟩
    exact ⟨[ls, rs], .cons hls (.cons hrs .nil), by rw [lists]; rfl⟩

/-- What a set operation asks of its inputs, when there are two. -/
structure Pairs (s : SetOperation) (left right : List Column) (l r : Meaning) : Prop where
  lists : s.inputs = [left, right]
  someColumn : s.output ≠ []
  distinct : Column.Distinct s.output
  apart : Disjoint l.defined r.defined
  length : left.length = s.output.length
  leftInside : Column.idsOf left ⊆ l.output
  rightInside : Column.idsOf right ⊆ r.output
  fresh : Disjoint (Column.idsOf s.output) (l.defined ∪ r.defined) ∨ (left == s.output) = true

namespace Pairs

/-- The inputs of a set operation that fits are a pair. -/
theorem of_fits (lists : s.inputs = [left, right])
    (fits : (LogicalOperator.setOp s).Fits Meaning.toScope [l, r]) :
    Pairs s left right l r := by
  cases fits with
  | setOp someColumn distinct someInput apart aligned fresh =>
    rw [lists] at aligned fresh
    obtain ⟨hleft, rest⟩ := List.forall₂_cons.1 aligned
    obtain ⟨hright, -⟩ := List.forall₂_cons.1 rest
    exact ⟨lists, someColumn, distinct, by simpa using apart, hleft.2.1, hleft.2.2, hright.2.2,
      by simpa using fresh⟩

variable (h : Pairs s left right l r)
include h

/-- The columns that a set operation on two inputs makes, defines and reads. -/
theorem setOp_scope : (LogicalOperator.setOp s).scope [l.toScope, r.toScope] =
    ⟨Column.idsOf s.output, Column.idsOf s.output ∪ (l.defined ∪ r.defined),
      l.free ∪ r.free⟩ := by
  rw [Equivalence.setOp_scope]
  · simp
  · rw [h.lists]
    exact .cons h.leftInside (.cons h.rightInside .nil)

/-- The columns that a join that keeps left rows only makes, defines and reads. -/
theorem join_scope (leftOnly : type.isLeftOnly = true)
    (uses : p.uses ⊆ Column.idsOf left ∪ Column.idsOf right) :
    ((LogicalOperator.join ⟨type, p⟩).meaning I db [l, r]).toScope =
      ⟨l.output, l.output ∪ (l.defined ∪ r.defined), l.free ∪ r.free⟩ := by
  have covered : p.uses \ (l.output ∪ r.output) = ∅ :=
    Finset.sdiff_eq_empty_iff_subset.2
      (uses.trans (Finset.union_subset_union h.leftInside h.rightInside))
  have leftColumns : type.columns l.output r.output = l.output := if_pos leftOnly
  exact (Equivalence.join_scope ⟨type, p⟩ l.toScope r.toScope).trans
    (by rw [leftColumns, covered]; simp)

/-- Renaming the left columns adds those of the result to the columns of a meaning. -/
theorem renames_scope {rows : Meaning} (output : rows.output = l.output) :
    ((LogicalOperator.project (renames s.output left)).meaning I db [rows]).toScope =
      ⟨l.output ∪ Column.idsOf s.output, l.output ∪ Column.idsOf s.output ∪ rows.defined,
        rows.free⟩ := by
  have covered : (Definition.usedColumns (renames s.output left)).idSet \ l.output = ∅ :=
    Finset.sdiff_eq_empty_iff_subset.2 ((uses_renames _ _).trans h.leftInside)
  refine (project_scope (renames s.output left) rows.toScope).trans ?_
  rw [output, columns_renames h.length, covered, Finset.empty_union]

end Pairs

/-! ### Difference and intersection as joins -/

/-- Without duplicates the rows of the join are those of the set operation. It does not
matter what is done to them before, as long as the columns of the result have the values
of the left columns. -/
theorem mem_distinct_iff (h : Pairs s left right l r) (finds : Finds s.kind type)
    (hl : l.Sound) (hr : r.Sound)
    (same : ∀ x : Row, p.test I x = some true ↔ (x.tuple left).same (x.tuple right) = true)
    {rows : Meaning} {f : Bag → Bag} (values : ∀ b, (f b).tuples s.output = b.tuples left)
    (made : ∀ env bag, bag ∈ rows.results env ↔
      ∃ b ∈ ((LogicalOperator.join ⟨type, p⟩).meaning I db [l, r]).results env, bag = f b)
    {env : Row} {out : Bag} :
    out ∈ ((LogicalOperator.groupBy (.distinctOn s.output)).meaning I db [rows]).results env ↔
      out ∈ ((LogicalOperator.setOp s).meaning I db [l, r]).results env := by
  have matching (ls rs : Bag) :=
    tuples_join finds (I := I) (p := p)
      ((h.apart.mono_left (h.leftInside.trans hl.output_subset)).mono_right hr.output_subset)
      h.rightInside same ls rs
  change _ ↔ out ∈ (LogicalOperator.setOp s).results I db [l, r] env
  rw [mem_results_setOp h.lists]
  constructor
  · rintro ⟨bag, hbag, rfl⟩
    obtain ⟨_, ⟨ls, hls, rs, hrs, rfl⟩, rfl⟩ := (made env bag).1 hbag
    exact ⟨ls, hls, rs, hrs, by rw [distinct_rows h.someColumn, values, matching]⟩
  · rintro ⟨ls, hls, rs, hrs, rfl⟩
    exact ⟨_, (made env _).2 ⟨_, ⟨ls, hls, rs, hrs, rfl⟩, rfl⟩,
      by rw [distinct_rows h.someColumn, values, matching]⟩

variable (I db) in
/-- The difference and the intersection of two inputs are joins without duplicates; the columns
of the first input get new names where they differ from those of the result. -/
theorem toJoin (hl : l.Sound) (hr : r.Sound) (scope : InScope (.setOp s) [l, r])
    (lists : s.inputs = [left, right]) (finds : Finds s.kind type)
    (uses : p.uses ⊆ Column.idsOf left ∪ Column.idsOf right)
    (same : ∀ x : Row, p.test I x = some true ↔ (x.tuple left).same (x.tuple right) = true) :
    let rows := (LogicalOperator.join ⟨type, p⟩).meaning I db [l, r]
    let renamed := (LogicalOperator.project (renames s.output left)).meaning I db [rows]
    let distinct := LogicalOperator.groupBy (.distinctOn s.output)
    InScope (.join ⟨type, p⟩) [l, r] ∧
      ((s.output == left) = true → InScope distinct [rows] ∧
        distinct.meaning I db [rows] = (LogicalOperator.setOp s).meaning I db [l, r]) ∧
      ((s.output == left) = false →
        InScope (.project (renames s.output left)) [rows] ∧ InScope distinct [renamed] ∧
          distinct.meaning I db [renamed] =
          (LogicalOperator.setOp s).meaning I db [l, r]) := by
  intro rows renamed distinct
  have h := Pairs.of_fits lists scope.fits
  have hidden :
      Disjoint (l.free ∪ r.free) (Column.idsOf s.output ∪ (l.defined ∪ r.defined)) := by
    have hidden := scope.free_disjoint
    rwa [List.map, List.map, List.map, h.setOp_scope] at hidden
  have inside : l.output ⊆ l.defined ∪ r.defined :=
    hl.output_subset.trans Finset.subset_union_left
  have rowsScope :
      rows.toScope = ⟨l.output, l.output ∪ (l.defined ∪ r.defined), l.free ∪ r.free⟩ :=
    h.join_scope finds.isLeftOnly uses
  have sameOutput : rows.output = l.output := by rw [rowsScope]
  have renamedScope : renamed.toScope = _ := h.renames_scope sameOutput
  refine ⟨⟨.join h.apart, ?_⟩, fun equal => ?_, fun unequal => ?_⟩
  · change Disjoint rows.free rows.defined
    rw [rowsScope]
    exact hidden.mono_right (by grind)
  · have names : s.output.map Column.bare = left.map Column.bare :=
      Column.list_beq_iff_bare.1 equal
    have outputs : Column.idsOf s.output = Column.idsOf left := by
      rw [← Column.idsOf_bare s.output, names, Column.idsOf_bare]
    have columns : distinct.scope [rows.toScope] =
        (LogicalOperator.setOp s).scope [l.toScope, r.toScope] := by
      rw [h.setOp_scope, rowsScope, distinct_scope]
      have := h.leftInside
      ext i <;> grind
    refine ⟨⟨distinct_fits (by rw [rowsScope, outputs]; exact h.leftInside),
      columns ▸ scope.free_disjoint⟩, Meaning.eq_of_scope columns fun env out =>
        mem_distinct_iff h finds hl hr same (f := id) ?_ ?_⟩
    · exact fun b => Multiset.map_congr rfl fun x _ => by
        rw [← Row.tuple_bare x s.output, names, Row.tuple_bare]
    · simp [rows]
  · have fresh : Disjoint (Column.idsOf s.output) (l.defined ∪ r.defined) := by
      refine h.fresh.resolve_right fun equal => ?_
      have : (s.output == left) = true :=
        Column.list_beq_iff_bare.2 (Column.list_beq_iff_bare.1 equal).symm
      rw [unequal] at this
      cases this
    have columns : distinct.scope [renamed.toScope] =
        (LogicalOperator.setOp s).scope [l.toScope, r.toScope] := by
      rw [h.setOp_scope, renamedScope, rowsScope, distinct_scope]
      ext i <;> grind
    refine ⟨⟨.project (by rw [columns_renames h.length]; exact h.distinct) ?_, ?_⟩,
      ⟨distinct_fits ?_, columns ▸ scope.free_disjoint⟩,
      Meaning.eq_of_scope columns fun env out => mem_distinct_iff h finds hl hr same
        (tuples_renames (I := I) h.distinct h.length) fun env bag => ?_⟩
    · rw [rowsScope, columns_renames h.length]
      exact fresh.mono_right (by grind)
    · change Disjoint renamed.free renamed.defined
      rw [renamedScope, rowsScope]
      exact hidden.mono_right (by grind)
    · rw [renamedScope]
      exact Finset.subset_union_right
    · exact Iff.rfl

end Equivalence

end QueryOptimizer
