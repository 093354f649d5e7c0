import QueryOptimizer.Proofs.Statistics.Filtering

/-!
# Bounds of row estimates

Every estimate of a number of rows is at least one, and exactly one where a relation
provably has no rows (`Statistics.Floored`). In exact arithmetic an estimate also respects
how many rows an operation can have: a join no more than there are pairs, a semi or anti
join and a set operation on the left no more than the left input, an outer join at least as
many as the left input, a grouping or a limit no more than its input, and a concatenation as
many as its inputs have together.

What the histograms say matters for one of these bounds only, that of the inner join, where it
is enough that their frequencies are fractions (`Histogram.Fractional`). The numbers of
different values may be anything.

## Main results

* `Statistics.invariant_floored`: every derivation keeps the floor.
* `Statistics.rows_innerJoin_le`: the bound of inner joins.
* `Statistics.row_bounds`: all bounds together, for real numbers.
-/

namespace QueryOptimizer

open Quantity Estimate

variable {K : Type} [ExactQuantity K]

namespace Statistics

/-- Whether there is at least one row, and exactly one in a relation that is marked empty. -/
structure Floored (s : Statistics K) : Prop where
  one_le : 1 ≤ s.rows
  rows_of_isEmpty : s.isEmpty = true → s.rows = 1

/-- The least number of rows is 1. -/
theorem minRows_eq : (minRows : K) = 1 :=
  one_eq

/-- A number of rows is at least 1 when it is made as large as the least one. -/
theorem larger_minRows (a : K) : larger a minRows = max a 1 := by
  rw [larger_eq_max, minRows_eq]

/-- A number that is made as large as the least number of rows is at least 1. -/
theorem one_le_larger_minRows (a : K) : 1 ≤ larger a minRows :=
  larger_minRows a ▸ le_max_right a 1

/-- What is not marked empty has the floor if there is at least one row. -/
theorem floored_of_isEmpty_eq_false {s : Statistics K} (some : s.isEmpty = false)
    (rows : 1 ≤ s.rows) : s.Floored :=
  ⟨rows, fun none => by rw [some] at none; cases none⟩

/-- Statistics of one row are floored. -/
theorem floored_of_rows_eq {s : Statistics K} (rows : s.rows = 1) : s.Floored :=
  ⟨rows.ge, fun _ => rows⟩

/-- The statistics of nothing count one row. -/
theorem floored_empty (cols : List Column) : (empty cols : Statistics K).Floored :=
  floored_of_rows_eq minRows_eq

/-- Cleared statistics count one row. -/
theorem floored_cleared (s : Statistics K) : s.cleared.Floored :=
  floored_of_rows_eq s.rows_cleared

variable {s t : Statistics K} {config : Config K}

/-- Floored statistics do not count a negative number of rows. -/
theorem zero_le_rows (h : s.Floored) : 0 ≤ s.rows :=
  le_trans (zero_le_one' K) h.one_le

/-! ### Grouping and limits -/

/-- There is at least one group. -/
theorem one_le_groupCount (s : Statistics K) (config : Config K) (keys : List Column) :
    1 ≤ s.groupCount config keys := by
  unfold groupCount
  split
  · exact minRows_eq.ge
  · exact one_le_larger_minRows _

/-- There are no more groups than rows. -/
theorem groupCount_le (h : s.Floored) (config : Config K) (keys : List Column) :
    s.groupCount config keys ≤ s.rows := by
  have bounded {count : K} (hcount : count ≤ s.rows) (bounds : List K) :
      bounds.foldl smaller count ≤ s.rows := by
    induction bounds generalizing count with
    | nil => exact hcount
    | cons bound bounds ih =>
      exact ih (by rw [smaller_eq_min]; exact le_trans (min_le_left _ _) hcount)
  unfold groupCount
  split
  · exact minRows_eq.trans_le h.one_le
  · dsimp only
    rw [larger_minRows, smaller_eq_min]
    exact max_le (bounded (min_le_right _ _) _) h.one_le

/-- A grouping has at least one row. -/
theorem floored_groupBy (s : Statistics K) (config : Config K)
    (keys aggregates : List Column) :
    (s.groupBy config keys aggregates).Floored := by
  unfold groupBy
  split
  · exact floored_empty _
  · exact floored_of_isEmpty_eq_false rfl (s.one_le_groupCount config keys)

/-- A grouping has no more rows than its input. -/
theorem rows_groupBy_le (h : s.Floored) (config : Config K) (keys aggregates : List Column) :
    (s.groupBy config keys aggregates).rows ≤ s.rows := by
  unfold groupBy
  split
  · exact minRows_eq.trans_le h.one_le
  · exact groupCount_le h config keys

/-- A limit has at least one row. -/
theorem floored_limit (s : Statistics K) (count : K) : (s.limit count).Floored := by
  refine ⟨?_, fun none => ?_⟩
  · change 1 ≤ if s.isEmpty then minRows else larger count minRows
    split
    · exact minRows_eq.ge
    · exact one_le_larger_minRows _
  · exact (if_pos none).trans minRows_eq

/-- A limit has no more rows than its input. -/
theorem rows_limit_le (h : s.Floored) {count : K} (hcount : count ≤ s.rows) :
    (s.limit count).rows ≤ s.rows := by
  change (if s.isEmpty then minRows else larger count minRows) ≤ s.rows
  split
  · exact minRows_eq.trans_le h.one_le
  · rw [larger_minRows]
    exact max_le hcount h.one_le

/-! ### Joins -/

/-- An inner join has at least one row. -/
theorem floored_innerJoin (config : Config K) (s t : Statistics K) (p : JoinPredicate) :
    (innerJoin config s t p).Floored := by
  unfold innerJoin
  split
  · exact floored_cleared _
  · rename_i some
    exact floored_of_isEmpty_eq_false (Bool.not_eq_true _ ▸ some) (one_le_larger_minRows _)

/-- The selectivity of the equality of two columns. -/
theorem isFraction_equalitySelectivity (hs : s.histograms.All Histogram.Fractional)
    (ht : t.histograms.All Histogram.Fractional) (l r : Column) :
    IsFraction (equalitySelectivity s t l r).1 := by
  unfold equalitySelectivity
  dsimp only
  split
  · rename_i k selectivity joined
    obtain ⟨h, hh, joined⟩ := Option.bind_eq_some_iff.1 joined
    obtain ⟨g, hg, joined⟩ := Option.bind_eq_some_iff.1 joined
    exact Histogram.isFraction_of_joinEquality? (hs.get? hh) (ht.get? hg) joined
  · exact isFraction_one_div_larger _

/-- An inner join has no more rows than there are pairs. -/
theorem rows_innerJoin_le [FractionPower K] (hs : s.Floored) (ht : t.Floored)
    (fractionalS : s.histograms.All Histogram.Fractional)
    (fractionalT : t.histograms.All Histogram.Fractional) (config : Config K)
    (p : JoinPredicate) : (innerJoin config s t p).rows ≤ s.rows * t.rows := by
  have pair : 1 ≤ s.rows * t.rows := one_le_mul_of_one_le_of_one_le hs.one_le ht.one_le
  unfold innerJoin
  split
  · exact (rows_cleared _).trans_le pair
  · have fraction (a : K)
      (ha : a ∈ (p.equalities.map fun q => (q, equalitySelectivity s t q.1 q.2)).map (·.2.1) ++
        List.replicate p.others defaultSelectivity) : IsFraction a := by
      rcases List.mem_append.1 ha with ha | ha
      · obtain ⟨part, hpart, rfl⟩ := List.mem_map.1 ha
        obtain ⟨q, -, rfl⟩ := List.mem_map.1 hpart
        exact isFraction_equalitySelectivity fractionalS fractionalT q.1 q.2
      · exact List.eq_of_mem_replicate ha ▸ isFraction_defaultSelectivity
    have joined : s.rows * t.rows * combineSelectivities _ config.joinDamping ≤
        s.rows * t.rows :=
      mul_le_of_le_one_right (le_trans (zero_le_one' K) pair)
        (isFraction_combineSelectivities fraction _).le_one
    change larger (larger _ minRows) minRows ≤ _
    rw [larger_minRows, larger_minRows]
    exact max_le (max_le joined pair) pair

/-- A semijoin has at least one row. -/
theorem floored_semiJoin (config : Config K) (s t : Statistics K) (p : JoinPredicate) :
    (semiJoin config s t p).Floored := by
  unfold semiJoin
  split
  · exact floored_cleared s
  · exact floored_of_isEmpty_eq_false rfl (one_le_larger_minRows _)

/-- A semijoin has no more rows than its left input. -/
theorem rows_semiJoin_le (hs : s.Floored) (config : Config K) (t : Statistics K)
    (p : JoinPredicate) : (semiJoin config s t p).rows ≤ s.rows := by
  unfold semiJoin
  split
  · exact s.rows_cleared.trans_le hs.one_le
  · change larger _ minRows ≤ s.rows
    rw [larger_minRows]
    refine max_le ?_ hs.one_le
    split
    · exact le_refl _
    · rw [smaller_eq_min]
      exact min_le_right _ _

/-- An antijoin has at least one row. -/
theorem floored_antiJoin (hs : s.Floored) (config : Config K) (t : Statistics K)
    (p : JoinPredicate) (notIn keepHistograms : Bool) :
    (antiJoin config s t p notIn keepHistograms).Floored := by
  unfold antiJoin
  split
  · exact hs
  · refine floored_of_isEmpty_eq_false rfl ?_
    dsimp only
    split
    · exact minRows_eq.ge
    · exact one_le_larger_minRows _

/-- An antijoin has no more rows than its left input. -/
theorem rows_antiJoin_le (hs : s.Floored) (config : Config K) (t : Statistics K)
    (p : JoinPredicate) (notIn keepHistograms : Bool) :
    (antiJoin config s t p notIn keepHistograms).rows ≤ s.rows := by
  unfold antiJoin
  split
  · exact le_refl _
  · dsimp only
    split
    · exact minRows_eq.trans_le hs.one_le
    · rw [larger_minRows]
      exact max_le (sub_le_self _ (zero_le_rows (floored_semiJoin config s t p))) hs.one_le

/-- A left outer join has at least one row. -/
theorem floored_leftOuterJoin (config : Config K) (s t : Statistics K) (p : JoinPredicate) :
    (leftOuterJoin config s t p).Floored := by
  unfold leftOuterJoin
  split
  · exact floored_cleared _
  · exact floored_of_isEmpty_eq_false rfl (one_le_larger_minRows _)

/-- A left outer join has at least the left rows. -/
theorem le_rows_leftOuterJoin (hs : s.Floored) (config : Config K) (t : Statistics K)
    (p : JoinPredicate) : s.rows ≤ (leftOuterJoin config s t p).rows := by
  unfold leftOuterJoin
  split
  · rename_i none
    exact ((hs.rows_of_isEmpty none).trans (rows_cleared _).symm).le
  · change s.rows ≤ larger (larger _ s.rows) minRows
    rw [larger_minRows, larger_eq_max]
    exact le_trans (le_max_right _ _) (le_max_left _ _)

/-- It has at least the rows of the inner join. -/
theorem rows_innerJoin_le_leftOuterJoin (hs : s.Floored) (someS : s.isEmpty = false)
    (someT : t.isEmpty = false) (config : Config K) (p : JoinPredicate) :
    (innerJoin config s t p).rows ≤ (leftOuterJoin config s t p).rows := by
  have anti : 0 ≤ (antiJoin config s t p false false).rows :=
    zero_le_rows (floored_antiJoin hs config t p _ _)
  unfold leftOuterJoin
  rw [someS, someT]
  change _ ≤
    larger (larger
      ((innerJoin config s t p).rows + (antiJoin config s t p false false).rows) s.rows)
        minRows
  rw [larger_minRows, larger_eq_max]
  exact le_trans (le_add_of_nonneg_right anti) (le_trans (le_max_left _ _) (le_max_left _ _))

/-! ### Set operations -/

variable {first second : SetInput K}

/-- The number of rows, where a relation that is marked empty has none. -/
def filledRows (s : Statistics K) : K :=
  if s.isEmpty then 0 else s.rows

/-- Floored statistics of nothing count one row, others their own. -/
theorem Floored.rows_eq (h : s.Floored) : s.rows = if s.isEmpty then 1 else s.filledRows := by
  unfold filledRows
  split
  · exact h.rows_of_isEmpty ‹_›
  · rfl

/-- A concatenation has at least one row. -/
theorem floored_unionAll (h : first.stats.Floored) (h' : second.stats.Floored)
    (output : List Column) : (unionAll first second output).Floored := by
  unfold unionAll
  split
  · exact floored_empty output
  · exact ⟨h.one_le, h.rows_of_isEmpty⟩
  · exact ⟨h'.one_le, h'.rows_of_isEmpty⟩
  · exact floored_of_isEmpty_eq_false rfl (one_le_larger_minRows _)

/-- A concatenation has the rows of both inputs, and is marked empty if both are. -/
theorem rows_unionAll (h : first.stats.Floored) (h' : second.stats.Floored)
    (output : List Column) :
    (unionAll first second output).isEmpty = (first.stats.isEmpty && second.stats.isEmpty) ∧
      (unionAll first second output).filledRows =
        first.stats.filledRows + second.stats.filledRows := by
  have renamed (i : SetInput K) : (i.renamed output).isEmpty = i.stats.isEmpty ∧
      (i.renamed output).filledRows = i.stats.filledRows := ⟨rfl, rfl⟩
  unfold unionAll
  split
  · rename_i none none'
    refine ⟨by rw [none, none']; rfl, ?_⟩
    rw [filledRows, filledRows, filledRows, if_pos none, if_pos none', add_zero]
    exact if_pos rfl
  · rename_i none'
    rw [(renamed first).1, (renamed first).2, filledRows, filledRows, if_pos none',
      add_zero, none', Bool.and_true]
    exact ⟨rfl, rfl⟩
  · rename_i none _
    rw [(renamed second).1, (renamed second).2, filledRows, filledRows,
      if_pos none, zero_add, none, Bool.true_and]
    exact ⟨rfl, rfl⟩
  · rename_i some some'
    have more : 1 ≤ first.stats.rows + second.stats.rows :=
      le_add_of_le_of_nonneg h.one_le (zero_le_rows h')
    refine ⟨by rw [some, some']; rfl, ?_⟩
    rw [filledRows, filledRows, filledRows, some, some']
    exact (larger_minRows _).trans (max_eq_left more)

/-- So has a concatenation of any number of inputs. -/
theorem rows_unionAllOf {inputs : List (SetInput K)} (h : ∀ i ∈ inputs, i.stats.Floored)
    (output : List Column) :
    (unionAllOf inputs output).isEmpty = inputs.all (·.stats.isEmpty) ∧
      (unionAllOf inputs output).filledRows = (inputs.map (·.stats.filledRows)).sum := by
  cases inputs with
  | nil => exact ⟨rfl, if_pos rfl⟩
  | cons first others =>
    obtain ⟨hfirst, hothers⟩ := List.forall_mem_cons.1 h
    suffices joined : ∀ acc : Statistics K, acc.Floored →
        (others.foldl (fun acc i => unionAll ⟨acc, output⟩ i output) acc).isEmpty =
            (acc.isEmpty && others.all (·.stats.isEmpty)) ∧
          (others.foldl (fun acc i => unionAll ⟨acc, output⟩ i output) acc).filledRows =
            acc.filledRows + (others.map (·.stats.filledRows)).sum by
      rw [List.all_cons, List.map_cons, List.sum_cons]
      exact joined (first.renamed output) ⟨hfirst.one_le, hfirst.rows_of_isEmpty⟩
    clear h
    induction others with
    | nil => exact fun acc _ => ⟨(Bool.and_true _).symm, (add_zero _).symm⟩
    | cons second others ih =>
      obtain ⟨hsecond, hothers⟩ := List.forall_mem_cons.1 hothers
      intro acc hacc
      let first : SetInput K := ⟨acc, output⟩
      have hfirst : first.stats.Floored := hacc
      obtain ⟨empty, rows⟩ := rows_unionAll hfirst hsecond output
      obtain ⟨empties, sum⟩ := ih hothers _ (floored_unionAll hfirst hsecond output)
      rw [List.foldl_cons, empties, sum, empty, rows, List.all_cons, List.map_cons,
        List.sum_cons, Bool.and_assoc, add_assoc]
      exact ⟨rfl, rfl⟩

/-- Inputs without rows do not count for the rows of a concatenation. -/
theorem sum_filledRows (inputs : List (SetInput K)) :
    (inputs.map (·.stats.filledRows)).sum =
      ((inputs.filter (!·.stats.isEmpty)).map (·.stats.rows)).sum := by
  induction inputs with
  | nil => rfl
  | cons i inputs ih =>
    rw [List.map_cons, List.sum_cons, ih, List.filter_cons, filledRows]
    cases i.stats.isEmpty with
    | true => exact zero_add _
    | false => exact List.sum_cons.symm

/-! ### Whatever is derived -/

/-- The statistics of a stored table count at least one row. -/
theorem floored_ofTable {catalog : Catalog K} {table : Table} {cols : List Column}
    (known : ofTable catalog config table cols = .ok s) : s.Floored := by
  obtain ⟨stats, -, known⟩ := OptResult.bind_eq_ok.1 known
  obtain rfl := Except.ok.inj known
  exact floored_of_isEmpty_eq_false rfl (one_le_larger_minRows _)

/-- The statistics of constant rows count at least one row. -/
theorem floored_ofRows (cols : List Column) (rows : List (List Datum)) :
    (ofRows cols rows : Statistics K).Floored := by
  unfold ofRows
  split
  · exact floored_empty cols
  · exact floored_of_isEmpty_eq_false rfl (one_le_larger_minRows _)

/-- A filter leaves at least one row. -/
theorem floored_filter (h : s.Floored) {catalog : Catalog K} {e : Scalar}
    (passed : s.filter catalog config e = .ok t) : t.Floored := by
  unfold filter at passed
  split at passed
  · exact Except.ok.inj passed ▸ h
  rename_i some
  split at passed
  · exact Except.ok.inj passed ▸ floored_cleared s
  obtain ⟨known, -, passed⟩ := OptResult.bind_eq_ok.1 passed
  split at passed
  · exact Except.ok.inj passed ▸ floored_cleared s
  obtain ⟨parts, -, passed⟩ := OptResult.bind_eq_ok.1 passed
  exact Except.ok.inj passed ▸ floored_of_isEmpty_eq_false (Bool.eq_false_of_not_eq_true some)
    (one_le_larger_minRows _)

/-- A projection has at least one row. -/
theorem floored_project (h : s.Floored) (definitions : List Definition) :
    (s.project definitions).Floored := by
  suffices defined : ∀ t : Statistics K, t.Floored →
    (definitions.foldl s.define t).Floored from defined s h
  induction definitions with
  | nil => exact fun _ ht => ht
  | cons d definitions ih =>
    refine fun t ht => ih _ ?_
    unfold define
    split
    · exact ht
    · exact ⟨ht.one_le, ht.rows_of_isEmpty⟩

/-- Every derivation keeps the floor. -/
theorem invariant_floored : Invariant (Floored (K := K)) where
  empty := floored_empty
  ofTable := floored_ofTable
  ofRows := floored_ofRows
  filter h passed := floored_filter h passed
  project := floored_project
  groupBy _ := floored_groupBy _
  limit _ := floored_limit _
  restrict h _ := ⟨h.one_le, h.rows_of_isEmpty⟩
  rename h _ _ := ⟨h.one_le, h.rows_of_isEmpty⟩
  innerJoin _ _ config p := floored_innerJoin config _ _ p
  leftOuterJoin _ _ config p := floored_leftOuterJoin config _ _ p
  semiJoin _ config t p := floored_semiJoin config _ t p
  antiJoin := floored_antiJoin
  unionAll := floored_unionAll

end Statistics

/-! ### Limits -/

/-- No more rows are left after a limit than there were. -/
theorem Limit.rowsAfter_le (l : Limit) {rows : K} (h : 0 ≤ rows) :
    l.rowsAfter rows ≤ rows := by
  have rest : larger (rows - ofNat l.offset) 0.0 ≤ rows := by
    rw [larger_eq_max, zero_eq, ExactQuantity.ofNat_eq]
    exact max_le (sub_le_self _ (Nat.cast_nonneg _)) h
  unfold rowsAfter
  dsimp only
  split
  · rw [smaller_eq_min]
    exact le_trans (min_le_left _ _) rest
  · exact rest

/-- The operator that cuts its input off estimates at most the rows of the input. -/
theorem LogicalOperator.rows_limit_le {env : Environment K} (running : env.isCancelled = false)
    (ctes : CteTable K) (l : Limit) {r : Relation K} (h : r.statistics.Floored)
    (property : LogicalProperty) :
    ∃ s, (LogicalOperator.limit l).statistics env ctes [r] property = .ok s ∧
      s.rows ≤ r.statistics.rows := by
  unfold LogicalOperator.statistics
  rw [running, if_neg Bool.false_ne_true]
  split
  · exact ⟨_, rfl, Statistics.minRows_eq.trans_le h.one_le⟩
  · exact ⟨_, rfl, Statistics.rows_limit_le h (l.rowsAfter_le (Statistics.zero_le_rows h))⟩

/-! ### All bounds -/

namespace Statistics

/-- Statistics that have the floor, and histograms whose frequencies are fractions. -/
structure Proper (s : Statistics K) : Prop extends s.Floored where
  histograms : s.histograms.All Histogram.Fractional

/-- The statistics of nothing are proper. -/
theorem proper_empty (cols : List Column) : (empty cols : Statistics K).Proper where
  toFloored := floored_empty cols
  histograms := ByColumn.all_ofList_map fun _ _ => {
    buckets _ mem := by cases mem
    nullFreq := (zero_eq (K := K)).ge
    freqRemaining := (zero_eq (K := K)).ge
    total := by simp [Histogram.totalFrequency_eq, Histogram.empty, zero_eq] }

/-- The bounds of all derivations, in the arithmetic of real numbers and whether or not
selectivities are damped. -/
theorem row_bounds (config : Config ℝ) {s t : Statistics ℝ} (hs : s.Proper) (ht : t.Proper)
    {inputs : List (SetInput ℝ)} (hinputs : ∀ i ∈ inputs, i.stats.Proper) (p : JoinPredicate)
    (keys aggregates cols cols' output : List Column) :
    -- Joins.
    (innerJoin config s t p).rows ≤ s.rows * t.rows ∧
    (semiJoin config s t p).rows ≤ s.rows ∧
    (∀ notIn keepHistograms, (antiJoin config s t p notIn keepHistograms).rows ≤ s.rows) ∧
    s.rows ≤ (leftOuterJoin config s t p).rows ∧
    (s.isEmpty = false → t.isEmpty = false →
      (innerJoin config s t p).rows ≤ (leftOuterJoin config s t p).rows) ∧
    -- Set operations.
    (differenceAll config ⟨s, cols⟩ ⟨t, cols'⟩ output).rows ≤ s.rows ∧
    (difference config ⟨s, cols⟩ ⟨t, cols'⟩ output).rows ≤ s.rows ∧
    (intersectAll config ⟨s, cols⟩ ⟨t, cols'⟩ output).rows ≤ s.rows ∧
    (intersect config ⟨s, cols⟩ ⟨t, cols'⟩ output).rows ≤ s.rows ∧
    ((unionAllOf inputs output).isEmpty = true ↔ ∀ i ∈ inputs, i.stats.isEmpty = true) ∧
    (unionAllOf inputs output).rows =
      (if inputs.all (·.stats.isEmpty) then 1
      else ((inputs.filter (!·.stats.isEmpty)).map (·.stats.rows)).sum) ∧
    -- Groupings and limits.
    (s.groupBy config keys aggregates).rows ≤ s.rows ∧
    (∀ env ctes l property derived, env.isCancelled = false → ∃ u,
      (LogicalOperator.limit l).statistics env ctes [⟨property, s⟩] derived = .ok u ∧
        u.rows ≤ s.rows) ∧
    -- The floor, for each derivation and for each operator.
    Invariant (Floored (K := ℝ)) ∧
    (∀ (op : LogicalOperator) (env : Environment ℝ) (ctes : CteTable ℝ) (relations : Inputs ℝ)
        (property : LogicalProperty) (u : Statistics ℝ),
      (∀ r ∈ relations, r.statistics.Proper) → (∀ entry ∈ ctes, entry.2.statistics.Proper) →
      op.statistics env ctes relations property = .ok u → 1 ≤ u.rows ∧
        (u.isEmpty = true → u.rows = 1)) := by
  have grouped := floored_groupBy s config cols []
  have fewer : (s.groupBy config cols []).rows ≤ s.rows :=
    rows_groupBy_le hs.toFloored config cols []
  have floored : ∀ i ∈ inputs, i.stats.Floored := fun i hi => (hinputs i hi).toFloored
  obtain ⟨empty, rows⟩ := rows_unionAllOf floored output
  have union := (invariant_floored.unionAllOf floored output).rows_eq
  refine ⟨rows_innerJoin_le hs.toFloored ht.toFloored hs.histograms ht.histograms config p,
    rows_semiJoin_le hs.toFloored config t p, rows_antiJoin_le hs.toFloored config t p,
    le_rows_leftOuterJoin hs.toFloored config t p,
    fun some some' => rows_innerJoin_le_leftOuterJoin hs.toFloored some some' config p,
    rows_antiJoin_le hs.toFloored config t _ _ _,
    le_trans (rows_antiJoin_le grouped config t _ _ _) fewer,
    rows_semiJoin_le hs.toFloored config t _,
    le_trans (rows_semiJoin_le grouped config t _) fewer, ?_, ?_,
    rows_groupBy_le hs.toFloored config keys aggregates,
    fun env ctes l property derived running =>
      LogicalOperator.rows_limit_le running ctes l hs.toFloored derived,
    invariant_floored, fun op env ctes relations property u hrelations hctes known => ?_⟩
  · rw [empty, List.all_eq_true]
  · rw [union, empty, rows, sum_filledRows]
  · have := invariant_floored.of_statistics (fun r hr => (hrelations r hr).toFloored)
      (fun entry hentry => (hctes entry hentry).toFloored) known
    exact ⟨this.one_le, this.rows_of_isEmpty⟩

/-- A column of numbers. -/
def numbers : Column :=
  ⟨0, .integer .int64, -1, "n", .computed⟩

/-- Ten rows, half of them with the number 1 and half with one of the numbers from 3 to 8. -/
def tenRows : Statistics K where
  rows := 10.0
  histograms := .ofList [(numbers.id, ⟨[.singleton (.integer .int64 1) 0.5,
    ⟨.integer .int64 3, .integer .int64 8, true, true, 0.5, 4.0⟩], 0.0, 0.0,
      0.0, true, false⟩)]
  widths := .ofList [(numbers.id, 8.0)]

/-- The statistics of ten numbers count ten rows. -/
theorem rows_tenRows : (tenRows : Statistics K).rows = 10 := by
  rw [tenRows, ExactQuantity.ofScientific_eq]
  norm_num

/-- The statistics of ten numbers are proper. -/
theorem proper_tenRows : (tenRows : Statistics K).Proper where
  one_le := by norm_num [rows_tenRows]
  rows_of_isEmpty none := by cases none
  histograms := ByColumn.all_ofList (List.forall_mem_singleton.2 {
    buckets := by norm_num [Bucket.singleton, ExactQuantity.ofScientific_eq]
    nullFreq := zero_eq.ge
    freqRemaining := zero_eq.ge
    total := by norm_num
      [Histogram.totalFrequency_eq, Bucket.singleton, ExactQuantity.ofScientific_eq] })

/-- The bounds for a join of these rows with themselves, and for their
concatenation with no rows. -/
theorem row_bounds_tenRows : (tenRows : Statistics ℝ).Proper ∧
    (innerJoin .default tenRows tenRows { equalities := [(numbers, numbers)] }).rows ≤
    (10 * 10 : ℝ) ∧
    (10 : ℝ) ≤
    (leftOuterJoin .default tenRows tenRows { equalities := [(numbers, numbers)] }).rows ∧
    (unionAllOf [⟨tenRows, [numbers]⟩, ⟨empty [numbers], [numbers]⟩] [numbers]).rows =
      (10 : ℝ) := by
  have inputs : ∀ i ∈ [(⟨tenRows, [numbers]⟩ : SetInput ℝ), ⟨empty [numbers], [numbers]⟩],
      i.stats.Proper := by
    exact List.forall_mem_cons.2
      ⟨proper_tenRows, List.forall_mem_singleton.2 (proper_empty [numbers])⟩
  obtain ⟨inner, -, -, outer, -, -, -, -, -, -, union, -⟩ :=
    row_bounds .default proper_tenRows proper_tenRows inputs
      { equalities := [(numbers, numbers)] } [] [] [] [] [numbers]
  rw [rows_tenRows] at inner outer
  refine ⟨proper_tenRows, inner, outer, union.trans ?_⟩
  have some : (tenRows : Statistics ℝ).isEmpty = false := rfl
  simp [empty, some, rows_tenRows]

end Statistics

end QueryOptimizer
