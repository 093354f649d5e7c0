import QueryOptimizer.Cost
import QueryOptimizer.Proofs.Derivation.Invariant
import QueryOptimizer.Proofs.Number.Quantity

/-!
# Estimated sizes

Whatever the catalog says about a table, and whatever is done to estimates, there is at least
one row in the end, and no column is narrower than nothing (`Statistics.Sized`). So the cost of
an operator is an amount. Histograms and numbers of different values may be anything; what they
contribute to a number of rows is raised to one.

This needs no exact arithmetic, only that rounding respects the order of quantities.
There is one exception: to send infinitely many rows to every one of no segments has a
cost that is no number.

## Main results

* `LogicalOperator.sized_of_derive`: what is derived about an operator over
  sized inputs is sized.
* `Cost.zero_le_ofOperator`: the cost of an operator over sized inputs is an
  amount, with that exception.
-/

namespace QueryOptimizer

/-! ### Values by column -/

namespace ByColumn

variable {α : Type} {P : α → Prop} {m n : ByColumn α}

/-- Whether all values are as `P` says. -/
def All (P : α → Prop) (m : ByColumn α) : Prop :=
  ∀ entry ∈ m.entries, P entry.2

/-- What holds of all entries holds of the values. -/
theorem All.values (h : m.All P) : ∀ a ∈ m.values, P a := by
  intro a ha
  obtain ⟨entry, hentry, rfl⟩ := List.mem_map.1 ha
  exact h entry hentry

/-- What holds of all entries holds of one that is found. -/
theorem All.get? (h : m.All P) {id : Nat} {a : α} (found : m.get? id = some a) : P a := by
  obtain ⟨before, after, entries, -⟩ := List.lookup_eq_some_iff.1 found
  exact h (id, a) (by rw [entries]; simp)

/-- What holds of all entries and of a new value holds with the new entry. -/
theorem All.insert (h : m.All P) (id : Nat) {a : α} (ha : P a) : (m.insert id a).All P := by
  suffices sorted : ∀ entries : List (Nat × α), (∀ entry ∈ entries, P entry.2) →
      ∀ entry ∈ insertSorted id a entries, P entry.2 from sorted m.entries h
  intro entries
  induction entries with
  | nil => simp [insertSorted, ha]
  | cons first rest ih =>
    obtain ⟨i, b⟩ := first
    intro all
    obtain ⟨hb, hrest⟩ := List.forall_mem_cons.1 all
    simp only [insertSorted]
    split
    · exact List.forall_mem_cons.2 ⟨ha, all⟩
    · split
      · exact List.forall_mem_cons.2 ⟨ha, hrest⟩
      · exact List.forall_mem_cons.2 ⟨hb, ih hrest⟩

/-- What holds of all entries and of new values holds with the new entries. -/
theorem All.insertMany (h : m.All P) {entries : List (Nat × α)}
    (all : ∀ entry ∈ entries, P entry.2) : (m.insertMany entries).All P := by
  unfold ByColumn.insertMany
  induction entries generalizing m with
  | nil => exact h
  | cons first rest ih =>
    obtain ⟨ha, hrest⟩ := List.forall_mem_cons.1 all
    exact ih (h.insert first.1 ha) hrest

/-- What holds of the values of a list holds of the map that is made of it. -/
theorem all_ofList {entries : List (Nat × α)} (all : ∀ entry ∈ entries, P entry.2) :
    (ofList entries).All P :=
  All.insertMany (m := ByColumn.empty) (fun _ mem => by cases mem) all

/-- The values of a list of columns. -/
theorem all_ofList_map {β : Type} {bs : List β} {f : β → Nat × α} (all : ∀ b ∈ bs, P (f b).2) :
    (ofList (bs.map f)).All P :=
  all_ofList fun entry hentry => by
    obtain ⟨b, hb, rfl⟩ := List.mem_map.1 hentry
    exact all b hb

/-- What holds of all entries of two maps holds of their union. -/
theorem All.union (h : m.All P) (h' : n.All P) : (m.union n).All P :=
  h.insertMany h'

/-- What holds of all entries holds of those that pass a test. -/
theorem All.filter (h : m.All P) (p : Nat → Bool) : (m.filter p).All P :=
  fun entry hentry => h entry (List.mem_of_mem_filter hentry)

end ByColumn

variable {K : Type} [Quantity K]

/-! ### Sized statistics -/

/-- Whether there is at least one row, and no column is narrower than nothing. -/
structure Statistics.Sized (s : Statistics K) : Prop where
  rows : 1.0 ≤ s.rows
  widths : s.widths.All (0.0 ≤ ·)

variable [OrderedQuantity K]

namespace Statistics

open Quantity Estimate

/-- The least number of rows is 1. -/
theorem one_le_minRows : (1.0 : K) ≤ minRows :=
  le_refl_of_nonneg zero_le_one

/-- No column has a negative width. -/
theorem zero_le_columnWidth (c : Column) : (0.0 : K) ≤ columnWidth c :=
  OrderedQuantity.zero_le_ofNat c.width

/-- The statistics of nothing are sized. -/
theorem sized_empty (cols : List Column) : (empty cols : Statistics K).Sized where
  rows := one_le_minRows
  widths := ByColumn.all_ofList_map fun c _ => zero_le_columnWidth c

/-- The statistics of a stored table are sized, whatever the catalog says. -/
theorem sized_ofTable {catalog : Catalog K} {config : Config K} {t : Table}
    {cols : List Column} {s : Statistics K} (known : ofTable catalog config t cols = .ok s) :
    s.Sized := by
  obtain ⟨stats, -, known⟩ := OptResult.bind_eq_ok.1 known
  obtain rfl := Except.ok.inj known
  exact ⟨one_le_larger _, ByColumn.all_ofList_map fun c _ => zero_le_columnWidth c⟩

/-- The statistics of constant rows are sized. -/
theorem sized_ofRows (cols : List Column) (rows : List (List Datum)) :
    (ofRows cols rows : Statistics K).Sized := by
  unfold ofRows
  split
  · exact sized_empty cols
  · exact ⟨one_le_larger _, ByColumn.all_ofList_map fun c _ => zero_le_columnWidth c⟩

variable {s t : Statistics K} {config : Config K} {output : List Column}

namespace Sized

/-- Sized statistics do not count a negative number of rows. -/
theorem zero_le_rows (h : s.Sized) : 0.0 ≤ s.rows :=
  nonneg_of_one_le h.rows

/-- The rows of sized statistics have no negative width. -/
theorem zero_le_rowWidth (h : s.Sized) : 0.0 ≤ s.rowWidth :=
  sum_nonneg h.widths.values

/-- The width of a column, recorded or not. -/
theorem zero_le_width (h : s.Sized) (c d : Column) :
    0.0 ≤ (s.width? c).getD (columnWidth d) := by
  cases known : s.width? c with
  | none => exact zero_le_columnWidth d
  | some w => exact h.widths.get? known

/-- Sized statistics stay so when they are cleared. -/
theorem cleared (h : s.Sized) : s.cleared.Sized :=
  ⟨one_le_minRows, h.widths⟩

/-- A filter keeps statistics sized. -/
theorem filter (h : s.Sized) {catalog : Catalog K} {e : Scalar}
    (passed : s.filter catalog config e = .ok t) : t.Sized := by
  unfold Statistics.filter at passed
  split at passed
  · exact Except.ok.inj passed ▸ h
  · split at passed
    · exact Except.ok.inj passed ▸ h.cleared
    · obtain ⟨known, -, passed⟩ := OptResult.bind_eq_ok.1 passed
      split at passed
      · exact Except.ok.inj passed ▸ h.cleared
      · obtain ⟨parts, -, passed⟩ := OptResult.bind_eq_ok.1 passed
        exact Except.ok.inj passed ▸ ⟨one_le_larger _, h.widths⟩

/-- The definition of a column keeps statistics sized. -/
theorem define {input : Statistics K} (h : s.Sized) (d : Definition) :
    (input.define s d).Sized := by
  unfold Statistics.define
  split
  · exact h
  · exact ⟨h.rows, h.widths.insert _ (zero_le_columnWidth d.1)⟩

/-- A projection keeps statistics sized. -/
theorem project (h : s.Sized) (ds : List Definition) : (s.project ds).Sized := by
  suffices defined : ∀ t : Statistics K, t.Sized → (ds.foldl s.define t).Sized from defined s h
  induction ds with
  | nil => exact fun _ ht => ht
  | cons d ds ih => exact fun t ht => ih _ (ht.define d)

/-- A grouping keeps statistics sized. -/
theorem groupBy (h : s.Sized) (config : Config K) (keys aggregates : List Column) :
    (s.groupBy config keys aggregates).Sized := by
  unfold Statistics.groupBy
  split
  · exact sized_empty _
  · refine ⟨?_, ByColumn.all_ofList fun entry hentry => ?_⟩
    · change 1.0 ≤ s.groupCount config keys
      unfold groupCount
      split
      · exact one_le_minRows
      · exact one_le_larger _
    · rcases List.mem_append.1 hentry with mem | mem
      · obtain ⟨c, -, rfl⟩ := List.mem_map.1 mem
        exact h.zero_le_width c c
      · obtain ⟨c, -, rfl⟩ := List.mem_map.1 mem
        exact zero_le_columnWidth c

/-- A limit keeps statistics sized. -/
theorem limit (h : s.Sized) (count : K) : (s.limit count).Sized := by
  refine ⟨?_, h.widths⟩
  change 1.0 ≤ if s.isEmpty then minRows else larger count minRows
  split
  · exact one_le_minRows
  · exact one_le_larger _

omit [OrderedQuantity K] in
/-- Sized statistics stay so for some of their columns. -/
theorem restrict (h : s.Sized) (cols : ColumnSet) : (s.restrict cols).Sized :=
  ⟨h.rows, h.widths.filter _⟩

/-- Sized statistics stay so under new names. -/
theorem rename (h : s.Sized) (source target : List Column) : (s.rename source target).Sized :=
  ⟨h.rows, ByColumn.all_ofList_map fun pair _ => h.zero_le_width pair.1 pair.2⟩

/-! ### Joins -/

/-- Two sized statistics side by side are sized, whatever the rows are taken to be. -/
theorem sideBySide (h : s.Sized) (h' : t.Sized) (rows : K) : (sideBySide s t rows).Sized :=
  ⟨one_le_larger _, h.widths.union h'.widths⟩

/-- An inner join keeps statistics sized. -/
theorem innerJoin (h : s.Sized) (h' : t.Sized) (config : Config K) (p : JoinPredicate) :
    (innerJoin config s t p).Sized := by
  unfold Statistics.innerJoin
  split
  · exact (h.sideBySide h' _).cleared
  · exact ⟨one_le_larger _, h.widths.union h'.widths⟩

/-- A semijoin keeps statistics sized. -/
theorem semiJoin (h : s.Sized) (config : Config K) (t : Statistics K) (p : JoinPredicate) :
    (semiJoin config s t p).Sized := by
  unfold Statistics.semiJoin
  split
  · exact h.cleared
  · exact ⟨one_le_larger _, h.widths⟩

/-- An antijoin keeps statistics sized. -/
theorem antiJoin (h : s.Sized) (config : Config K) (t : Statistics K) (p : JoinPredicate)
    (notIn keepHistograms : Bool) : (antiJoin config s t p notIn keepHistograms).Sized := by
  unfold Statistics.antiJoin
  split
  · exact h
  · refine ⟨?_, h.widths⟩
    dsimp only
    split
    · exact one_le_minRows
    · exact one_le_larger _

/-- A left outer join keeps statistics sized. -/
theorem leftOuterJoin (h : s.Sized) (h' : t.Sized) (config : Config K) (p : JoinPredicate) :
    (leftOuterJoin config s t p).Sized := by
  unfold Statistics.leftOuterJoin
  split
  · exact (h.sideBySide h' _).cleared
  · exact ⟨one_le_larger _, h.widths.union h'.widths⟩

end Sized

/-! ### Set operations -/

variable {first second : SetInput K}

/-- A concatenation keeps statistics sized. -/
theorem sized_unionAll (h : first.stats.Sized) (h' : second.stats.Sized)
    (output : List Column) :
    (unionAll first second output).Sized := by
  unfold unionAll
  split
  · exact sized_empty output
  · exact h.rename _ _
  · exact h'.rename _ _
  · refine ⟨one_le_larger _, ByColumn.all_ofList_map fun ((out, l), r) _ => ?_⟩
    dsimp only
    cases known : first.stats.width? l with
    | none => exact h'.zero_le_width r out
    | some w => exact h.widths.get? known

/-- Every derivation keeps statistics sized. -/
theorem invariant_sized : Invariant (Sized (K := K)) where
  empty := sized_empty
  ofTable := sized_ofTable
  ofRows := sized_ofRows
  filter h := h.filter
  project h := h.project
  groupBy h := h.groupBy
  limit h := h.limit
  restrict h := h.restrict
  rename h := h.rename
  innerJoin h h' := h.innerJoin h'
  leftOuterJoin h h' := h.leftOuterJoin h'
  semiJoin h := h.semiJoin
  antiJoin h := h.antiJoin
  unionAll h h' := sized_unionAll h h'

end Statistics

/-- What is derived about an operator over sized inputs is sized. -/
theorem LogicalOperator.sized_of_derive {op : LogicalOperator} {env : Environment K}
    {ctes : CteTable K} {inputs : Inputs K} (h : ∀ r ∈ inputs, r.statistics.Sized)
    (shared : ∀ entry ∈ ctes, entry.2.statistics.Sized) {r : Relation K}
    (derived : op.derive env ctes inputs = .ok r) : r.statistics.Sized :=
  Statistics.invariant_sized.of_derive h shared derived

/-! ### Costs -/

namespace Cost

open Quantity

variable {op : PhysicalOperator} {output : Statistics K} {inputs : List (Statistics K)}
  {config : Config K}

omit [OrderedQuantity K] in
/-- Sized inputs have at least one row each. -/
theorem rows_of_inputRows {index : Nat} {rows : K} (sized : ∀ s ∈ inputs, s.Sized)
    (found : inputRows op inputs index = .ok rows) : 1.0 ≤ rows := by
  unfold inputRows at found
  split at found
  · rename_i s hs
    exact Except.ok.inj found ▸ (sized s (List.mem_of_getElem? hs)).rows
  · cases found

/-- No unit of work is negative, so no multiple of one is. -/
theorem zero_le_mul_factors {a : K} (h : 0.0 ≤ a) : 0.0 ≤ a * scanRow ∧ 0.0 ≤ a * handleRow ∧
    0.0 ≤ a * buildRow ∧ 0.0 ≤ a * probeRow ∧ 0.0 ≤ a * moveRow := by
  have factor {n : Nat} (positive : 0 < n) (small : n ≤ 1000) :=
    OrderedQuantity.zero_le_mul_written h positive small
  exact ⟨factor (n := 10) (by decide) (by decide), factor (n := 1) (by decide) (by decide),
    factor (n := 10) (by decide) (by decide), factor (n := 5) (by decide) (by decide),
    factor (n := 20) (by decide) (by decide)⟩

/-- The cost of an operator over sized inputs is an amount, unless it is that of a
broadcast and no number. -/
theorem zero_le_ofOperator (result : output.Sized) (sized : ∀ s ∈ inputs, s.Sized) {cost : K}
    (known : ofOperator config op output inputs = .ok cost)
    (number : ∀ m, op = .motion m → m.kind = .broadcast → (cost == cost) = true) :
    0.0 ≤ cost := by
  have one_le_one : (1.0 : K) ≤ 1.0 := le_refl_of_nonneg zero_le_one
  have handled {a : K} (h : 0.0 ≤ a) : 0.0 ≤ a * handleRow := (zero_le_mul_factors h).2.1
  have built {a : K} (h : 0.0 ≤ a) : 0.0 ≤ a * buildRow := (zero_le_mul_factors h).2.2.1
  have rows : 0.0 ≤ output.rows * handleRow := handled result.zero_le_rows
  cases op with
  | tableScan | dynamicTableScan =>
    obtain rfl := Except.ok.inj known
    have bytes : (1.0 : K) ≤ 1.0 + output.rowWidth / 100.0 :=
      OrderedQuantity.le_add zero_le_one
        (OrderedQuantity.zero_le_div_hundred result.zero_le_rowWidth)
    exact nonneg_of_one_le
      (OrderedQuantity.one_le_mul (OrderedQuantity.one_le_mul result.rows one_le_one) bytes)
  | valuesScan | cteConsumer | limit | unionAll => exact Except.ok.inj known ▸ rows
  | filter | compute | cteProducer =>
    obtain ⟨a, ha, known⟩ := OptResult.bind_eq_ok.1 known
    exact Except.ok.inj known ▸ handled (nonneg_of_one_le (rows_of_inputRows sized ha))
  | hashAggregate =>
    obtain ⟨a, ha, known⟩ := OptResult.bind_eq_ok.1 known
    exact Except.ok.inj known ▸
      add_nonneg (built (nonneg_of_one_le (rows_of_inputRows sized ha))) rows
  | hashJoin =>
    obtain ⟨a, ha, known⟩ := OptResult.bind_eq_ok.1 known
    obtain ⟨b, hb, known⟩ := OptResult.bind_eq_ok.1 known
    have probed : 0.0 ≤ b * probeRow :=
      (zero_le_mul_factors (nonneg_of_one_le (rows_of_inputRows sized hb))).2.2.2.1
    exact Except.ok.inj known ▸
      add_nonneg
      (add_nonneg (built (nonneg_of_one_le (rows_of_inputRows sized ha))) probed) rows
  | nestedLoopJoin =>
    obtain ⟨a, ha, known⟩ := OptResult.bind_eq_ok.1 known
    obtain ⟨b, hb, known⟩ := OptResult.bind_eq_ok.1 known
    have pairs : 1.0 ≤ a * b :=
      OrderedQuantity.one_le_mul (rows_of_inputRows sized ha) (rows_of_inputRows sized hb)
    exact Except.ok.inj known ▸ add_nonneg (handled (nonneg_of_one_le pairs)) rows
  | indexNestedLoopJoin =>
    obtain ⟨a, ha, known⟩ := OptResult.bind_eq_ok.1 known
    obtain ⟨b, hb, known⟩ := OptResult.bind_eq_ok.1 known
    have lookups : 1.0 ≤ b * larger (log2 (a + 1.0)) 1.0 :=
      OrderedQuantity.one_le_mul (rows_of_inputRows sized hb) (one_le_larger _)
    exact Except.ok.inj known ▸ add_nonneg (handled (nonneg_of_one_le lookups)) rows
  | hashSetOp =>
    obtain rfl := Except.ok.inj known
    refine built (sum_nonneg fun a ha => ?_)
    obtain ⟨s, hs, rfl⟩ := List.mem_map.1 ha
    exact (sized s hs).zero_le_rows
  | sequence =>
    obtain rfl := Except.ok.inj known
    exact OrderedQuantity.le_written (Nat.zero_le 1)
  | sort =>
    obtain rfl := Except.ok.inj known
    exact handled
      (nonneg_of_one_le (OrderedQuantity.one_le_mul (one_le_larger _) (one_le_larger _)))
  | motion m =>
    have moved : 0.0 ≤ output.rows * moveRow :=
      (zero_le_mul_factors result.zero_le_rows).2.2.2.2
    simp only [ofOperator] at known
    split at known
    · rename_i broadcasts
      obtain rfl := Except.ok.inj known
      exact OrderedQuantity.zero_le_mul_ofNat moved (number m rfl broadcasts)
    · exact Except.ok.inj known ▸ moved

end Cost

end QueryOptimizer
