import QueryOptimizer.Proofs.Statistics.Counting

/-!
# Operations on histograms of lists

What an operation makes of the histograms of lists is the histogram of what the operation on
lists makes: filters, joins, anti joins, unions and groupings of columns. So an estimate that
starts from what is counted stays what is counted, as long as there are not so many rows that
one of them is next to nothing.

Before an operation scales its result, that is a tally of the list it stands for with another
weight for each row (`Histogram.ofTally`). This is what is shown of each of them.

## Main results

* `Histogram.filter_ofValues`, `Histogram.joinEquality?_ofValues`,
  `Histogram.antiJoin_ofValues`, `Histogram.unionAll_ofValues`, `Histogram.grouped_ofValues`:
  one for each operation.
* `Histogram.ofValues_commutes`: all of them.
-/

namespace QueryOptimizer

open Quantity Bucket

variable {K : Type} [ExactQuantity K] {τ : DataType}

/-! ### Operations on lists -/

namespace Datum

/-- Whether an equality join joins two datums. -/
def joins (a b : Datum) : Bool :=
  !a.isNull && !b.isNull && a.compare b == .eq

/-- Whether a filter keeps a datum. -/
def kept (ranges : List Range) (includeNull : Bool) (d : Datum) : Bool :=
  if d.isNull then includeNull else Range.admitted ranges d

/-- The left column of an equality join. -/
def joinColumn (l r : List Datum) : List Datum :=
  l.flatMap fun a => (r.filter a.joins).map fun _ => a

/-- The values of a list and null if it is there, each where it is first. -/
def distinct : List Datum → List Datum
  | [] => []
  | a :: as => a :: (distinct as).filter (!·.same a)

end Datum

namespace Histogram

variable {l r : List Datum} {ranges : List Range} {b : Bucket K}

/-- A part of few rows has some weight. -/
theorem heavy {k n : ℕ} (some : 0 < k) (positive : 0 < n) (short : n < 10 ^ 9) :
    (Estimate.epsilon : K) < k * (1 / n) := by
  have one : (Estimate.epsilon : K) < 1 / n := Estimate.epsilon_lt_one_div positive short
  have most : (1 : K) ≤ k := Nat.one_le_cast.2 some
  exact lt_of_lt_of_le one
    (le_mul_of_one_le_left (le_of_lt (lt_trans Estimate.epsilon_pos one)) most)

/-- A part of a short list has some weight. -/
theorem heavy_filter (short : l.length < 10 ^ 9) {p : Datum → Bool} (some : l.filter p ≠ []) :
    (Estimate.epsilon : K) < (l.filter p).length * (1 / l.length) := by
  have positive : 0 < (l.filter p).length := List.length_pos_iff.2 some
  exact heavy positive (Nat.lt_of_lt_of_le positive (List.length_filter_le p l)) short

/-! ### Filters -/

/-- Elements that are mapped to nothing may be filtered out before. -/
theorem flatMap_eq_flatMap_filter {α β : Type} {f g : α → List β} {p : α → Bool} {as : List α}
    (each : ∀ a ∈ as, f a = if p a then g a else []) :
    as.flatMap f = (as.filter p).flatMap g := by
  induction as with
  | nil => rfl
  | cons a as ih =>
    obtain ⟨first, others⟩ := List.forall_mem_cons.1 each
    rw [List.flatMap_cons, first, ih others, List.filter_cons]
    split <;> rfl

/-- Mapping the elements that pass a test is filtering before mapping. -/
theorem filterMap_eq_map_filter {α β : Type} {f : α → Option β} {g : α → β} {p : α → Bool}
    {as : List α} (each : ∀ a ∈ as, f a = if p a then some (g a) else none) :
    as.filterMap f = (as.filter p).map g := by
  induction as with
  | nil => rfl
  | cons a as ih =>
    obtain ⟨first, others⟩ := List.forall_mem_cons.1 each
    rw [List.filterMap_cons, first, ih others, List.filter_cons]
    split <;> simp_all

/-- Of ranges that are apart one keeps an entry, or none. -/
theorem filterMap_restrict? (typed : ∀ t ∈ ranges, t.HasType τ)
    (apart : ranges.Pairwise (Range.Apart τ.scale)) (hb : b.Counted τ) :
    ranges.filterMap b.restrict? = if Range.admitted ranges b.lower then [b] else [] := by
  have restrict (t : Range) : b.restrict? t = if t.contains b.lower then some b else none := by
    rw [hb.eq]
    exact restrict?_singleton hb.hasType
  induction ranges with
  | nil => rfl
  | cons t ts ih =>
    obtain ⟨ht, hts⟩ := List.forall_mem_cons.1 typed
    obtain ⟨first, others⟩ := List.pairwise_cons.1 apart
    rw [List.filterMap_cons, restrict, Range.admitted, List.any_cons]
    by_cases inside : t.contains b.lower = true
    · have outside : Range.admitted ts b.lower = false := by
        refine Bool.eq_false_iff.2 fun also => ?_
        obtain ⟨u, hu, inside'⟩ := Range.admitted_iff.1 also
        obtain ⟨-, notAfter⟩ := (Range.contains_iff τ.scale ht hb.hasType).1 inside
        obtain ⟨notBefore, -⟩ := (Range.contains_iff τ.scale (hts u hu) hb.hasType).1 inside'
        exact (first u hu b.lower).elim notAfter notBefore
      simp [inside, ih hts others, outside]
    · simp only [inside, Bool.false_or]
      exact ih hts others

/-- Ranges contain all datums of a value or none. -/
theorem admitted_congr (typed : ∀ t ∈ ranges, t.HasType τ) {a v : Datum} (ha : a.HasType τ)
    (hv : v.HasType τ) (equal : a.same v = true) :
    Range.admitted ranges a = Range.admitted ranges v := by
  have place := (Datum.same_iff ha hv).1 equal
  have before (t : Bound) : t.Before τ.scale a ↔ t.Before τ.scale v := by
    cases t <;> simp [Bound.Before, place]
  have after (t : Bound) : t.After τ.scale a ↔ t.After τ.scale v := by
    cases t <;> simp [Bound.After, place]
  rw [Bool.eq_iff_iff, Range.admitted_iff, Range.admitted_iff]
  refine exists_congr fun t => and_congr_right fun ht => ?_
  rw [Range.contains_iff τ.scale (typed t ht) ha,
    Range.contains_iff τ.scale (typed t ht) hv, before, after]

/-- Whether a value is kept does not depend on its datum. -/
theorem kept_congr (typed : ∀ t ∈ ranges, t.HasType τ) {includeNull : Bool} {a v : Datum}
    (ha : a.IsValue τ) (hv : v.IsValue τ) (equal : a.same v = true) :
    Datum.kept ranges includeNull a = Datum.kept ranges includeNull v := by
  simp only [Datum.kept, ha.notNull, hv.notNull, Bool.false_eq_true, if_false]
  exact admitted_congr typed ha.type hv.type equal

/-- A filter of a tally is the tally of the values that are kept. -/
theorem filter_ofTally (hl : ∀ d ∈ l, d.HasType τ) (typed : ∀ t ∈ ranges, t.HasType τ)
    (canonical : Range.Canonical τ.scale ranges) (includeNull : Bool) (w : K) :
    (ofTally w l).filter ranges includeNull =
      ((ofTally w (l.filter (Datum.kept ranges includeNull))).normalize,
        (ofTally w (l.filter (Datum.kept ranges includeNull))).totalFrequency) := by
  have merged : Merged τ _ (tally w l) := merged_tally hl w
  have buckets : (tally w l).flatMap (fun b => ranges.filterMap b.restrict?) =
      tally w (l.filter (Datum.kept ranges includeNull)) := by
    rw [← tally_filter hl fun a v ha hv => kept_congr typed ha hv]
    refine (flatMap_eq_flatMap_filter fun b hb => ?_).trans (List.flatMap_singleton' _)
    rw [filterMap_restrict? typed canonical.apart (merged.counted b hb), Datum.kept,
      (merged.counted b hb).value.notNull]
    rfl
  have nulls : (l.filter (Datum.kept ranges includeNull)).filter (·.isNull) =
      if includeNull then l.filter (·.isNull) else [] :=
    filter_filter_of_uniform fun d _ null => by simp [Datum.kept, null]
  have result : ofTally w (l.filter (Datum.kept ranges includeNull)) =
      ⟨(tally w l).flatMap fun b => ranges.filterMap b.restrict?,
        if includeNull then (l.filter (·.isNull)).length * w else 0, 0, 0, true, false⟩ := by
    rw [ofTally, nulls, buckets]
    cases includeNull <;> simp
  rw [result]
  simp [filter, filterRemaining, ofTally, Estimate.not_epsilon_lt_zero, zero_eq]

/-- Filtering. The fraction is that of the rows that are kept. -/
theorem filter_ofValues (hl : ∀ d ∈ l, d.HasType τ) (short : l.length < 10 ^ 9)
    (typed : ∀ t ∈ ranges, t.HasType τ) (canonical : Range.Canonical τ.scale ranges)
    (includeNull : Bool) :
    (ofValues l).filter ranges includeNull =
      (ofValues (l.filter (Datum.kept ranges includeNull)),
        ((l.filter (Datum.kept ranges includeNull)).length / l.length : K)) := by
  set kept := l.filter (Datum.kept ranges includeNull) with hkept
  have typed' : ∀ d ∈ kept, d.HasType τ := fun d hd => hl d (List.mem_filter.1 hd).1
  rw [ofValues_eq hl, filter_ofTally hl typed canonical, ← hkept,
    normalize_ofTally typed' (heavy_filter short), totalFrequency_ofTally typed', mul_one_div]

/-! ### Joins -/

/-- Entries of one value overlap entirely. -/
theorem intersect?_eq {c : Bucket K} (hb : b.Counted τ) (hc : c.Counted τ)
    (heavyB : Estimate.epsilon < b.frequency) (heavyC : Estimate.epsilon < c.frequency) :
    b.intersect? c = if b.lower.same c.lower then some (b, 1, 1) else none := by
  rw [hb.eq, hc.eq]
  exact intersect?_singleton hb.hasType hc.hasType heavyB heavyC

/-- Counted buckets join if they have the same value, and their frequencies are multiplied. -/
theorem joinBuckets?_eq {c : Bucket K} (hb : b.Counted τ) (hc : c.Counted τ)
    (heavyB : Estimate.epsilon < b.frequency) (heavyC : Estimate.epsilon < c.frequency) :
    joinBuckets? b c =
      if b.lower.same c.lower then
        some (.singleton b.lower (b.frequency * c.frequency)) else none := by
  have single : b.isSingleton = true ∧ c.isSingleton = true := by
    rw [hb.eq, hc.eq]
    simp [isSingleton, Bucket.singleton]
  unfold joinBuckets?
  rw [intersect?_eq hb hc heavyB heavyC]
  by_cases h : b.lower.same c.lower = true
  · rw [if_pos h, if_pos h, hb.eq]
    simp [single, larger_eq_max, smaller_eq_min, one_eq, Bucket.singleton]
  · rw [if_neg h, if_neg h]
    rfl

/-- What joins with a datum is of its value. -/
theorem joins_eq_same {a c v : Datum} (ha : a.HasType τ) (hc : c.HasType τ) (hv : v.IsValue τ)
    (equal : a.same v = true) : a.joins c = c.same v := by
  have notNull : a.isNull = false := Datum.isNull_eq_false_of_same hv.notNull equal
  cases null : c.isNull with
  | true =>
    have apart : c.same v = false :=
      Bool.eq_false_iff.2 fun same => by
        rw [Datum.isNull_eq_false_of_same hv.notNull same] at null
        cases null
    simp [Datum.joins, null, apart]
  | false =>
    have joined : a.joins c = a.same c := by simp [Datum.joins, notNull, null, Datum.same]
    rw [joined, Bool.eq_iff_iff, Datum.same_iff ha hc, Datum.same_iff hc hv.type,
      (Datum.same_iff ha hv.type).1 equal, eq_comm]

/-- The rows that join on a value. -/
theorem filter_joinColumn (hl : ∀ d ∈ l, d.HasType τ) (hr : ∀ d ∈ r, d.HasType τ) {v : Datum}
    (hv : v.IsValue τ) :
    (Datum.joinColumn l r).filter (·.same v) =
      (l.filter (·.same v)).flatMap fun a => (r.filter (·.same v)).map fun _ => a := by
  rw [Datum.joinColumn, List.filter_flatMap]
  refine flatMap_eq_flatMap_filter fun a ha => ?_
  by_cases equal : a.same v = true
  · have joined : r.filter a.joins = r.filter (·.same v) :=
      List.filter_congr fun c hc => joins_eq_same (hl a ha) (hr c hc) hv equal
    simp [equal, joined]
  · simp [equal]

/-- A joined column has the type of the left one. -/
theorem hasType_of_mem_joinColumn (hl : ∀ d ∈ l, d.HasType τ) :
    ∀ d ∈ Datum.joinColumn l r, d.HasType τ := by
  intro d hd
  obtain ⟨a, ha, hd⟩ := List.mem_flatMap.1 hd
  obtain ⟨c, -, rfl⟩ := List.mem_map.1 hd
  exact hl a ha

/-- What joins with one entry. -/
theorem filterMap_joinBuckets? {cs : List (Bucket K)} (hb : b.Counted τ)
    (hcs : ∀ c ∈ cs, c.Counted τ) (heavyB : Estimate.epsilon < b.frequency)
    (heavyC : ∀ c ∈ cs, Estimate.epsilon < c.frequency) :
    cs.filterMap (joinBuckets? b) =
      (classOf b.lower cs).map fun c => .singleton b.lower (b.frequency * c.frequency) :=
  filterMap_eq_map_filter fun c hc => by
    rw [joinBuckets?_eq hb (hcs c hc) heavyB (heavyC c hc),
      Datum.same_comm hb.hasType (hcs c hc).hasType]

/-- Entries that join make entries of the same value. -/
theorem flatMap_joinBuckets? (hl : ∀ d ∈ l, d.HasType τ) (hr : ∀ d ∈ r, d.HasType τ) {w w' : K}
    (heavyL : ∀ b ∈ tally w l, Estimate.epsilon < b.frequency)
    (heavyR : ∀ c ∈ tally w' r, Estimate.epsilon < c.frequency) :
    (tally w l).flatMap (fun b => (tally w' r).filterMap (joinBuckets? b)) =
      tally (w * w') (Datum.joinColumn l r) := by
  have mergedL : Merged τ _ (tally w l) := merged_tally hl w
  have mergedR : Merged τ _ (tally w' r) := merged_tally hr w'
  have joined (b : Bucket K) (hb : b ∈ tally w l) : (tally w' r).filterMap (joinBuckets? b) =
      (classOf b.lower (tally w' r)).map fun c =>
        .singleton b.lower (b.frequency * c.frequency) :=
    filterMap_joinBuckets? (mergedL.counted b hb) mergedR.counted (heavyL b hb) heavyR
  have named : ∀ b ∈ tally w l, ∀ x ∈ (tally w' r).filterMap (joinBuckets? b),
      x.lower = b.lower ∧ x.Counted τ := by
    intro b hb x hx
    rw [joined b hb] at hx
    obtain ⟨c, -, rfl⟩ := List.mem_map.1 hx
    exact ⟨rfl, counted_singleton (mergedL.counted b hb).value _⟩
  refine eq_tally (hasType_of_mem_joinColumn hl) (fun x hx => ?_) ?_ fun v hv => ?_
  · obtain ⟨b, hb, hx⟩ := List.mem_flatMap.1 hx
    exact (named b hb x hx).2
  · refine List.pairwise_flatMap.2 ⟨fun b hb => ?_, ?_⟩
    · rw [joined b hb, classOf_tally hr (mergedL.counted b hb).value]
      cases (r.filter (·.same b.lower)).head? <;> simp
    · refine mergedL.rising.imp_of_mem fun {b b'} hb hb' below x hx y hy => ?_
      rw [(named b hb x hx).1, (named b' hb' y hy).1]
      exact below
  · have entries :
      classOf v ((tally w l).flatMap fun b => (tally w' r).filterMap (joinBuckets? b)) =
        (classOf v (tally w l)).flatMap fun b => (classOf v (tally w' r)).map fun c =>
          .singleton b.lower (b.frequency * c.frequency) := by
      rw [classOf, List.filter_flatMap]
      refine flatMap_eq_flatMap_filter fun b hb => ?_
      by_cases equal : b.lower.same v = true
      · have class_eq : classOf b.lower (tally w' r) = classOf v (tally w' r) :=
          classOf_congr mergedR.counted (mergedL.counted b hb).hasType hv.type equal
        rw [if_pos equal, joined b hb, class_eq]
        refine List.filter_eq_self.2 fun x hx => ?_
        obtain ⟨c, -, rfl⟩ := List.mem_map.1 hx
        exact equal
      · rw [if_neg equal]
        refine List.filter_eq_nil_iff.2 fun x hx => ?_
        rwa [(named b hb x hx).1]
    rw [entries, classOf_tally hl hv, classOf_tally hr hv, filter_joinColumn hl hr hv]
    cases l.filter (·.same v) with
    | nil => rfl
    | cons a as =>
      cases r.filter (·.same v) with
      | nil => simp
      | cons c cs =>
        have pairs : (as.length + 1 : K) * w * ((cs.length + 1) * w') =
            (cs.length + as.length * (cs.length + 1) + 1) * (w * w') := by ring
        simp [pairs]

/-- The buckets of the histogram of not too many rows are no trifles. -/
theorem epsilon_lt_frequency (hl : ∀ d ∈ l, d.HasType τ) (short : l.length < 10 ^ 9) :
    ∀ b ∈ tally (1 / (l.length : K)) l, Estimate.epsilon < b.frequency := by
  intro b hb
  obtain ⟨n, some, inside, eq⟩ := exists_count_of_mem_tally hl hb
  rw [eq]
  exact heavy some (Nat.lt_of_lt_of_le some inside) short

/-- A tally is empty if all values are null. -/
theorem tally_eq_nil_iff (hl : ∀ d ∈ l, d.HasType τ) {w : K} :
    tally w l = [] ↔ ∀ d ∈ l, d.isNull = true := by
  constructor
  · intro none d hd
    by_contra notNull
    have value : d.IsValue τ := ⟨hl d hd, by simpa using notNull⟩
    have found : d ∈ l.filter (·.same d) := List.mem_filter.2 ⟨hd, Datum.same_self value.type⟩
    have classes := classOf_tally hl value w
    rw [none] at classes
    cases h : l.filter (·.same d) with
    | nil => simp [h] at found
    | cons a as => simp [h, classOf] at classes
  · intro nulls
    have none : l.filter (!·.isNull) = [] :=
      List.filter_eq_nil_iff.2 fun d hd => by simp [nulls d hd]
    rw [tally, none]
    rfl

/-- A joined column has no nulls. -/
theorem nulls_joinColumn (l r : List Datum) :
    (Datum.joinColumn l r).filter (·.isNull) = [] := by
  refine List.filter_eq_nil_iff.2 fun d hd null => ?_
  obtain ⟨a, -, hd⟩ := List.mem_flatMap.1 hd
  obtain ⟨c, hc, rfl⟩ := List.mem_map.1 hd
  simp [Datum.joins, null] at hc

/-- The join of two tallies is the tally of the joined column. -/
theorem joinEquality?_ofTally (hl : ∀ d ∈ l, d.HasType τ) (hr : ∀ d ∈ r, d.HasType τ)
    {w w' : K} (heavyL : ∀ b ∈ tally w l, Estimate.epsilon < b.frequency)
    (heavyR : ∀ c ∈ tally w' r, Estimate.epsilon < c.frequency) :
    joinEquality? (ofTally w l) (ofTally w' r) =
      if (l ++ r).all (·.isNull) then none
      else some ((ofTally (w * w') (Datum.joinColumn l r)).normalize,
        (ofTally (w * w') (Datum.joinColumn l r)).totalFrequency) := by
  have empty : ((tally w l).isEmpty && (tally w' r).isEmpty) = (l ++ r).all (·.isNull) := by
    rw [Bool.eq_iff_iff]
    simp [tally_eq_nil_iff hl, tally_eq_nil_iff hr]
  have sum (bs : List (Bucket K)) : bs.foldl (fun acc b => acc + b.frequency) (0.0 : K) =
      (bs.map (·.frequency)).sum := by
    rw [List.sum_eq_foldl, List.foldl_map, zero_eq]
  have joined : ofTally (w * w') (Datum.joinColumn l r) =
      ⟨(tally w l).flatMap fun b => (tally w' r).filterMap (joinBuckets? b), 0, 0, 0,
        true, false⟩ := by
    rw [ofTally, nulls_joinColumn, flatMap_joinBuckets? hl hr heavyL heavyR]
    simp
  have nothing : (ofTally w l).joinRemaining (ofTally w' r) = (0, 0) := by
    simp [joinRemaining, ofTally, Estimate.not_epsilon_lt_zero, zero_eq]
  rw [joined]
  unfold joinEquality?
  simp only [nothing, sum]
  simp only [ofTally, Bool.not_true, Bool.false_or, empty, totalFrequency, sum_eq, add_zero,
    zero_eq, Bool.or_false]

/-- Joining on equality. There is no result only if neither side has a value, and the fraction
is that of the pairs that join. -/
theorem joinEquality?_ofValues (hl : ∀ d ∈ l, d.HasType τ) (hr : ∀ d ∈ r, d.HasType τ)
    (shortL : l.length < 10 ^ 9) (shortR : r.length < 10 ^ 9)
    (short : l.length * r.length < 10 ^ 9) :
    joinEquality? (ofValues l) (ofValues r) =
      if (l ++ r).all (·.isNull) then none
      else some (ofValues (Datum.joinColumn l r),
        ((Datum.joinColumn l r).length / (l.length * r.length) : K)) := by
  have typed : ∀ d ∈ Datum.joinColumn l r, d.HasType τ := hasType_of_mem_joinColumn hl
  have weight : (1 / l.length * (1 / r.length) : K) = 1 / (l.length * r.length : ℕ) := by
    rw [one_div_mul_one_div, Nat.cast_mul]
  have heavyJ (some : Datum.joinColumn l r ≠ []) : (Estimate.epsilon : K) <
      (Datum.joinColumn l r).length * (1 / (l.length * r.length : ℕ)) := by
    obtain ⟨d, hd⟩ := List.exists_mem_of_ne_nil _ some
    obtain ⟨a, ha, hd⟩ := List.mem_flatMap.1 hd
    obtain ⟨c, hc, -⟩ := List.mem_map.1 hd
    exact heavy (List.length_pos_iff.2 some) (Nat.mul_pos (List.length_pos_of_mem ha)
      (List.length_pos_of_mem (List.mem_filter.1 hc).1)) short
  rw [ofValues_eq hl, ofValues_eq hr,
    joinEquality?_ofTally hl hr (epsilon_lt_frequency hl shortL)
    (epsilon_lt_frequency hr shortR), weight, normalize_ofTally typed heavyJ,
    totalFrequency_ofTally typed,
    mul_one_div, Nat.cast_mul]

/-! ### Anti joins -/

/-- An entry is left if none on the other side is of its value. -/
theorem unmatched?_eq {cs : List (Bucket K)} (hb : b.Counted τ) (hcs : ∀ c ∈ cs, c.Counted τ)
    (heavyB : Estimate.epsilon < b.frequency)
    (heavyC : ∀ c ∈ cs, Estimate.epsilon < c.frequency) :
    unmatched? cs b = if cs.any (fun c => b.lower.same c.lower) then none else some b := by
  have distinct : b.distinct = 1 := by
    rw [hb.eq]
    exact one_eq
  have matched :
    (cs.filterMap fun c => (b.intersect? c).map fun x => smaller x.1.distinct (1 * x.2.1)) =
      (cs.filter fun c => b.lower.same c.lower).map fun _ => (1 : K) := by
    refine filterMap_eq_map_filter fun c hc => ?_
    rw [intersect?_eq hb (hcs c hc) heavyB (heavyC c hc)]
    by_cases h : b.lower.same c.lower = true
    · simp [h, smaller_eq_min, distinct]
    · simp [h]
  unfold unmatched?
  simp only [distinct, sum_eq, matched, larger_eq_max, one_eq, zero_eq, max_self, div_one]
  by_cases some : cs.any (fun c => b.lower.same c.lower) = true
  · have count :
        (1 : K) ≤ ((cs.filter fun c => b.lower.same c.lower).map fun _ => (1 : K)).sum := by
      obtain ⟨c, hc, same⟩ := List.any_eq_true.1 some
      have positive : 0 < (cs.filter fun c => b.lower.same c.lower).length :=
        List.length_pos_of_mem (List.mem_filter.2 ⟨hc, same⟩)
      rw [List.map_const', List.sum_replicate, nsmul_one]
      exact Nat.one_le_cast.2 positive
    have nothing : clamp 0 1
        (1 - ((cs.filter fun c => b.lower.same c.lower).map fun _ => (1 : K)).sum) = 0 := by
      unfold clamp
      split
      · rfl
      · rw [if_neg (not_lt.2 (by linarith))]
        linarith
    rw [nothing, if_pos (le_of_lt Estimate.epsilon_pos), if_pos some]
  · have none : cs.filter (fun c => b.lower.same c.lower) = [] := by
      simpa using some
    have all : clamp (0 : K) 1 1 = 1 := by
      simp [clamp]
    simp only [none, List.map_nil, List.sum_nil, sub_zero, all,
      if_neg Estimate.not_one_le_epsilon, if_neg some, mul_one, max_self]
    rw [← distinct]

/-- A value joins if there is an entry of it. -/
theorem any_joins_eq (hr : ∀ d ∈ r, d.HasType τ) {v : Datum} (hv : v.IsValue τ) (w : K) :
    r.any v.joins = (tally w r).any fun c => v.same c.lower := by
  have counted := (merged_tally hr w).counted
  have joined : r.any v.joins = false ↔ r.filter (·.same v) = [] := by
    rw [List.any_eq_false, List.filter_eq_nil_iff]
    exact forall₂_congr fun c hc => by
      rw [joins_eq_same hv.type (hr c hc) hv (Datum.same_self hv.type)]
  have entered : ((tally w r).any fun c => v.same c.lower) = false ↔
      classOf v (tally w r) = [] := by
    rw [List.any_eq_false, classOf, List.filter_eq_nil_iff]
    exact forall₂_congr fun c hc => by rw [Datum.same_comm hv.type (counted c hc).hasType]
  rw [Bool.eq_iff_iff, ← not_iff_not, Bool.not_eq_true, Bool.not_eq_true, joined, entered,
    classOf_tally hr hv]
  cases r.filter (·.same v) <;> simp

/-- The antijoin of two tallies is the tally of the values without a partner. -/
theorem antiJoin_ofTally (hl : ∀ d ∈ l, d.HasType τ) (hr : ∀ d ∈ r, d.HasType τ) {w w' : K}
    (heavyL : ∀ b ∈ tally w l, Estimate.epsilon < b.frequency)
    (heavyR : ∀ c ∈ tally w' r, Estimate.epsilon < c.frequency) :
    antiJoin (ofTally w l) (ofTally w' r) =
      (ofTally w (l.filter fun a => !r.any a.joins)).normalize := by
  have mergedL : Merged τ _ (tally w l) := merged_tally hl w
  have mergedR : Merged τ _ (tally w' r) := merged_tally hr w'
  have uniform (a v : Datum) (ha : a.IsValue τ) (hv : v.IsValue τ) (equal : a.same v = true) :
      (!r.any a.joins) = !r.any v.joins := by
    refine congrArg _ (Bool.eq_iff_iff.2 ?_)
    rw [List.any_eq_true, List.any_eq_true]
    refine exists_congr fun c => and_congr_right fun hc => ?_
    rw [joins_eq_same ha.type (hr c hc) hv equal,
      joins_eq_same hv.type (hr c hc) hv (Datum.same_self hv.type)]
  have buckets : (tally w l).filterMap (unmatched? (tally w' r)) =
      tally w (l.filter fun a => !r.any a.joins) := by
    rw [← tally_filter hl uniform]
    refine (filterMap_eq_map_filter fun b hb => ?_).trans (List.map_id _)
    have counted := mergedL.counted b hb
    rw [unmatched?_eq counted mergedR.counted (heavyL b hb) heavyR,
      any_joins_eq hr counted.value w']
    cases (tally w' r).any fun c => b.lower.same c.lower <;> rfl
  have nulls : (l.filter fun a => !r.any a.joins).filter (·.isNull) = l.filter (·.isNull) :=
    (filter_filter_of_uniform (c := true) fun d _ null => by simp [Datum.joins, null]).trans
      (if_pos rfl)
  have left : ofTally w (l.filter fun a => !r.any a.joins) =
      ⟨(tally w l).filterMap (unmatched? (tally w' r)), (l.filter (·.isNull)).length * w, 0, 0,
        true, false⟩ := by
    rw [ofTally, nulls, buckets]
  rw [left]
  rfl

/-- The rows that join with none. -/
theorem antiJoin_ofValues (hl : ∀ d ∈ l, d.HasType τ) (hr : ∀ d ∈ r, d.HasType τ)
    (shortL : l.length < 10 ^ 9) (shortR : r.length < 10 ^ 9) :
    antiJoin (ofValues l : Histogram K) (ofValues r) =
      ofValues (l.filter fun a => !r.any a.joins) := by
  have typed : ∀ d ∈ l.filter fun a => !r.any a.joins, d.HasType τ :=
    fun d hd => hl d (List.mem_filter.1 hd).1
  rw [ofValues_eq hl, ofValues_eq hr, antiJoin_ofTally hl hr (epsilon_lt_frequency hl shortL)
    (epsilon_lt_frequency hr shortR), normalize_ofTally typed (heavy_filter shortL)]

/-! ### Unions -/

/-- Tallies of two lists, gathered. -/
theorem gather_append (hl : ∀ d ∈ l, d.HasType τ) (hr : ∀ d ∈ r, d.HasType τ) (w : K) :
    gather (tally w l ++ tally w r) = tally w (l ++ r) := by
  have counted : ∀ b ∈ tally w l ++ tally w r, b.Counted τ := fun b hb =>
    (List.mem_append.1 hb).elim ((merged_tally hl w).counted b) ((merged_tally hr w).counted b)
  have merged : Merged τ _ (gather (tally w l ++ tally w r)) := merged_gather counted
  refine eq_tally (fun d hd => (List.mem_append.1 hd).elim (hl d) (hr d))
    merged.counted merged.rising fun v hv => ?_
  rw [merged.classes v hv, classOf, List.filter_append, ← classOf, ← classOf,
    classOf_tally hl hv, classOf_tally hr hv, List.filter_append]
  cases l.filter (·.same v) <;> cases r.filter (·.same v) <;> simp [fuse]
  exact congrArg _ (by ring)

/-- A histogram weighted by the number of rows counts them. -/
theorem scale_tally (hl : ∀ d ∈ l, d.HasType τ) :
    (tally (1 / l.length : K) l).map (·.scale l.length) = tally 1 l := by
  by_cases none : l = []
  · subst none
    rfl
  · have rows : (l.length : K) ≠ 0 := Nat.cast_ne_zero.2 (mt List.length_eq_zero_iff.1 none)
    exact tally_map (g := (· * (l.length : K))) hl fun n => by field_simp

/-- Concatenation. -/
theorem unionAll_ofValues (hl : ∀ d ∈ l, d.HasType τ) (hr : ∀ d ∈ r, d.HasType τ) :
    unionAll (ofValues l) (l.length : K) (ofValues r) r.length = ofValues (l ++ r) := by
  have typed : ∀ d ∈ l ++ r, d.HasType τ :=
    fun d hd => (List.mem_append.1 hd).elim (hl d) (hr d)
  by_cases none : l ++ r = []
  · obtain ⟨rfl, rfl⟩ := List.append_eq_nil_iff.1 none
    simp [unionAll, ofValues, empty, Estimate.not_epsilon_lt_zero]
  · have rows : Estimate.epsilon < (l.length : K) + r.length := by
      rw [← Nat.cast_add, ← List.length_append]
      exact lt_of_lt_of_le Estimate.epsilon_lt_one
        (Nat.one_le_cast.2 (List.length_pos_iff.2 none))
    have weighted : normalize (ofTally 1 (l ++ r)) = (ofValues (l ++ r) : Histogram K) :=
      normalize_ofTally typed fun _ => by
        rwa [List.length_append, Nat.cast_add, mul_one]
    have nulls (l : List Datum) :
      ((l.filter (·.isNull)).length : K) * (1 / l.length) * l.length =
        (l.filter (·.isNull)).length := by
      by_cases none : l = []
      · subst none
        simp
      · have rows : (l.length : K) ≠ 0 :=
          Nat.cast_ne_zero.2 (mt List.length_eq_zero_iff.1 none)
        field_simp
    rw [← weighted, ofValues_eq hl, ofValues_eq hr]
    unfold unionAll
    simp only [ofTally, scale_tally hl, scale_tally hr, nulls, not_le.2 rows,
      if_false, larger_eq_max]
    change normalize ⟨gather (tally 1 l ++ tally 1 r), _, _, _, _, _⟩ = _
    rw [gather_append hl hr]
    simp

/-! ### Groups -/

/-- The distinct values of a list are among its values. -/
theorem mem_of_mem_distinct {d : Datum} (hd : d ∈ Datum.distinct l) : d ∈ l := by
  induction l with
  | nil => exact hd
  | cons a as ih =>
    rcases List.mem_cons.1 hd with rfl | hd
    · exact List.mem_cons_self
    · exact List.mem_cons_of_mem a (ih (List.mem_filter.1 hd).1)

/-- Of datums that are the same the first is left. -/
theorem filter_distinct (hl : ∀ d ∈ l, d.HasType τ) {p : Datum → Bool}
    (uniform : ∀ a ∈ l, ∀ c ∈ l, p a = true → p c = c.same a) :
    (Datum.distinct l).filter p = (l.filter p).take 1 := by
  induction l with
  | nil => rfl
  | cons a as ih =>
    obtain ⟨ha, has⟩ := List.forall_mem_cons.1 hl
    have inner (c : Datum) (hc : c ∈ Datum.distinct as) : c ∈ a :: as :=
      List.mem_cons_of_mem a (mem_of_mem_distinct hc)
    rw [Datum.distinct, List.filter_cons, List.filter_cons]
    by_cases first : p a = true
    · have others : ((Datum.distinct as).filter (!·.same a)).filter p = [] := by
        refine List.filter_eq_nil_iff.2 fun c hc passes => ?_
        obtain ⟨hc, apart⟩ := List.mem_filter.1 hc
        rw [uniform a List.mem_cons_self c (inner c hc) first] at passes
        simp [passes] at apart
      rw [if_pos first, if_pos first, others]
      rfl
    · have others : ((Datum.distinct as).filter (!·.same a)).filter p =
          (Datum.distinct as).filter p := by
        refine (filter_filter_of_uniform (c := true) fun c hc passes => ?_).trans (if_pos rfl)
        have apart : ¬c.same a = true := fun equal => first <| by
          rwa [uniform c (inner c hc) a List.mem_cons_self passes,
            Datum.same_comm ha (hl c (inner c hc))]
        simpa using apart
      rw [if_neg first, if_neg first, others]
      exact ih has fun c hc d hd =>
        uniform c (List.mem_cons_of_mem a hc) d (List.mem_cons_of_mem a hd)

/-- The values of a list, each once. -/
theorem tally_distinct (hl : ∀ d ∈ l, d.HasType τ) (w w' : K) :
    tally w' (Datum.distinct l) = (tally w l).map fun b => { b with frequency := w' } := by
  have merged : Merged τ _ (tally w l) := merged_tally hl w
  symm
  refine eq_tally (fun d hd => hl d (mem_of_mem_distinct hd)) (fun b hb => ?_) ?_
    fun v hv => ?_
  · obtain ⟨c, hc, rfl⟩ := List.mem_map.1 hb
    obtain ⟨value, eq⟩ := merged.counted c hc
    exact ⟨value, by rw [eq]; rfl⟩
  · exact List.pairwise_map.2 merged.rising
  · have values : (Datum.distinct l).filter (·.same v) = (l.filter (·.same v)).take 1 :=
      filter_distinct hl fun a ha c hc equal => by
        rw [Bool.eq_iff_iff, Datum.same_iff (hl c hc) hv.type,
          Datum.same_iff (hl c hc) (hl a ha), (Datum.same_iff (hl a ha) hv.type).1 equal]
    rw [classOf, List.filter_map]
    change ((classOf v (tally w l)).map _) = _
    rw [classOf_tally hl hv, values]
    cases l.filter (·.same v) <;> simp [Bucket.singleton]

/-- There is one null among distinct values if there is one at all. -/
theorem nulls_distinct (hl : ∀ d ∈ l, d.HasType τ) :
    (Datum.distinct l).filter (·.isNull) = (l.filter (·.isNull)).take 1 :=
  filter_distinct hl fun a _ c _ null => by
    unfold Datum.same Datum.compare
    cases c.isNull <;> simp [null]

/-- The number of values is that of the list without repetitions. -/
theorem ndv_ofTally (hl : ∀ d ∈ l, d.HasType τ) (short : l.length < 10 ^ 9) :
    (ofTally (1 / l.length : K) l).ndv = (Datum.distinct l).length ∧
      (if Estimate.epsilon < (l.filter (·.isNull)).length * (1 / l.length : K) then
        (1 : K) else 0) =
        ((Datum.distinct l).filter (·.isNull)).length := by
  have values : ((tally (1 / l.length : K) l).map (·.distinct)).sum =
      ((Datum.distinct l).filter (!·.isNull)).length := by
    have ones : (tally (1 / l.length : K) l).map (·.distinct) =
        (tally (1 : K) (Datum.distinct l)).map (·.frequency) := by
      rw [tally_distinct hl (1 / l.length : K), List.map_map]
      refine List.map_congr_left fun b hb => ?_
      rw [((merged_tally hl _).counted b hb).eq]
      exact one_eq
    rw [ones, sum_tally fun d hd => hl d (mem_of_mem_distinct hd), mul_one]
  have nulls : (if Estimate.epsilon < (l.filter (·.isNull)).length * (1 / l.length : K) then
    (1 : K) else 0) =
      ((Datum.distinct l).filter (·.isNull)).length := by
    rw [nulls_distinct hl]
    by_cases none : l.filter (·.isNull) = []
    · simp [none, Estimate.not_epsilon_lt_zero]
    · obtain ⟨d, ds, eq⟩ := List.exists_cons_of_ne_nil none
      rw [if_pos (heavy_filter short none), eq]
      simp
  refine ⟨?_, nulls⟩
  simp only [ndv, ofTally, sum_eq, values, add_zero, one_eq, zero_eq, nulls]
  rw [length_eq_values_add_nulls (Datum.distinct l), Nat.cast_add]

/-- Grouping. -/
theorem grouped_ofValues (hl : ∀ d ∈ l, d.HasType τ) (short : l.length < 10 ^ 9) :
    (ofValues l : Histogram K).grouped = ofValues (Datum.distinct l) := by
  have typed : ∀ d ∈ Datum.distinct l, d.HasType τ := fun d hd => hl d (mem_of_mem_distinct hd)
  obtain ⟨count, nulls⟩ := ndv_ofTally (K := K) hl short
  rw [ofValues_eq hl, ofValues_eq typed]
  cases l with
  | nil =>
    have none : (ofTally (1 / ([] : List Datum).length : K) []).ndv = 0 := by
      rw [count]
      exact Nat.cast_zero
    rw [grouped, none, if_pos (le_of_lt Estimate.epsilon_pos)]
    rfl
  | cons d ds =>
    have some : ¬((Datum.distinct (d :: ds)).length : K) ≤ Estimate.epsilon :=
      not_le.2
        (lt_of_lt_of_le Estimate.epsilon_lt_one (Nat.one_le_cast.2 (by simp [Datum.distinct])))
    have buckets : (tally (1 / (d :: ds).length : K) (d :: ds)).map (fun b =>
        { b with frequency := b.distinct / (Datum.distinct (d :: ds)).length }) =
          tally (1 / (Datum.distinct (d :: ds)).length : K) (Datum.distinct (d :: ds)) := by
      rw [tally_distinct hl (1 / (d :: ds).length : K)]
      refine List.map_congr_left fun b hb => ?_
      have distinct : b.distinct = 1 := by
        rw [((merged_tally hl _).counted b hb).eq]
        exact one_eq
      rw [distinct]
    unfold grouped
    simp only [count, if_neg some]
    simp only [ofTally, buckets, one_eq, zero_eq, zero_div]
    rw [if_neg (by decide), ← nulls, ite_mul, one_mul, zero_mul]

/-! ### All operations -/

/-- Operations on the histograms of lists of one type are operations on the lists: filtering
by ranges in canonical form, with the fraction of the rows that are kept; joining on
equality, with the fraction of the pairs that join; leaving the rows that join with none;
concatenating; and grouping. -/
theorem ofValues_commutes (hl : ∀ d ∈ l, d.HasType τ) (hr : ∀ d ∈ r, d.HasType τ)
    (shortL : l.length < 10 ^ 9) (shortR : r.length < 10 ^ 9)
    (short : l.length * r.length < 10 ^ 9) :
    (∀ ranges : List Range, (∀ t ∈ ranges, t.HasType τ) → Range.Canonical τ.scale ranges →
      ∀ includeNull : Bool, (ofValues l).filter ranges includeNull =
        (ofValues (l.filter (Datum.kept ranges includeNull)),
          ((l.filter (Datum.kept ranges includeNull)).length / l.length : K))) ∧
    joinEquality? (ofValues l) (ofValues r) =
      (if (l ++ r).all (·.isNull) then none
      else some (ofValues (Datum.joinColumn l r),
        ((Datum.joinColumn l r).length / (l.length * r.length) : K))) ∧
    antiJoin (ofValues l : Histogram K) (ofValues r) =
      ofValues (l.filter fun a => !r.any a.joins) ∧
    unionAll (ofValues l) (l.length : K) (ofValues r) r.length = ofValues (l ++ r) ∧
    (ofValues l : Histogram K).grouped = ofValues (Datum.distinct l) :=
  ⟨fun _ typed canonical includeNull => filter_ofValues hl shortL typed canonical includeNull,
    joinEquality?_ofValues hl hr shortL shortR short, antiJoin_ofValues hl hr shortL shortR,
    unionAll_ofValues hl hr, grouped_ofValues hl shortL⟩

end Histogram

namespace Sample

/-- A column with a repetition and a null, and another one. -/
def firstColumn : List Datum :=
  [.integer .int64 2, .null (.integer .int64), .integer .int64 1, .integer .int64 2]

def secondColumn : List Datum := [.integer .int64 2, .integer .int64 3, .integer .int64 2]

end Sample

namespace Histogram

open Sample in
/-- Four of the twelve pairs of two columns join, one row joins with none, and three of the
four rows are kept where values above one or null are. -/
theorem ofValues_commutes_sample : ∃ ranges : List Range,
    ranges = Range.normalize [.above (.integer .int64 1) false] ∧
    (ofValues firstColumn).filter ranges true =
      (ofValues [.integer .int64 2, .null (.integer .int64), .integer .int64 2], (3 / 4 : ℝ)) ∧
    joinEquality? (ofValues firstColumn) (ofValues secondColumn) =
      some (ofValues (List.replicate 4 (.integer .int64 2)), (4 / 12 : ℝ)) ∧
    antiJoin (ofValues firstColumn : Histogram ℝ) (ofValues secondColumn) =
      ofValues [.null (.integer .int64), .integer .int64 1] ∧
    (ofValues firstColumn : Histogram ℝ).grouped =
      ofValues [.integer .int64 2, .null (.integer .int64), .integer .int64 1] := by
  have hl : ∀ d ∈ firstColumn, d.HasType (.integer .int64) := by
    simp [firstColumn, Datum.HasType, Datum.type]
  have hr : ∀ d ∈ secondColumn, d.HasType (.integer .int64) := by
    simp [secondColumn, Datum.HasType, Datum.type]
  obtain ⟨filters, joins, antiJoins, -, groups⟩ :=
    ofValues_commutes (K := ℝ) hl hr (by decide) (by decide) (by decide)
  have above : ∀ t ∈ [Range.above (.integer .int64 1) false], t.HasType (.integer .int64) := by
    simp only [List.mem_singleton, forall_eq]
    exact ⟨Bound.hasType_excluded.2 rfl, Bound.hasType_unbounded⟩
  obtain ⟨typed, canonical, -⟩ := Range.normalize_spec (DataType.integer .int64).scale above
  have kept : firstColumn.filter
    (Datum.kept (Range.normalize [.above (.integer .int64 1) false]) true) =
      [.integer .int64 2, .null (.integer .int64), .integer .int64 2] := by decide
  have joined : Datum.joinColumn firstColumn secondColumn =
    List.replicate 4 (.integer .int64 2) := by decide
  have alone : firstColumn.filter (fun a => !secondColumn.any a.joins) =
      [.null (.integer .int64), .integer .int64 1] := by decide
  have once : Datum.distinct firstColumn =
      [.integer .int64 2, .null (.integer .int64), .integer .int64 1] := by decide
  have some : ¬((firstColumn ++ secondColumn).all (·.isNull)) = true := by decide
  refine ⟨_, rfl, ?_, ?_, alone ▸ antiJoins, once ▸ groups⟩
  · rw [filters _ typed canonical true, kept]
    norm_num [firstColumn]
  · rw [joins, if_neg some, joined]
    norm_num [firstColumn, secondColumn]

end Histogram

end QueryOptimizer
