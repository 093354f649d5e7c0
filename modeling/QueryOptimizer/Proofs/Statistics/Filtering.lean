import QueryOptimizer.Proofs.Statistics.Fractions
import QueryOptimizer.Proofs.Derivation.Sizes

/-!
# Filters

A filter takes out of a bucket one part for each range, and each part is a fraction of the
bucket. Ranges that have no value in common can still take out more than there is: a point
takes one over the number of different values, and a list of ranges may well have more points
in a bucket than the bucket claims to have different values. How much they take together is
`Bucket.covered`. As long as that is at most one for every bucket, what is kept is a fraction
of the rows (`Histogram.isFraction_filter`), as it is for a single range.

The histograms that a filter leaves are fractional in any case, since they are scaled to one.

## Main results

* `Histogram.isFraction_filter`: the rows that are kept, for buckets that are
  covered at most once.
* `Histogram.filter_twoValues`: without that, they can be half as many again as there were.
* `Statistics.filter_rows_le`: a filter does not add rows if none of its conjuncts
  allows several ranges.
-/

namespace QueryOptimizer

open Quantity Estimate

variable {K : Type} [ExactQuantity K]

/-! ### Buckets -/

namespace Bucket

variable {b : Bucket K} {ranges : List Range}

/-- The parts of a bucket inside each of some ranges, taken together. -/
def covered (b : Bucket K) (ranges : List Range) : K :=
  (ranges.map b.overlapFraction).sum

/-- What is left of a bucket has no negative frequency. -/
theorem frequency_of_mem_restrict (hb : 0 ≤ b.frequency) {c : Bucket K}
    (hc : c ∈ ranges.filterMap b.restrict?) : 0 ≤ c.frequency := by
  obtain ⟨r, -, kept⟩ := List.mem_filterMap.1 hc
  rw [frequency_of_restrict? kept]
  exact mul_nonneg hb (b.isFraction_overlapFraction r).nonneg

/-- What the ranges leave of a bucket. -/
theorem sum_restrict_le (hb : 0 ≤ b.frequency) (ranges : List Range) :
    ((ranges.filterMap b.restrict?).map (·.frequency)).sum ≤
      b.frequency * b.covered ranges := by
  rw [covered, ← List.sum_map_mul_left]
  exact sum_filterMap_le (fun r _ => mul_nonneg hb (b.isFraction_overlapFraction r).nonneg)
    fun r _ c kept => (frequency_of_restrict? kept).le

/-- A single range covers no more than the whole of a bucket. -/
theorem covered_le_one_of_length (h : ranges.length ≤ 1) : b.covered ranges ≤ 1 := by
  rcases ranges with - | ⟨r, - | ⟨s, ranges⟩⟩
  · simp [covered]
  · simpa [covered] using (b.isFraction_overlapFraction r).le_one
  · simp at h

/-- A bucket of whole numbers that claims to have two different values. -/
def twoValues : Bucket K :=
  ⟨.integer .int64 0, .integer .int64 10, true, true, 1.0, 2.0⟩

/-- A point inside it is half of it, although it has room for eleven. -/
theorem restrict?_twoValues {n : Int} (inside : n = 1 ∨ n = 4 ∨ n = 7) :
    ∃ c, (twoValues : Bucket K).restrict? (.point (.integer .int64 n)) = some c ∧
      c.frequency = 1 / 2 := by
  have overlap : (twoValues : Bucket K).range.intersect? (.point (.integer .int64 n)) =
      some (.point (.integer .int64 n)) := by
    rcases inside with rfl | rfl | rfl <;> rfl
  have contains : (twoValues : Bucket K).range.contains (.integer .int64 n) = true := by
    rcases inside with rfl | rfl | rfl <;> rfl
  have point : (Range.point (.integer .int64 n)).asPoint? = some (.integer .int64 n) := by
    rcases inside with rfl | rfl | rfl <;> rfl
  have two : (twoValues : Bucket K).distinct = 2 := by
    change (2.0 : K) = 2
    rw [ExactQuantity.ofScientific_eq]
    norm_num
  have half : (twoValues : Bucket K).overlapFraction (.point (.integer .int64 n)) = 1 / 2 := by
    have several : (twoValues : Bucket K).isSingleton = false := rfl
    simp only [overlapFraction, several, overlap, point, contains, two, larger_eq_max, one_eq,
      if_true, Bool.false_eq_true, if_false, max_eq_left (one_le_two (α := K))]
  have one : (twoValues : Bucket K).frequency = 1 := one_eq
  refine ⟨_, by
    rw [restrict?, half, zero_eq, if_neg (by norm_num), overlap, Option.map_some], ?_⟩
  dsimp only
  rw [one, one_mul]

end Bucket

/-! ### Histograms -/

namespace Histogram

variable {h : Histogram K}

/-- What is kept of the values outside every bucket. -/
theorem frequency_filterRemaining (hh : 0 ≤ h.freqRemaining) (ranges : List Range) :
    0 ≤ (h.filterRemaining ranges).1 ∧ (h.filterRemaining ranges).1 ≤ h.freqRemaining := by
  have part {a : K} (ha : IsFraction a) : 0 ≤ h.freqRemaining * a ∧
      h.freqRemaining * a ≤ h.freqRemaining :=
    ⟨mul_nonneg hh ha.nonneg, mul_le_of_le_one_right hh ha.le_one⟩
  have nothing : (0 : K) ≤ 0.0 ∧ (0.0 : K) ≤ h.freqRemaining := by
    rw [zero_eq]
    exact ⟨le_refl 0, hh⟩
  unfold filterRemaining
  split
  · dsimp only
    split
    · refine part (isFraction_smaller_one (div_nonneg ?_ ?_))
      · rw [ExactQuantity.ofNat_eq]
        exact Nat.cast_nonneg _
      · rw [larger_eq_max, one_eq]
        exact le_trans (zero_le_one' K) (le_max_right _ _)
    · split
      · exact ⟨hh, le_refl _⟩
      · split
        · exact nothing
        · exact part isFraction_defaultSelectivity
  · exact nothing

/-- The fraction of the rows that is kept, if the ranges do not cover a bucket
more than once. -/
theorem isFraction_filter (fractional : h.Fractional) {ranges : List Range}
    (once : ∀ b ∈ h.buckets, b.covered ranges ≤ 1) (includeNull : Bool) :
    IsFraction (h.filter ranges includeNull).2 := by
  obtain ⟨remaining, remaining_le⟩ := frequency_filterRemaining fractional.freqRemaining ranges
  have nulls : IsFraction (if includeNull then 1 else 0 : K) := by
    cases includeNull with
    | true => exact isFraction_one
    | false => exact isFraction_zero
  have null : (if includeNull then h.nullFreq else 0.0) =
      h.nullFreq * if includeNull then 1 else 0 := by
    cases includeNull <;> simp [zero_eq]
  unfold filter
  split
  · exact isFraction_defaultSelectivity
  · dsimp only
    rw [totalFrequency_eq]
    dsimp only
    rw [null]
    refine ⟨?_, le_trans ?_ fractional.total⟩
    · refine add_nonneg (add_nonneg (zero_le_sum_frequency fun c hc => ?_) ?_) remaining
      · obtain ⟨b, hb, hc⟩ := List.mem_flatMap.1 hc
        exact Bucket.frequency_of_mem_restrict (fractional.buckets b hb) hc
      · exact mul_nonneg fractional.nullFreq nulls.nonneg
    · rw [totalFrequency_eq]
      refine add_le_add (add_le_add (sum_flatMap_le fun b hb => ?_) ?_) remaining_le
      · have nonneg := fractional.buckets b hb
        exact le_trans (Bucket.sum_restrict_le nonneg ranges)
          (mul_le_of_le_one_right nonneg (once b hb))
      · exact mul_le_of_le_one_right fractional.nullFreq nulls.le_one

/-- What is kept is scaled to one, however much it was. -/
theorem fractional_filter (fractional : h.Fractional) (ranges : List Range)
    (includeNull : Bool) : (h.filter ranges includeNull).1.Fractional := by
  unfold filter
  split
  · exact fractional
  · refine fractional_normalize (fun c hc => ?_) ?_
      (frequency_filterRemaining fractional.freqRemaining ranges).1
    · obtain ⟨b, hb, hc⟩ := List.mem_flatMap.1 hc
      exact Bucket.frequency_of_mem_restrict (fractional.buckets b hb) hc
    · dsimp only
      split
      · exact fractional.nullFreq
      · exact (zero_eq (K := K)).ge

/-- Three points inside it are half as much again as all of it. -/
theorem filter_twoValues :
    ((⟨[Bucket.twoValues], 0.0, 0.0, 0.0, true, false⟩ : Histogram K).filter
      ([1, 4, 7].map fun n => .point (.integer .int64 n)) false).2 = 3 / 2 := by
  obtain ⟨c₁, kept₁, half₁⟩ := Bucket.restrict?_twoValues (K := K) (n := 1) (by decide)
  obtain ⟨c₄, kept₄, half₄⟩ := Bucket.restrict?_twoValues (K := K) (n := 4) (by decide)
  obtain ⟨c₇, kept₇, half₇⟩ := Bucket.restrict?_twoValues (K := K) (n := 7) (by decide)
  have total : ((⟨[Bucket.twoValues], 0.0, 0.0, 0.0, true, false⟩ : Histogram K).filter
      ([1, 4, 7].map fun n => .point (.integer .int64 n)) false).2 =
      c₁.frequency + (c₄.frequency + c₇.frequency) := by
    simp [filter, filterRemaining, totalFrequency_eq, kept₁, kept₄, kept₇, zero_eq,
      not_epsilon_lt_zero]
  rw [total, half₁, half₄, half₇]
  norm_num

end Histogram

/-! ### Predicates -/

/-- Whether every conjunct that restricts one column allows a single range of
its values at most. -/
def Scalar.OneRange (catalog : Catalog K) (e : Scalar) : Prop :=
  ∀ i, Constraint.ofPredicate catalog e = .ok (some (.interval i)) → i.ranges.length ≤ 1

namespace Statistics

variable {catalog : Catalog K} {config : Config K} {s t : Statistics K}
  {current kept : ByColumn (Histogram K)} {selectivities : List K}

/-- A conjunct of one range keeps histograms fractional and has a
selectivity that is a fraction. -/
theorem fractions_of_filterConjunct (fractional : current.All Histogram.Fractional)
    {e : Scalar} (one : e.OneRange catalog)
    (known : s.filterConjunct catalog current e = .ok (kept, selectivities)) :
    kept.All Histogram.Fractional ∧ ∀ a ∈ selectivities, IsFraction a := by
  have unread {a : K} (ha : IsFraction a)
      (known : (return (current, [a]) : OptResult (ByColumn (Histogram K) × List K)) =
        .ok (kept, selectivities)) :
      kept.All Histogram.Fractional ∧ ∀ a ∈ selectivities, IsFraction a := by
    obtain ⟨rfl, rfl⟩ := Prod.mk.inj (Except.ok.inj known)
    exact ⟨fractional, fun b hb => List.mem_singleton.1 hb ▸ ha⟩
  unfold filterConjunct at known
  split at known
  · obtain ⟨rfl, rfl⟩ := Prod.mk.inj (Except.ok.inj known)
    exact ⟨fractional, fun a ha => by cases ha⟩
  split at known
  · exact unread (isFraction_one_div_larger _) known
  obtain ⟨reading, read, known⟩ := OptResult.bind_eq_ok.1 known
  split at known
  · rename_i i
    split at known
    · rename_i h found
      split at known
      · obtain ⟨rfl, rfl⟩ := Prod.mk.inj (Except.ok.inj known)
        have hh := fractional.get? found
        refine ⟨fractional.insert _ (Histogram.fractional_filter hh _ _), fun a ha => ?_⟩
        rw [List.mem_singleton.1 ha]
        exact Histogram.isFraction_filter hh
          (fun b _ => Bucket.covered_le_one_of_length (one i read)) _
      · exact unread isFraction_defaultSelectivity known
    · exact unread isFraction_defaultSelectivity known
  · exact unread isFraction_defaultSelectivity known

/-- Conjuncts of one range each keep histograms fractional and have
selectivities that are fractions. -/
theorem fractions_of_filterConjuncts (fractional : current.All Histogram.Fractional)
    {es : List Scalar} (one : ∀ e ∈ es, e.OneRange catalog)
    (known : s.filterConjuncts catalog current es = .ok (kept, selectivities)) :
    kept.All Histogram.Fractional ∧ ∀ a ∈ selectivities, IsFraction a := by
  induction es generalizing current kept selectivities with
  | nil =>
    obtain ⟨rfl, rfl⟩ := Prod.mk.inj (Except.ok.inj known)
    exact ⟨fractional, fun a ha => by cases ha⟩
  | cons e es ih =>
    obtain ⟨he, hes⟩ := List.forall_mem_cons.1 one
    obtain ⟨⟨between, first⟩, hfirst, known⟩ := OptResult.bind_eq_ok.1 known
    obtain ⟨⟨last, others⟩, hothers, known⟩ := OptResult.bind_eq_ok.1 known
    obtain ⟨rfl, rfl⟩ := Prod.mk.inj (Except.ok.inj known)
    obtain ⟨fractional, hfirst⟩ := fractions_of_filterConjunct fractional he hfirst
    obtain ⟨fractional, hothers⟩ := ih fractional hes hothers
    exact ⟨fractional, fun a ha => (List.mem_append.1 ha).elim (hfirst a) (hothers a)⟩

/-- Cleared statistics count one row. -/
theorem rows_cleared (s : Statistics K) : s.cleared.rows = 1 :=
  one_eq

/-- A filter adds no rows, if no conjunct allows several ranges of a column. -/
theorem filter_rows_le [FractionPower K] (rows : 1 ≤ s.rows)
    (fractional : s.histograms.All Histogram.Fractional) {e : Scalar}
    (one : ∀ c ∈ e.conjuncts, c.OneRange catalog)
    (passed : s.filter catalog config e = .ok t) :
    t.rows ≤ s.rows := by
  have cleared : s.cleared.rows ≤ s.rows := s.rows_cleared ▸ rows
  unfold filter at passed
  split at passed
  · exact Except.ok.inj passed ▸ le_refl _
  split at passed
  · exact Except.ok.inj passed ▸ cleared
  obtain ⟨known, -, passed⟩ := OptResult.bind_eq_ok.1 passed
  split at passed
  · exact Except.ok.inj passed ▸ cleared
  obtain ⟨⟨kept, selectivities⟩, parts, passed⟩ := OptResult.bind_eq_ok.1 passed
  obtain rfl := Except.ok.inj passed
  have fraction : IsFraction (combineSelectivities selectivities config.joinDamping) :=
    isFraction_combineSelectivities (fractions_of_filterConjuncts fractional one parts).2 _
  calc larger (s.rows * combineSelectivities selectivities config.joinDamping) minRows
    _ = max (s.rows * combineSelectivities selectivities config.joinDamping) 1 := by
      rw [larger_eq_max, minRows, one_eq]
    _ ≤ s.rows :=
      max_le (mul_le_of_le_one_right (le_trans (zero_le_one' K) rows) fraction.le_one) rows

end Statistics

end QueryOptimizer
