import QueryOptimizer.Proofs.Statistics.Tally

/-!
# Histograms that count

The histogram that is built from a list of datums is a tally of the list in which each row has
the same weight, one over the number of rows (`Histogram.ofValues_eq`).

What is cut out of a tally, and what is multiplied in it, is again a tally, as long as
datums that compare equal are treated alike (`Histogram.tally_filter`,
`Histogram.tally_map`). That a row must not count for next to nothing
(`Estimate.epsilon_lt_one_div`) bounds the number of rows.

## Main results

* `Histogram.ofValues_eq`: the histogram of a list is a tally of it.
* `Histogram.eq_tally`: what has the classes of a tally is that tally.
* `Histogram.normalize_ofTally`: what scaling a tally makes of it.
-/

namespace QueryOptimizer

open Quantity Bucket

variable {K : Type} [ExactQuantity K] {τ : DataType}

namespace Estimate

/-- The tolerance of estimates as a fraction. -/
theorem epsilon_eq : (epsilon : K) = 1 / 10 ^ 9 := by
  rw [epsilon, ExactQuantity.ofScientific_eq]
  norm_num

/-- The tolerance of estimates is positive. -/
theorem epsilon_pos : (0 : K) < epsilon := by
  rw [epsilon_eq]
  positivity

/-- Up to a thousand million rows, one of them counts. -/
theorem epsilon_lt_one_div {n : ℕ} (positive : 0 < n) (short : n < 10 ^ 9) :
    (epsilon : K) < 1 / n := by
  rw [epsilon_eq]
  refine one_div_lt_one_div_of_lt (Nat.cast_pos.2 positive) ?_
  exact_mod_cast short

/-- The tolerance of estimates is less than 1. -/
theorem epsilon_lt_one : (epsilon : K) < 1 := by
  simpa using epsilon_lt_one_div (K := K) Nat.one_pos (by norm_num)

/-- No fraction is taken to be zero because the tolerance is negative. -/
theorem not_epsilon_lt_zero : ¬(epsilon : K) < 0 :=
  not_lt_of_gt epsilon_pos

/-- A single value is not taken to be none. -/
theorem not_one_le_epsilon : ¬(1 : K) ≤ epsilon :=
  not_le_of_gt epsilon_lt_one

end Estimate

namespace Bucket

variable {v w : Datum} {f g : K} {r : Range}

/-- A range that contains a value cuts nothing off it. -/
theorem intersect?_of_contains (hv : v.HasType τ) (inside : r.contains v = true) :
    (Range.point v).intersect? r = some (.point v) := by
  have self : v.compare v = .eq := (τ.scale.compare_eq_eq hv hv).2 rfl
  obtain ⟨start, stop⟩ := r
  have first : ((Bound.included v).compareStart start == .lt) = false := by
    cases start <;> simp_all [Range.contains, Bound.compareStart]
  have last : ((Bound.included v).compareEnd stop == .gt) = false := by
    cases stop <;> simp_all [Range.contains, Bound.compareEnd]
  unfold Range.intersect? Range.point
  simp [first, last, Range.isEmpty, Bound.value?, Bound.isIncluded, self]

/-- A bucket of one value is kept whole by a range or not at all. -/
theorem restrict?_singleton (hv : v.HasType τ) :
    (singleton v f).restrict? r = if r.contains v then some (singleton v f) else none := by
  unfold restrict?
  simp only [overlapFraction_singleton]
  by_cases inside : r.contains v = true
  · simp only [inside, if_true, zero_eq, not_le.2 (zero_lt_one' K), if_false, range_singleton,
      intersect?_of_contains hv inside, Option.map_some]
    simp [Bucket.singleton, withRange, Range.point, Bound.value?, Bound.isExcluded,
      isSingleton, one_eq]
  · simp [inside, zero_eq]

/-- Entries overlap if they are of one value, and then entirely. -/
theorem intersect?_singleton (hv : v.HasType τ) (hw : w.HasType τ) (hf : Estimate.epsilon < f)
    (hg : Estimate.epsilon < g) :
    (singleton v f).intersect? (singleton w g) =
      if v.same w then some (singleton v f, 1, 1) else none := by
  have nonzero {x : K} (hx : Estimate.epsilon < x) : x / larger x Estimate.epsilon = 1 := by
    rw [larger_eq_max, max_eq_left (le_of_lt hx)]
    exact div_self (ne_of_gt (lt_trans Estimate.epsilon_pos hx))
  unfold intersect?
  rw [range_singleton, range_singleton, intersect?_point hv hw]
  by_cases h : v.same w = true
  · have inside : (Range.point v).contains v = true ∧ (Range.point v).contains w = true := by
      rw [contains_point hv hv, contains_point hv hw]
      exact ⟨Datum.same_self hv, h⟩
    simp [h, restrict?_singleton hv, restrict?_singleton hw, inside, nonzero hf, nonzero hg]
  · simp [h]

end Bucket

namespace Histogram

variable {w w' : K} {l : List Datum} {v : Datum}

/-- How often each value is in a list, with a weight. -/
def tally (w : K) (l : List Datum) : List (Bucket K) :=
  gather ((l.filter (!·.isNull)).map (.singleton · w))

/-- The entries of a list, one bucket for each of them, are counted. -/
theorem counted_entries (hl : ∀ d ∈ l, d.HasType τ) (w : K) :
    ∀ b ∈ (l.filter (!·.isNull)).map (Bucket.singleton · w), b.Counted τ := by
  intro b hb
  obtain ⟨d, hd, rfl⟩ := List.mem_map.1 hb
  obtain ⟨hd, notNull⟩ := List.mem_filter.1 hd
  exact counted_singleton ⟨hl d hd, by simpa using notNull⟩ w

/-- The tally of a list is what merging its entries gives. -/
theorem merged_tally (hl : ∀ d ∈ l, d.HasType τ) (w : K) :
    Merged τ ((l.filter (!·.isNull)).map (.singleton · w)) (tally w l) :=
  merged_gather (counted_entries hl w)

/-- One entry for as many as a list has elements. -/
theorem fuse_map_singleton (w : K) (as : List Datum) :
    fuse (as.map (Bucket.singleton · w)) =
      as.head?.toList.map fun a => .singleton a (as.length * w) := by
  cases as with
  | nil => rfl
  | cons a as => simp [fuse, Function.comp_def, add_mul, add_comm]

/-- A tally has one bucket for each value, with its frequency. -/
theorem classOf_tally (hl : ∀ d ∈ l, d.HasType τ) (hv : v.IsValue τ) (w : K) :
    classOf v (tally w l) =
      (l.filter (·.same v)).head?.toList.map fun a => .singleton a
        ((l.filter (·.same v)).length * w) := by
  have entries : classOf v ((l.filter (!·.isNull)).map (Bucket.singleton · w)) =
      (l.filter (·.same v)).map (.singleton · w) := by
    rw [classOf, List.filter_map, List.filter_filter]
    refine congrArg _ (List.filter_congr fun d hd => ?_)
    by_cases same : d.same v = true
    · simp [same, Datum.isNull_eq_false_of_same hv.notNull same]
    · simp [same]
  rw [(merged_tally hl w).classes v hv, entries, fuse_map_singleton]

/-- A tally is determined by what it says of each value. -/
theorem eq_tally {bs : List (Bucket K)} (hl : ∀ d ∈ l, d.HasType τ)
    (counted : ∀ b ∈ bs, b.Counted τ) (rising : Rising bs)
    (classes : ∀ v : Datum, v.IsValue τ → classOf v bs =
      (l.filter (·.same v)).head?.toList.map fun a =>
        .singleton a ((l.filter (·.same v)).length * w)) : bs = tally w l :=
  eq_of_classes counted (merged_tally hl w).counted rising
      (merged_tally hl w).rising fun v hv =>
    (classes v hv).trans (classOf_tally hl hv w).symm

/-- Filtering twice is filtering once or dropping everything if the first test is settled
where the second one is passed. -/
theorem filter_filter_of_uniform {α : Type} {p q : α → Bool} {c : Bool} {as : List α}
    (uniform : ∀ a ∈ as, q a = true → p a = c) :
    (as.filter p).filter q = if c then as.filter q else [] := by
  rw [List.filter_filter]
  cases c with
  | true =>
    refine List.filter_congr fun a ha => ?_
    by_cases hq : q a = true
    · simp [hq, uniform a ha hq]
    · simp [hq]
  | false =>
    refine List.filter_eq_nil_iff.2 fun a ha both => ?_
    simp only [Bool.and_eq_true] at both
    rw [uniform a ha both.1] at both
    exact absurd both.2 Bool.false_ne_true

/-- Part of the values. -/
theorem tally_filter (hl : ∀ d ∈ l, d.HasType τ) {p : Datum → Bool}
    (uniform : ∀ a v : Datum, a.IsValue τ → v.IsValue τ → a.same v = true → p a = p v) :
    (tally w l).filter (fun b => p b.lower) = tally w (l.filter p) := by
  have merged : Merged τ _ (tally w l) := merged_tally hl w
  refine eq_tally (fun d hd => hl d (List.mem_filter.1 hd).1)
    (fun b hb => merged.counted b (List.mem_filter.1 hb).1)
    (merged.rising.filter _) fun v hv => ?_
  have values : (l.filter p).filter (·.same v) = if p v then l.filter (·.same v) else [] :=
    filter_filter_of_uniform fun d hd same =>
      uniform d v ⟨hl d hd, Datum.isNull_eq_false_of_same hv.notNull same⟩ hv same
  have entries : classOf v ((tally w l).filter fun b => p b.lower) =
      if p v then classOf v (tally w l) else [] :=
    filter_filter_of_uniform fun b hb same =>
      uniform b.lower v (merged.counted b hb).value hv same
  rw [entries, values]
  split
  · exact classOf_tally hl hv w
  · rfl

/-- Other weights. -/
theorem tally_map (hl : ∀ d ∈ l, d.HasType τ) {g : K → K}
    (weigh : ∀ n : ℕ, g (n * w) = n * w') :
    (tally w l).map (fun b => { b with frequency := g b.frequency }) = tally w' l := by
  have merged : Merged τ _ (tally w l) := merged_tally hl w
  refine eq_tally hl (fun b hb => ?_) ?_ fun v hv => ?_
  · obtain ⟨c, hc, rfl⟩ := List.mem_map.1 hb
    obtain ⟨value, eq⟩ := merged.counted c hc
    exact ⟨value, by rw [eq]; rfl⟩
  · exact List.pairwise_map.2 merged.rising
  · rw [classOf, List.filter_map]
    change ((classOf v (tally w l)).map _) = _
    rw [classOf_tally hl hv w, List.map_map]
    refine List.map_congr_left fun a _ => ?_
    simp only [Function.comp_apply, Bucket.singleton, weigh]

/-- What an entry counts is in the list. -/
theorem exists_count_of_mem_tally (hl : ∀ d ∈ l, d.HasType τ) {b : Bucket K}
    (hb : b ∈ tally w l) : ∃ n : ℕ, 0 < n ∧ n ≤ l.length ∧ b.frequency = n * w := by
  have counted := (merged_tally hl w).counted b hb
  have mem : b ∈ classOf b.lower (tally w l) :=
    List.mem_filter.2 ⟨hb, Datum.same_self counted.hasType⟩
  rw [classOf_tally hl counted.value] at mem
  obtain ⟨a, ha, eq⟩ := List.mem_map.1 mem
  have found : a ∈ l.filter (·.same b.lower) := List.mem_of_mem_head? (Option.mem_toList.1 ha)
  exact ⟨_, List.length_pos_of_mem found, List.length_filter_le _ _,
    congrArg Bucket.frequency eq.symm⟩

/-- The buckets of a tally have the frequency of all entries but nulls. -/
theorem sum_tally (hl : ∀ d ∈ l, d.HasType τ) (w : K) :
    ((tally w l).map (·.frequency)).sum = (l.filter (!·.isNull)).length * w := by
  rw [(merged_tally hl w).total]
  simp [Function.comp_def]

/-! ### Histograms of lists -/

/-- Counting equal neighbours is merging buckets of one value. -/
theorem countFrom_eq_mergeFrom {f : K} (hv : v.HasType τ) (hl : ∀ d ∈ l, d.HasType τ) :
    countFrom w (.singleton v f) l = mergeFrom (.singleton v f) (l.map (.singleton · w)) := by
  induction l generalizing v f with
  | nil => rfl
  | cons d ds ih =>
    obtain ⟨hd, hds⟩ := List.forall_mem_cons.1 hl
    have equal : ((Bucket.singleton v f).lower.compare d == .eq) = v.same d := rfl
    rw [List.map_cons, mergeFrom_cons hv hd, countFrom, equal]
    by_cases h : v.same d = true
    · rw [if_pos h, if_pos h]
      exact ih hv hds
    · rw [if_neg h, if_neg h, ih hd hds]

/-- Counting a sorted list is taking its tally. -/
theorem countSorted_eq_tally (hl : ∀ d ∈ l, d.HasType τ) :
    countSorted w (Sorting.sort (fun a b => a.compare b == .lt) (l.filter (!·.isNull))) =
      tally w l := by
  rw [tally, gather, Sorting.sort_map]
  simp only [lower_singleton]
  have typed :
      ∀ d ∈ Sorting.sort (fun a b => a.compare b == .lt) (l.filter (!·.isNull)), d.HasType τ :=
    fun d hd => hl d (List.mem_filter.1 ((Sorting.sort_perm _ _).mem_iff.1 hd)).1
  cases h : Sorting.sort (fun a b => a.compare b == .lt) (l.filter (!·.isNull)) with
  | nil => rfl
  | cons d ds =>
    rw [h] at typed
    obtain ⟨hd, hds⟩ := List.forall_mem_cons.1 typed
    exact countFrom_eq_mergeFrom hd hds

/-- The histogram of a list with a weight for each element. -/
def ofTally (w : K) (l : List Datum) : Histogram K :=
  ⟨tally w l, (l.filter (·.isNull)).length * w, 0, 0, true, false⟩

/-- A histogram of values is made of their tally. -/
theorem ofValues_eq (hl : ∀ d ∈ l, d.HasType τ) : 
    ofValues l = ofTally (1 / (l.length : K)) l := by
  unfold ofValues
  cases l with
  | nil => simp [empty, ofTally, tally, gather, merge, Sorting.sort, zero_eq]
  | cons d ds =>
    simp only [List.isEmpty_cons, countSorted_eq_tally hl, ExactQuantity.ofNat_eq,
      one_eq, zero_eq]
    simp [ofTally, div_eq_mul_inv]

/-- A list consists of its values and its nulls. -/
theorem length_eq_values_add_nulls (l : List Datum) :
    l.length = (l.filter (!·.isNull)).length + (l.filter (·.isNull)).length := by
  rw [Nat.add_comm]
  exact List.length_eq_length_filter_add Datum.isNull

/-- The frequencies of a tally and of its nulls make up those of all entries. -/
theorem totalFrequency_ofTally (hl : ∀ d ∈ l, d.HasType τ) :
    (ofTally w l).totalFrequency = l.length * w := by
  simp only [totalFrequency, ofTally, sum_eq, sum_tally hl, add_zero]
  rw [length_eq_values_add_nulls l, Nat.cast_add, add_mul]

/-- Frequencies are scaled so that they make up one. -/
theorem normalize_ofTally (hl : ∀ d ∈ l, d.HasType τ)
    (heavy : l ≠ [] → Estimate.epsilon < l.length * w) :
    (ofTally w l).normalize = ofValues l := by
  rw [ofValues_eq hl]
  unfold normalize
  simp only [totalFrequency_ofTally hl]
  by_cases none : l = []
  · subst none
    simp [Estimate.not_epsilon_lt_zero, ofTally, tally, gather, merge, Sorting.sort]
  · have some := heavy none
    have scaled (n : ℕ) : n * w / (l.length * w) = n * (1 / l.length) := by
      have weight : w ≠ 0 := by
        rintro rfl
        rw [mul_zero] at some
        exact lt_asymm some Estimate.epsilon_pos
      rw [mul_div_mul_right _ _ weight, mul_one_div]
    rw [if_pos some]
    simp only [ofTally, tally_map (g := (· / (l.length * w))) hl scaled, scaled, zero_div]

end Histogram

end QueryOptimizer
