import QueryOptimizer.Proofs.Statistics.Counting
import QueryOptimizer.Statistics.Join

/-!
# Fractions

Frequencies, selectivities and the parts of a bucket inside a range are fractions: numbers
between zero and one (`Quantity.IsFraction`). In exact arithmetic the estimates keep them so,
provided that powers do (`FractionPower`), which damping takes of them.

How many different values a bucket claims to have does not matter here, and neither does where
it lies. All that is asked of a histogram is that its frequencies are not negative and make up
at most one (`Histogram.Fractional`).

## Main results

* `Bucket.isFraction_overlapFraction`: the part of a bucket inside one range is a fraction.
* `Histogram.isFraction_of_joinEquality?`: so is the selectivity of an equality.
* `Estimate.isFraction_combineSelectivities`: so is what several selectivities make together.
-/

namespace QueryOptimizer

namespace Quantity

variable {K : Type} [ExactQuantity K] {a b c : K}

/-- Whether a quantity lies between zero and one. -/
structure IsFraction (a : K) : Prop where
  nonneg : 0 ≤ a
  le_one : a ≤ 1

/-- Zero is a fraction. -/
theorem isFraction_zero : IsFraction (0 : K) :=
  ⟨le_refl 0, zero_le_one' K⟩

/-- One is a fraction. -/
theorem isFraction_one : IsFraction (1 : K) :=
  ⟨zero_le_one' K, le_refl 1⟩

/-- A product of two fractions is one. -/
theorem IsFraction.mul (ha : IsFraction a) (hb : IsFraction b) : IsFraction (a * b) :=
  ⟨mul_nonneg ha.nonneg hb.nonneg, mul_le_one₀ ha.le_one hb.nonneg hb.le_one⟩

/-- What is not below something positive divides it to a fraction. -/
theorem isFraction_div (ha : 0 ≤ a) (hb : 0 < b) (h : a ≤ b) : IsFraction (a / b) :=
  ⟨div_nonneg ha (le_of_lt hb), (div_le_one₀ hb).2 h⟩

/-- One part of a number that is made at least 1 is a fraction. -/
theorem isFraction_one_div_larger (a : K) : IsFraction (1.0 / larger a 1.0) := by
  rw [larger_eq_max, one_eq]
  exact isFraction_div (zero_le_one' K) (lt_of_lt_of_le (zero_lt_one' K) (le_max_right a 1))
    (le_max_right a 1)

/-- A number of values is one, or is raised to one. -/
theorem one_le_ite_larger {q : Prop} [Decidable q] (a : K) :
    1 ≤ if q then 1.0 else larger a 1.0 := by
  rw [larger_eq_max, one_eq]
  split
  · exact le_refl 1
  · exact le_max_right a 1

/-- A number that is held between 0 and 1 is a fraction. -/
theorem isFraction_clamp (a : K) : IsFraction (clamp 0.0 1.0 a) := by
  rw [clamp, zero_eq, one_eq]
  split
  · exact isFraction_zero
  · split
    · exact isFraction_one
    · exact ⟨not_lt.1 ‹_›, not_lt.1 ‹_›⟩

/-- The selectivity that is taken by default is a fraction. -/
theorem isFraction_defaultSelectivity : IsFraction (Estimate.defaultSelectivity : K) := by
  rw [Estimate.defaultSelectivity, ExactQuantity.ofScientific_eq]
  exact ⟨by norm_num, by norm_num⟩

/-- A number that is made at most 1 is a fraction if it is not negative. -/
theorem isFraction_smaller_one (h : 0 ≤ a) : IsFraction (smaller a 1.0) := by
  rw [smaller_eq_min, one_eq]
  exact ⟨le_min h (zero_le_one' K), min_le_right a 1⟩

/-- A product of fractions is one. -/
theorem isFraction_product {as : List K} (h : ∀ a ∈ as, IsFraction a) :
    IsFraction (product as) := by
  suffices step : ∀ acc : K, IsFraction acc → IsFraction (as.foldl (· * ·) acc) from
    step 1.0 (one_eq (K := K) ▸ isFraction_one)
  induction as with
  | nil => exact fun _ hacc => hacc
  | cons a as ih =>
    obtain ⟨ha, has⟩ := List.forall_mem_cons.1 h
    exact fun acc hacc => ih has _ (hacc.mul ha)

end Quantity

open Quantity Estimate

/-- Quantities for which a power of a fraction is a fraction. -/
class FractionPower (K : Type) [ExactQuantity K] : Prop where
  isFraction_pow : ∀ {a e : K}, IsFraction a → 0 ≤ e → IsFraction (pow a e)

instance : FractionPower ℝ where
  isFraction_pow ha he :=
    ⟨Real.rpow_nonneg ha.nonneg _, Real.rpow_le_one ha.nonneg ha.le_one he⟩

variable {K : Type} [ExactQuantity K]

/-! ### Several selectivities -/

namespace Estimate

variable [FractionPower K]

/-- A damped product of fractions is one. -/
theorem isFraction_dampedProduct {factors : List K} (h : ∀ f ∈ factors, IsFraction f) :
    IsFraction (dampedProduct factors) := by
  -- The exponents stay positive while they are halved.
  suffices step : ∀ acc e : K, IsFraction acc → 0 ≤ e →
      IsFraction (factors.foldl (fun p f => (p.1 * pow f p.2, p.2 / 2.0)) (acc, e)).1 from
    step 1.0 1.0 (one_eq (K := K) ▸ isFraction_one) (one_eq (K := K) ▸ zero_le_one' K)
  have two : (0 : K) ≤ 2.0 := by
    rw [ExactQuantity.ofScientific_eq]
    norm_num
  induction factors with
  | nil => exact fun _ _ hacc _ => hacc
  | cons f factors ih =>
    obtain ⟨hf, hfactors⟩ := List.forall_mem_cons.1 h
    exact fun acc e hacc he =>
      ih hfactors _ _ (hacc.mul (FractionPower.isFraction_pow hf he)) (div_nonneg he two)

/-- Selectivities that are fractions combine to one, damped or not. -/
theorem isFraction_combineSelectivities {selectivities : List K}
    (h : ∀ s ∈ selectivities, IsFraction s) (damping : Bool) :
    IsFraction (combineSelectivities selectivities damping) := by
  unfold combineSelectivities
  split
  · exact isFraction_dampedProduct fun s hs => h s (List.mem_mergeSort.1 hs)
  · exact isFraction_product h

end Estimate

/-! ### Parts of buckets -/

namespace Bucket

/-- The part of a bucket inside a range is a fraction of it. -/
theorem isFraction_overlapFraction (b : Bucket K) (r : Range) :
    IsFraction (b.overlapFraction r) := by
  have whole : IsFraction (1.0 : K) := one_eq (K := K) ▸ isFraction_one
  have nothing : IsFraction (0.0 : K) := zero_eq (K := K) ▸ isFraction_zero
  unfold overlapFraction
  split
  · split
    · exact whole
    · exact nothing
  · split
    · exact nothing
    · split
      · split
        · exact isFraction_one_div_larger _
        · exact nothing
      · split
        · split
          · exact isFraction_clamp _
          · exact whole
        · exact isFraction_defaultSelectivity

/-- What a range leaves of a bucket. -/
theorem frequency_of_restrict? {b c : Bucket K} {r : Range} (kept : b.restrict? r = some c) :
    c.frequency = b.frequency * b.overlapFraction r := by
  unfold restrict? at kept
  dsimp only at kept
  split at kept
  · cases kept
  · obtain ⟨overlap, -, rfl⟩ := Option.map_eq_some_iff.1 kept
    rfl

/-- The parts of two buckets in their overlap. -/
theorem parts_of_intersect? {b c overlap : Bucket K} {left right : K} (hb : 0 ≤ b.frequency)
    (hc : 0 ≤ c.frequency) (h : b.intersect? c = some (overlap, left, right)) :
    IsFraction left ∧ IsFraction right := by
  have part {d e : Bucket K} {r : Range} (hd : 0 ≤ d.frequency)
    (kept : d.restrict? r = some e) :
      IsFraction (e.frequency / larger d.frequency epsilon) := by
    have inside := d.isFraction_overlapFraction r
    rw [frequency_of_restrict? kept, larger_eq_max]
    refine isFraction_div (mul_nonneg hd inside.nonneg)
      (lt_of_lt_of_le epsilon_pos (le_max_right _ _)) ?_
    exact le_trans (mul_le_of_le_one_right hd inside.le_one) (le_max_left _ _)
  unfold intersect? at h
  obtain ⟨shared, -, h⟩ := Option.bind_eq_some_iff.1 h
  obtain ⟨l, hl, h⟩ := Option.bind_eq_some_iff.1 h
  obtain ⟨r, hr, h⟩ := Option.bind_eq_some_iff.1 h
  obtain ⟨rfl, rfl, rfl⟩ : l = overlap ∧ _ = left ∧ _ = right := by simpa using h
  exact ⟨part hb hl, part hc hr⟩

end Bucket

/-! ### Sums -/

section Sums

variable {α β : Type} {w : β → K} {g : α → K}

/-- A sum gets no larger when terms are dropped or made smaller, if none was negative. -/
theorem sum_filterMap_le {as : List α} {f : α → Option β} (nonneg : ∀ a ∈ as, 0 ≤ g a)
    (h : ∀ a ∈ as, ∀ b, f a = some b → w b ≤ g a) :
    ((as.filterMap f).map w).sum ≤ (as.map g).sum := by
  induction as with
  | nil => exact le_refl 0
  | cons a as ih =>
    obtain ⟨ha, has⟩ := List.forall_mem_cons.1 h
    obtain ⟨zero, zeros⟩ := List.forall_mem_cons.1 nonneg
    rw [List.filterMap_cons, List.map_cons, List.sum_cons]
    cases known : f a with
    | none => exact le_trans (ih zeros has) (le_add_of_nonneg_left zero)
    | some b =>
      rw [List.map_cons, List.sum_cons]
      exact add_le_add (ha b known) (ih zeros has)

/-- A sum gets no larger when terms are replaced by several ones with a smaller sum. -/
theorem sum_flatMap_le {as : List α} {f : α → List β} (h : ∀ a ∈ as, ((f a).map w).sum ≤ g a) :
    ((as.flatMap f).map w).sum ≤ (as.map g).sum := by
  induction as with
  | nil => exact le_refl 0
  | cons a as ih =>
    obtain ⟨ha, has⟩ := List.forall_mem_cons.1 h
    rw [List.flatMap_cons, List.map_append, List.sum_append, List.map_cons, List.sum_cons]
    exact add_le_add ha (ih has)

end Sums

/-! ### Histograms of fractions -/

/-- Whether no frequency is negative, and all of them make up at most one. -/
structure Histogram.Fractional (h : Histogram K) : Prop where
  buckets : ∀ b ∈ h.buckets, 0 ≤ b.frequency
  nullFreq : 0 ≤ h.nullFreq
  freqRemaining : 0 ≤ h.freqRemaining
  total : h.totalFrequency ≤ 1

namespace Histogram

variable {h g : Histogram K}

/-- The frequency of a histogram is that of its buckets, of nulls and of the
values outside of buckets. -/
theorem totalFrequency_eq (h : Histogram K) :
    h.totalFrequency = (h.buckets.map (·.frequency)).sum + h.nullFreq + h.freqRemaining := by
  rw [totalFrequency, sum_eq]

/-- Buckets have no negative frequency together if none of them has one. -/
theorem zero_le_sum_frequency {bs : List (Bucket K)} (nonneg : ∀ b ∈ bs, 0 ≤ b.frequency) :
    0 ≤ (bs.map (·.frequency)).sum :=
  List.sum_nonneg fun f hf => by
    obtain ⟨b, hb, rfl⟩ := List.mem_map.1 hf
    exact nonneg b hb

/-! #### Scaling -/

/-- Scaled frequencies make up one. -/
theorem totalFrequency_normalize (heavy : epsilon < h.totalFrequency) :
    h.normalize.totalFrequency = 1 := by
  have scaled : h.normalize.totalFrequency = h.totalFrequency * h.totalFrequency⁻¹ := by
    have total := h.totalFrequency_eq
    rw [totalFrequency_eq h.normalize, normalize, if_pos heavy]
    generalize h.totalFrequency = t at total ⊢
    simp only [List.map_map, Function.comp_def, div_eq_mul_inv, List.sum_map_mul_right,
      ← add_mul, ← total]
  rw [scaled]
  exact mul_inv_cancel₀ (ne_of_gt (lt_trans epsilon_pos heavy))

/-- Whatever frequencies a histogram has, they are fractions once they are scaled. -/
theorem fractional_normalize (buckets : ∀ b ∈ h.buckets, 0 ≤ b.frequency)
    (nullFreq : 0 ≤ h.nullFreq) (freqRemaining : 0 ≤ h.freqRemaining) :
    h.normalize.Fractional := by
  by_cases heavy : Estimate.epsilon < h.totalFrequency
  · have positive : 0 < h.totalFrequency := lt_trans epsilon_pos heavy
    have total := totalFrequency_normalize heavy
    rw [normalize, if_pos heavy] at total ⊢
    refine ⟨fun b hb => ?_, div_nonneg nullFreq positive.le,
      div_nonneg freqRemaining positive.le, total.le⟩
    obtain ⟨c, hc, rfl⟩ := List.mem_map.1 hb
    exact div_nonneg (buckets c hc) positive.le
  · rw [normalize, if_neg heavy]
    exact ⟨buckets, nullFreq, freqRemaining, le_trans (not_lt.1 heavy) epsilon_lt_one.le⟩

/-! #### Equality joins -/

/-- Two buckets have at most all pairs of their rows in common. -/
theorem frequency_of_joinBuckets? {l r b : Bucket K} (hl : 0 ≤ l.frequency)
    (hr : 0 ≤ r.frequency) (joined : joinBuckets? l r = some b) :
    0 ≤ b.frequency ∧ b.frequency ≤ l.frequency * r.frequency := by
  unfold joinBuckets? at joined
  obtain ⟨⟨overlap, left, right⟩, parts, rfl⟩ := Option.map_eq_some_iff.1 joined
  obtain ⟨hleft, hright⟩ := Bucket.parts_of_intersect? hl hr parts
  have pairs : 0 ≤ l.frequency * left * (r.frequency * right) :=
    mul_nonneg (mul_nonneg hl hleft.nonneg) (mul_nonneg hr hright.nonneg)
  have values :
    1 ≤ larger (if l.isSingleton = true then 1.0 else larger (l.distinct * left) 1.0)
      (if r.isSingleton = true then 1.0 else larger (r.distinct * right) 1.0) := by
    rw [larger_eq_max]
    exact le_trans (one_le_ite_larger _) (le_max_left _ _)
  refine ⟨div_nonneg pairs (le_trans (zero_le_one' K) values), ?_⟩
  calc l.frequency * left * (r.frequency * right) / _
    _ ≤ l.frequency * left * (r.frequency * right) := div_le_self pairs values
    _ ≤ l.frequency * r.frequency :=
      mul_le_mul (mul_le_of_le_one_right hl hleft.le_one)
        (mul_le_of_le_one_right hr hright.le_one) (mul_nonneg hr hright.nonneg) hl

/-- The values outside of buckets join with no more than the product of their frequencies. -/
theorem frequency_joinRemaining (hh : 0 ≤ h.freqRemaining) (hg : 0 ≤ g.freqRemaining) :
    0 ≤ (h.joinRemaining g).1 ∧ (h.joinRemaining g).1 ≤ h.freqRemaining * g.freqRemaining := by
  have pairs : 0 ≤ h.freqRemaining * g.freqRemaining := mul_nonneg hh hg
  unfold joinRemaining
  split
  · dsimp only
    rw [larger_eq_max _ 1.0, one_eq]
    have values : 1 ≤ max (larger h.distinctRemaining g.distinctRemaining) 1 :=
      le_max_right _ _
    exact ⟨div_nonneg pairs (le_trans (zero_le_one' K) values), div_le_self pairs values⟩
  · dsimp only
    rw [zero_eq]
    exact ⟨le_refl 0, pairs⟩

/-- The frequencies of all pairs of buckets of two histograms. -/
theorem sum_joinBuckets_le (hh : h.Fractional) (hg : g.Fractional) :
    ((h.buckets.flatMap fun l => g.buckets.filterMap (joinBuckets? l)).map (·.frequency)).sum ≤
      (h.buckets.map (·.frequency)).sum * (g.buckets.map (·.frequency)).sum := by
  rw [← List.sum_map_mul_right]
  refine sum_flatMap_le fun l hl => ?_
  rw [← List.sum_map_mul_left]
  exact sum_filterMap_le (fun r hr => mul_nonneg (hh.buckets l hl) (hg.buckets r hr))
    fun r hr b joined =>
      (frequency_of_joinBuckets? (hh.buckets l hl) (hg.buckets r hr) joined).2

/-- The selectivity of an equality, where histograms tell it. -/
theorem isFraction_of_joinEquality? (hh : h.Fractional) (hg : g.Fractional) {k : Histogram K}
    {selectivity : K} (joined : h.joinEquality? g = some (k, selectivity)) :
    IsFraction selectivity := by
  unfold joinEquality? at joined
  split at joined
  · cases joined
  simp only [Option.some.injEq, Prod.mk.injEq] at joined
  obtain ⟨-, rfl⟩ := joined
  rw [← List.foldl_map, zero_eq, ← List.sum_eq_foldl]
  obtain ⟨remaining, remaining_le⟩ := frequency_joinRemaining hh.freqRemaining hg.freqRemaining
  have values_h := zero_le_sum_frequency hh.buckets
  have values_g := zero_le_sum_frequency hg.buckets
  refine ⟨add_nonneg (zero_le_sum_frequency fun b hb => ?_) remaining, ?_⟩
  · obtain ⟨l, hl, hb⟩ := List.mem_flatMap.1 hb
    obtain ⟨r, hr, joined⟩ := List.mem_filterMap.1 hb
    exact (frequency_of_joinBuckets? (hh.buckets l hl) (hg.buckets r hr) joined).1
  · have values {k : Histogram K} (hk : k.Fractional) :
        (k.buckets.map (·.frequency)).sum + k.freqRemaining ≤ 1 := by
      have total := hk.total
      rw [totalFrequency_eq] at total
      linarith [hk.nullFreq]
    calc
      ((h.buckets.flatMap fun l =>
          g.buckets.filterMap (joinBuckets? l)).map (·.frequency)).sum +
        (h.joinRemaining g).1
      _ ≤ (h.buckets.map (·.frequency)).sum * (g.buckets.map (·.frequency)).sum +
            h.freqRemaining * g.freqRemaining :=
              add_le_add (sum_joinBuckets_le hh hg) remaining_le
      _ ≤ ((h.buckets.map (·.frequency)).sum + h.freqRemaining) *
            ((g.buckets.map (·.frequency)).sum + g.freqRemaining) := by
        nlinarith [mul_nonneg values_h hg.freqRemaining, mul_nonneg hh.freqRemaining values_g]
      _ ≤ 1 := mul_le_one₀ (values hh) (add_nonneg values_g hg.freqRemaining) (values hg)

end Histogram

end QueryOptimizer
