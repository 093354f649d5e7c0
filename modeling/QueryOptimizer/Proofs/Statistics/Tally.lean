import QueryOptimizer.Proofs.Number.Quantity
import QueryOptimizer.Proofs.Constraint.Range
import QueryOptimizer.Statistics.Histogram

/-!
# Tallies

Buckets of one value each are a tally: how often is each value there? Datums that compare equal
are one value. To gather a tally is to sort it and to merge what is equal (`Histogram.gather`),
which is what both the histogram of a list and the union of two histograms are made by.

A gathered tally is determined by its classes, that is by what it says of each value
(`Bucket.eq_of_classes`). What gathering does to a class is simple: the entries become one,
which is named after the first of them.

## Main results

* `Histogram.merged_gather`: what gathering does to each class, and that it changes no total.
* `Bucket.eq_of_classes`: gathered tallies with the same classes are equal.
-/

namespace QueryOptimizer

open Quantity

/-! ### Values -/

namespace Datum

variable {τ : DataType} {a b v : Datum}

/-- Whether two datums are one value. -/
def same (a b : Datum) : Bool :=
  a.compare b == .eq

/-- Values of one type are the same if they have the same place. -/
theorem same_iff (ha : a.HasType τ) (hb : b.HasType τ) :
    a.same b = true ↔ τ.scale.place a = τ.scale.place b := by
  rw [same, beq_iff_eq, τ.scale.compare_eq_eq ha hb]

/-- A value is the same as itself. -/
theorem same_self (ha : a.HasType τ) : a.same a = true :=
  (same_iff ha ha).2 rfl

/-- Being the same is symmetric for values of one type. -/
theorem same_comm (ha : a.HasType τ) (hb : b.HasType τ) : a.same b = b.same a := by
  rw [Bool.eq_iff_iff, same_iff ha hb, same_iff hb ha, eq_comm]

/-- Values that are the same are the same as third values alike. -/
theorem same_congr (ha : a.HasType τ) (hb : b.HasType τ) (hv : v.HasType τ)
    (h : a.same b = true) : a.same v = b.same v := by
  rw [Bool.eq_iff_iff, same_iff ha hv, same_iff hb hv, (same_iff ha hb).1 h]

/-- Nulls are no value. -/
theorem isNull_eq_false_of_same (hv : v.isNull = false) (h : a.same v = true) :
    a.isNull = false := by
  cases ha : a.isNull with
  | false => rfl
  | true => simp [same, compare, ha, hv] at h

end Datum

/-! ### Entries -/

variable {K : Type} [ExactQuantity K] {τ : DataType}

namespace Bucket

@[simp] theorem lower_singleton (v : Datum) (f : K) : (singleton v f).lower = v := rfl

@[simp] theorem frequency_singleton (v : Datum) (f : K) : (singleton v f).frequency = f := rfl

/-- Whether a bucket is of one value of a type. -/
structure Counted (τ : DataType) (b : Bucket K) : Prop where
  value : b.lower.IsValue τ
  eq : b = singleton b.lower b.frequency

/-- The entries of a value. -/
def classOf (v : Datum) (bs : List (Bucket K)) : List (Bucket K) :=
  bs.filter (·.lower.same v)

/-- One entry for several of one value. -/
def fuse : List (Bucket K) → List (Bucket K)
  | [] => []
  | b :: bs => [singleton b.lower ((b :: bs).map (·.frequency)).sum]

/-- Whether the values of entries rise. -/
def Rising (bs : List (Bucket K)) : Prop :=
  bs.Pairwise fun b c => b.lower.compare c.lower = .lt

variable {bs cs : List (Bucket K)} {b c : Bucket K}

/-- The value of a counted bucket has the type. -/
theorem Counted.hasType (h : b.Counted τ) : b.lower.HasType τ :=
  h.value.type

/-- Datums of one value have one class. -/
theorem classOf_congr {v w : Datum} (hbs : ∀ b ∈ bs, b.Counted τ) (hv : v.HasType τ)
    (hw : w.HasType τ) (h : v.same w = true) : classOf v bs = classOf w bs :=
  List.filter_congr fun b hb => by
    have typed := (hbs b hb).hasType
    rw [Bool.eq_iff_iff, Datum.same_iff typed hv, Datum.same_iff typed hw,
      (Datum.same_iff hv hw).1 h]

/-- Rising entries are determined by their classes. -/
theorem eq_of_classes (hbs : ∀ b ∈ bs, b.Counted τ) (hcs : ∀ c ∈ cs, c.Counted τ)
    (risingB : Rising bs) (risingC : Rising cs)
    (classes : ∀ v : Datum, v.IsValue τ → classOf v bs = classOf v cs) : bs = cs := by
  have nodup {ds : List (Bucket K)} (hds : ∀ d ∈ ds, d.Counted τ) (rising : Rising ds) :
      ds.Nodup :=
    rising.imp_of_mem fun {x y} hx hy below same => by
      rw [τ.scale.compare_eq_lt (hds x hx).hasType (hds y hy).hasType, same] at below
      exact lt_irrefl _ below
  have mem {ds : List (Bucket K)} {d : Bucket K} (hd : d.Counted τ) : d ∈ ds ↔
      d ∈ classOf d.lower ds := by
    simp [classOf, Datum.same_self hd.hasType]
  have perm : bs.Perm cs := by
    refine (List.perm_ext_iff_of_nodup (nodup hbs risingB) (nodup hcs risingC)).2 fun d => ?_
    refine ⟨fun hd => ?_, fun hd => ?_⟩
    · rwa [mem (hbs d hd), ← classes _ (hbs d hd).value, ← mem (hbs d hd)]
    · rwa [mem (hcs d hd), classes _ (hcs d hd).value, ← mem (hcs d hd)]
  refine perm.eq_of_pairwise (fun x y hx hy below above => ?_) risingB risingC
  rw [τ.scale.compare_eq_lt (hbs x hx).hasType (hcs y hy).hasType] at below
  rw [τ.scale.compare_eq_lt (hcs y hy).hasType (hbs x hx).hasType] at above
  exact absurd above (lt_asymm below)

/-! ### Merging -/

section Merge

variable {v w : Datum} {f g : K}

omit [ExactQuantity K] in
/-- The bucket of a value is the first one with that value. -/
theorem classOf_cons (v : Datum) (b : Bucket K) (bs : List (Bucket K)) :
    classOf v (b :: bs) = if b.lower.same v then b :: classOf v bs else classOf v bs :=
  List.filter_cons

/-- A bucket of one value is counted. -/
theorem counted_singleton (hv : v.IsValue τ) (f : K) : (singleton v f).Counted τ :=
  ⟨hv, rfl⟩

/-- Ranges of one value overlap if it is the same. -/
theorem intersect?_point (hv : v.HasType τ) (hw : w.HasType τ) :
    (Range.point v).intersect? (.point w) = if v.same w then some (.point v) else none := by
  have self : v.compare v = .eq := (τ.scale.compare_eq_eq hv hv).2 rfl
  have order : v.compare w = .lt ∨ v.compare w = .eq ∨ v.compare w = .gt := by
    cases v.compare w <;> simp
  unfold Range.intersect? Range.point Datum.same
  simp only [Bound.compareStart, Bound.compareEnd]
  rcases order with h | h | h
  · have back : w.compare v = .gt :=
      (τ.scale.compare_eq_gt hw hv).2 ((τ.scale.compare_eq_lt hv hw).1 h)
    simp [Range.isEmpty, Bound.value?, h, back]
  · simp [Range.isEmpty, Bound.value?, Bound.isIncluded, h, self]
  · simp [Range.isEmpty, Bound.value?, h]

/-- The range of one value contains the values that are the same. -/
theorem contains_point (hv : v.HasType τ) (hw : w.HasType τ) :
    (Range.point v).contains w = v.same w := by
  have eq := Datum.same_iff hv hw
  rw [Bool.eq_iff_iff,
    Range.contains_iff τ.scale ⟨by simpa [Range.point], by simpa [Range.point]⟩ hw, eq]
  simp only [Range.point, Bound.Before, Bound.After, not_lt]
  exact antisymm_iff

theorem range_singleton : (singleton v f).range = .point v := rfl

/-- A range overlaps with a bucket of one value as a whole or not at all. -/
theorem overlapFraction_singleton (r : Range) :
    (singleton v f).overlapFraction r = if r.contains v then 1 else 0 := by
  simp only [overlapFraction, isSingleton, singleton, BEq.rfl, if_true, one_eq, zero_eq]

end Merge

end Bucket

namespace Histogram

open Bucket hiding singleton
open Bucket (singleton)

variable {v w : Datum} {f g : K} {last b : Bucket K} {bs : List (Bucket K)}

/-- Entries of the same value become one. -/
theorem mergeBuckets_singleton (hv : v.HasType τ) (hw : w.HasType τ) (h : v.same w = true) :
    mergeBuckets (.singleton v f) (.singleton w g) (.point v) = .singleton v (f + g) := by
  have level : w.compare v = .eq := by
    rw [τ.scale.compare_eq_eq hw hv, ← (Datum.same_iff hv hw).1 h]
  have inside : (Range.point v).contains v = true ∧ (Range.point v).contains w = true := by
    rw [contains_point hv hv, contains_point hv hw]
    exact ⟨Datum.same_self hv, h⟩
  simp only [mergeBuckets, overlapFraction_singleton, inside, if_true, larger_eq_max]
  simp [Bucket.singleton, level, one_eq]

/-- Buckets of one value are merged if the value is the same, and kept apart otherwise. -/
theorem mergeFrom_cons (hv : v.HasType τ) (hw : w.HasType τ) (f g : K) (bs : List (Bucket K)) :
    mergeFrom (singleton v f) (singleton w g :: bs) =
      if v.same w then mergeFrom (singleton v (f + g)) bs
      else singleton v f :: mergeFrom (singleton w g) bs := by
  rw [mergeFrom, range_singleton, range_singleton, intersect?_point hv hw]
  by_cases h : v.same w = true
  · simp only [h, if_true, mergeBuckets_singleton hv hw h]
  · simp only [h]
    rfl

/-- What merging makes of a first entry and of others that do not fall. -/
structure Merged (τ : DataType) (bs merged : List (Bucket K)) : Prop where
  counted : ∀ b ∈ merged, b.Counted τ
  named : ∀ b ∈ merged, ∃ c ∈ bs, b.lower = c.lower
  rising : Rising merged
  classes : ∀ v : Datum, v.IsValue τ → classOf v merged = fuse (classOf v bs)
  total : (merged.map (·.frequency)).sum = (bs.map (·.frequency)).sum

namespace Merged

variable {merged : List (Bucket K)}

/-- A single entry is merged with nothing. -/
theorem single (h : b.Counted τ) : Merged τ [b] [b] := by
  refine ⟨by simpa using h, by simp, List.pairwise_singleton _ _, fun v hv => ?_, rfl⟩
  rw [classOf_cons]
  split
  · simp only [classOf, List.filter_nil, fuse, List.map_cons, List.map_nil, List.sum_singleton]
    rw [← h.eq]
  · rfl

/-- Two entries of the same value count as one. -/
theorem fused (hv : v.HasType τ) (hw : w.HasType τ) (h : v.same w = true)
    (rest : Merged τ (singleton v (f + g) :: bs) merged) :
    Merged τ (singleton v f :: singleton w g :: bs) merged := by
  refine ⟨rest.counted, fun c hc => ?_, rest.rising, fun x hx => ?_, ?_⟩
  · obtain ⟨d, hd, same⟩ := rest.named c hc
    rcases List.mem_cons.1 hd with rfl | hd
    · exact ⟨_, List.mem_cons_self, same⟩
    · exact ⟨d, by simp [hd], same⟩
  · have equal : v.same x = w.same x := Datum.same_congr hv hw hx.type h
    rw [rest.classes x hx]
    by_cases hwx : w.same x = true
    · simp only [classOf_cons, lower_singleton, equal, hwx, if_true, fuse,
        List.map_cons, List.sum_cons, frequency_singleton, add_assoc]
    · simp [classOf_cons, equal, hwx]
  · rw [rest.total]
    simp only [List.map_cons, List.sum_cons, frequency_singleton, add_assoc]

/-- An entry stays as it is if the others are after it. -/
theorem cons (hb : b.Counted τ) (hbs : ∀ c ∈ bs, c.Counted τ) (rest : Merged τ bs merged)
    (above : ∀ c ∈ bs, b.lower.compare c.lower = .lt) : Merged τ (b :: bs) (b :: merged) := by
  refine ⟨List.forall_mem_cons.2 ⟨hb, rest.counted⟩, ?_, ?_, fun x hx => ?_, ?_⟩
  · refine List.forall_mem_cons.2 ⟨⟨_, List.mem_cons_self, rfl⟩, fun c hc => ?_⟩
    obtain ⟨d, hd, same⟩ := rest.named c hc
    exact ⟨d, List.mem_cons_of_mem _ hd, same⟩
  · refine List.pairwise_cons.2 ⟨fun c hc => ?_, rest.rising⟩
    obtain ⟨d, hd, same⟩ := rest.named c hc
    rw [same]
    exact above d hd
  · rw [classOf_cons, rest.classes x hx, classOf_cons x b]
    by_cases hbx : b.lower.same x = true
    · have none : classOf x bs = [] := by
        refine List.filter_eq_nil_iff.2 fun c hc same => ?_
        have typed := (hbs c hc).hasType
        have below := (τ.scale.compare_eq_lt hb.hasType typed).1 (above c hc)
        rw [(Datum.same_iff hb.hasType hx.type).1 hbx, (Datum.same_iff typed hx.type).1 same]
          at below
        exact lt_irrefl _ below
      simp only [hbx, if_true, none, fuse, List.map_cons, List.map_nil, List.sum_singleton]
      rw [← hb.eq]
    · simp only [hbx]
      rfl
  · simp only [List.map_cons, List.sum_cons, rest.total]

end Merged

/-- Entries are after the ones before them that have another value. -/
theorem forall_above (hv : v.HasType τ) (hw : w.HasType τ) (hbs : ∀ b ∈ bs, b.Counted τ)
    (apart : v.same w = false) (start : (w.compare v == .lt) = false)
    (sorted : ∀ c ∈ bs, (c.lower.compare w == .lt) = false) :
    ∀ c ∈ singleton w g :: bs, v.compare c.lower = .lt := by
  have first : τ.scale.place v < τ.scale.place w := by
    simp only [beq_eq_false_iff_ne, ne_eq, τ.scale.compare_eq_lt hw hv, not_lt] at start
    exact lt_of_le_of_ne start (mt (Datum.same_iff hv hw).2 (Bool.eq_false_iff.1 apart))
  refine List.forall_mem_cons.2 ⟨(τ.scale.compare_eq_lt hv hw).2 first, fun c hc => ?_⟩
  have typed : c.lower.HasType τ := (hbs c hc).hasType
  have later := sorted c hc
  simp only [beq_eq_false_iff_ne, ne_eq, τ.scale.compare_eq_lt typed hw, not_lt] at later
  exact (τ.scale.compare_eq_lt hv typed).2 (lt_of_lt_of_le first later)

/-- Entries that do not fall are merged one after the other. -/
theorem merged_mergeFrom (hlast : last.Counted τ) (hbs : ∀ b ∈ bs, b.Counted τ)
    (sorted : (last :: bs).Pairwise fun b c => (c.lower.compare b.lower == .lt) = false) :
    Merged τ (last :: bs) (mergeFrom last bs) := by
  induction bs generalizing last with
  | nil => exact .single hlast
  | cons b bs ih =>
    obtain ⟨v, f, hv, rfl⟩ : ∃ v f, v.IsValue τ ∧ last = singleton v f :=
      ⟨_, _, hlast.value, hlast.eq⟩
    obtain ⟨hb, hrest⟩ := List.forall_mem_cons.1 hbs
    obtain ⟨w, g, hw, rfl⟩ : ∃ w g, w.IsValue τ ∧ b = singleton w g := ⟨_, _, hb.value, hb.eq⟩
    obtain ⟨first, sorted⟩ := List.pairwise_cons.1 sorted
    obtain ⟨start, later⟩ := List.forall_mem_cons.1 first
    obtain ⟨second, others⟩ := List.pairwise_cons.1 sorted
    rw [mergeFrom_cons hv.type hw.type]
    by_cases h : v.same w = true
    · rw [if_pos h]
      exact .fused hv.type hw.type h
        (ih (counted_singleton hv (f + g)) hrest (List.pairwise_cons.2 ⟨later, others⟩))
    · rw [if_neg h]
      exact .cons hlast hbs (ih (counted_singleton hw g) hrest sorted)
        (forall_above hv.type hw.type hrest (Bool.eq_false_iff.2 h) start second)

/-- Entries with each value once, in rising order. -/
def gather (bs : List (Bucket K)) : List (Bucket K) :=
  merge (Sorting.sort (fun b c => b.lower.compare c.lower == .lt) bs)

/-- Entries are merged after they have been sorted. -/
theorem merged_gather (hbs : ∀ b ∈ bs, b.Counted τ) : Merged τ bs (gather bs) := by
  unfold gather
  set less : Bucket K → Bucket K → Bool := fun b c => b.lower.compare c.lower == .lt with hless
  have less_iff {b c : Bucket K} (hb : b.Counted τ) (hc : c.Counted τ) :
      less b c = true ↔ τ.scale.place b.lower < τ.scale.place c.lower := by
    rw [hless, beq_iff_eq, τ.scale.compare_eq_lt hb.hasType hc.hasType]
  have perm : (Sorting.sort less bs).Perm bs := Sorting.sort_perm less bs
  have sorted : (Sorting.sort less bs).Pairwise fun b c => less c b = false := by
    refine Sorting.sort_pairwise (P := Counted τ) (fun b c hb hc below => ?_)
      (fun b c d hb hc hd h h' => ?_) hbs
    · rw [Bool.eq_false_iff, Ne, less_iff hc hb]
      exact lt_asymm ((less_iff hb hc).1 below)
    · rw [Bool.eq_false_iff, Ne, less_iff hb hc, not_lt] at h
      rw [Bool.eq_false_iff, Ne, less_iff hc hd, not_lt] at h'
      rw [Bool.eq_false_iff, Ne, less_iff hb hd, not_lt]
      exact le_trans h' h
  have classes (v : Datum) (hv : v.IsValue τ) :
      classOf v (Sorting.sort less bs) = classOf v bs := by
    refine Sorting.filter_sort bs fun b hb c hc hbv hcv => ?_
    rw [Bool.eq_false_iff, Ne, less_iff (hbs b hb) (hbs c hc),
      (Datum.same_iff (hbs b hb).hasType hv.type).1 hbv,
      (Datum.same_iff (hbs c hc).hasType hv.type).1 hcv]
    exact lt_irrefl _
  have counted : ∀ b ∈ Sorting.sort less bs, b.Counted τ :=
    fun b hb => hbs b (perm.mem_iff.1 hb)
  have total : ((Sorting.sort less bs).map (·.frequency)).sum = (bs.map (·.frequency)).sum :=
    (perm.map _).sum_eq
  have mem {b : Bucket K} : b ∈ Sorting.sort less bs ↔ b ∈ bs := perm.mem_iff
  suffices h : Merged τ (Sorting.sort less bs) (merge (Sorting.sort less bs)) by
    refine ⟨h.counted, fun b hb => ?_, h.rising, fun v hv => ?_, h.total.trans total⟩
    · obtain ⟨c, hc, same⟩ := h.named b hb
      exact ⟨c, mem.1 hc, same⟩
    · rw [h.classes v hv, classes v hv]
  cases h : Sorting.sort less bs with
  | nil => exact ⟨by simp [merge], by simp [merge], .nil, fun _ _ => rfl, rfl⟩
  | cons b rest =>
    rw [h] at sorted counted
    exact merged_mergeFrom (List.forall_mem_cons.1 counted).1
      (List.forall_mem_cons.1 counted).2 sorted

end Histogram

end QueryOptimizer
