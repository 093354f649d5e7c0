import QueryOptimizer.Proofs.Number.Quantity
import QueryOptimizer.Proofs.Constraint.Gaps
import QueryOptimizer.Proofs.Statistics.Covering
import QueryOptimizer.Proofs.Statistics.Filtering

/-!
# Well-formed histograms

The operations on rows cut buckets down to what lies in some ranges or in the buckets of
another histogram, and scale what is left. A part that is cut out lies inside the bucket and
inside the range that it was cut out with (`Range.Inside`). So if the buckets are in order and
disjoint, and the ranges are too, all parts taken together are (`Bucket.arranged_pieces`),
although they are put together by two loops.

## Main results

* `Bucket.piece_of_restrict?`: what is cut out of a bucket.
* `Bucket.arranged_pieces`: the parts of several buckets inside several ranges.
* `Histogram.wellFormed_operations`: operations on rows keep histograms well-formed.
-/

namespace QueryOptimizer

variable {τ : DataType} {s : Scale τ}

/-! ### Ranges inside ranges -/

namespace Bound

variable {b c d : Bound}

/-- Whether a range that starts at one bound does not start before one that
starts at another bound. -/
def StartsBy (s : Scale τ) (b c : Bound) : Prop :=
  ∀ x ∈ b.value?, ∃ y ∈ c.value?,
    s.place x < s.place y ∨ s.place x = s.place y ∧ (c.isIncluded = true → b.isIncluded = true)

/-- Whether a range that stops at one bound does not stop behind one that stops
at another bound. -/
def StopsBy (s : Scale τ) (b c : Bound) : Prop :=
  ∀ y ∈ c.value?, ∃ x ∈ b.value?,
    s.place x < s.place y ∨ s.place x = s.place y ∧ (b.isIncluded = true → c.isIncluded = true)

/-- A range does not start before itself. -/
theorem StartsBy.refl (s : Scale τ) (b : Bound) : b.StartsBy s b :=
  fun x hx => ⟨x, hx, .inr ⟨rfl, id⟩⟩

/-- A range does not stop behind itself. -/
theorem StopsBy.refl (s : Scale τ) (b : Bound) : b.StopsBy s b :=
  fun x hx => ⟨x, hx, .inr ⟨rfl, id⟩⟩

/-- Starting no earlier is transitive. -/
theorem StartsBy.trans (h : b.StartsBy s c) (h' : c.StartsBy s d) : b.StartsBy s d := by
  intro x hx
  obtain ⟨y, hy, first⟩ := h x hx
  obtain ⟨z, hz, second⟩ := h' y hy
  exact ⟨z, hz, by grind⟩

/-- Stopping no later is transitive. -/
theorem StopsBy.trans (h : b.StopsBy s c) (h' : c.StopsBy s d) : b.StopsBy s d := by
  intro z hz
  obtain ⟨y, hy, second⟩ := h' z hz
  obtain ⟨x, hx, first⟩ := h y hy
  exact ⟨x, hx, by grind⟩

/-- The comparison of two starts says which of them is the later one. -/
theorem startsBy_of_compareStart (hb : b.HasType τ) (hc : c.HasType τ) :
    (b.compareStart c = .lt → b.StartsBy s c) ∧ (b.compareStart c ≠ .lt → c.StartsBy s b) := by
  cases b with
  | unbounded => cases c <;> simp [compareStart, StartsBy, value?]
  | included v | excluded v =>
    cases c with
    | unbounded => simp [compareStart, StartsBy, value?]
    | included w | excluded w =>
      have order := s.compares (hb v rfl) (hc w rfl)
      cases h : v.compare w <;> simp only [h, Ordering.Compares] at order <;>
        simp [compareStart, StartsBy, value?, isIncluded, h, order]

/-- The comparison of two ends says which of them is the earlier one. -/
theorem stopsBy_of_compareEnd (hb : b.HasType τ) (hc : c.HasType τ) :
    (b.compareEnd c = .gt → c.StopsBy s b) ∧ (b.compareEnd c ≠ .gt → b.StopsBy s c) := by
  cases b with
  | unbounded => cases c <;> simp [compareEnd, StopsBy, value?]
  | included v | excluded v =>
    cases c with
    | unbounded => simp [compareEnd, StopsBy, value?]
    | included w | excluded w =>
      have order := s.compares (hb v rfl) (hc w rfl)
      cases h : v.compare w <;> simp only [h, Ordering.Compares] at order <;>
        simp [compareEnd, StopsBy, value?, isIncluded, h, order]

end Bound

namespace Range

variable {q r t u : Range}

/-- Whether a range reaches no further than another one on either side. -/
structure Inside (s : Scale τ) (q r : Range) : Prop where
  start : r.start.StartsBy s q.start
  stop : q.stop.StopsBy s r.stop

/-- A range inside a range that is inside a third one is inside the third one. -/
theorem Inside.trans (h : q.Inside s r) (h' : r.Inside s t) : q.Inside s t :=
  ⟨h'.start.trans h.start, h.stop.trans h'.stop⟩

/-- An overlap lies inside both ranges. -/
theorem inside_of_intersect? (hr : r.HasType τ) (ht : t.HasType τ)
    (overlap : r.intersect? t = some q) : q.Inside s r ∧ q.Inside s t := by
  obtain ⟨start, stop, eq, hstart, hstop⟩ := intersect?_eq r t
  have later : r.start.StartsBy s start ∧ t.start.StartsBy s start := by
    have order := Bound.startsBy_of_compareStart (s := s) hr.start ht.start
    rw [hstart]
    split
    · rename_i lt
      exact ⟨order.1 (beq_iff_eq.1 lt), .refl s _⟩
    · rename_i notLt
      exact ⟨.refl s _, order.2 fun lt => notLt (beq_iff_eq.2 lt)⟩
  have earlier : stop.StopsBy s r.stop ∧ stop.StopsBy s t.stop := by
    have order := Bound.stopsBy_of_compareEnd (s := s) hr.stop ht.stop
    rw [hstop]
    split
    · rename_i gt
      exact ⟨order.1 (beq_iff_eq.1 gt), .refl s _⟩
    · rename_i notGt
      exact ⟨.refl s _, order.2 fun gt => notGt (beq_iff_eq.2 gt)⟩
  rw [eq] at overlap
  split at overlap
  · cases overlap
  · obtain rfl := Option.some.inj overlap
    exact ⟨⟨later.1, earlier.1⟩, ⟨later.2, earlier.2⟩⟩

/-- An intersection that is returned is not empty. -/
theorem nonempty_of_intersect? (overlap : r.intersect? t = some q) : q.isEmpty = false := by
  obtain ⟨start, stop, eq, -, -⟩ := intersect?_eq r t
  rw [eq] at overlap
  split at overlap
  · cases overlap
  · rename_i nonempty
    obtain rfl := Option.some.inj overlap
    exact Bool.eq_false_iff.2 nonempty

/-- Whether a range stops before another one starts, perhaps at the same value, which one
of them leaves out. -/
def Ahead (s : Scale τ) (r t : Range) : Prop :=
  ∃ x ∈ r.stop.value?, ∃ y ∈ t.start.value?,
    s.place x < s.place y ∨ s.place x = s.place y ∧
    ¬(r.stop.isIncluded = true ∧ t.start.isIncluded = true)

/-- What lies inside the first range is ahead of what lies inside the second one. -/
theorem Ahead.of_inside (h : r.Ahead s t) (hq : q.Inside s r) (hu : u.Inside s t) :
    q.Ahead s u := by
  obtain ⟨x, hx, y, hy, before⟩ := h
  obtain ⟨x', hx', left⟩ := hq.stop x hx
  obtain ⟨y', hy', right⟩ := hu.start y hy
  exact ⟨x', hx', y', hy', by grind⟩

/-- A range that lies before another one stops before that one starts. -/
theorem Precedes.ahead (hr : r.HasType τ) (ht : t.HasType τ) (h : r.Precedes t) :
    r.Ahead τ.scale t := by
  obtain ⟨x, hx, y, hy, before⟩ := h
  rw [τ.scale.compare_eq_lt (hr.stop x hx) (ht.start y hy),
    τ.scale.compare_eq_eq (hr.stop x hx) (ht.start y hy)] at before
  exact ⟨x, hx, y, hy, by grind⟩

end Range

/-! ### Cut buckets -/

namespace Bucket

variable {K : Type} {b c : Bucket K} {r : Range}

/-- The range of a sound bucket has the type of the bucket. -/
theorem Sound.hasType_range (h : b.Sound τ) : b.range.HasType τ :=
  Bucket.hasType_range h.lower h.upper

/-- A bucket ends before another one begins if its range does. -/
theorem ahead_range_iff (hb : b.Sound τ) (hc : c.Sound τ) :
    b.range.Ahead τ.scale c.range ↔ b.Ahead c := by
  rw [ahead_iff hb.upper hc.lower]
  cases hbc : b.upperClosed <;> cases hcc : c.lowerClosed <;>
    simp [Range.Ahead, range, hbc, hcc, Bound.value?, Bound.isIncluded]

/-- The range of a bucket that is cut down to a range with two ends. -/
theorem range_withRange {v w : Datum} (hv : v ∈ r.start.value?) (hw : w ∈ r.stop.value?) :
    (b.withRange r).range = r := by
  obtain ⟨start, stop⟩ := r
  cases start <;> cases stop <;> simp_all [withRange, range, Bound.value?, Bound.isExcluded]

variable [ExactQuantity K]

/-- What is cut out of a bucket with a range. -/
structure Piece (τ : DataType) (b c : Bucket K) (r : Range) : Prop where
  sound : c.Sound τ
  inBucket : c.range.Inside τ.scale b.range
  inRange : c.range.Inside τ.scale r

/-- What is cut out of a bucket lies inside the bucket and inside the range. -/
theorem piece_of_restrict? (hb : b.Sound τ) (hr : r.HasType τ)
    (kept : b.restrict? r = some c) :
    Piece τ b c r := by
  unfold restrict? at kept
  dsimp only at kept
  split at kept
  · cases kept
  obtain ⟨overlap, both, rfl⟩ := Option.map_eq_some_iff.1 kept
  obtain ⟨inBucket, inRange⟩ :=
    Range.inside_of_intersect? (s := τ.scale) hb.hasType_range hr both
  have typed := (Range.contains_intersect? hb.hasType_range hr).1 overlap both
  obtain ⟨v, hv, -⟩ := inBucket.start b.lower (by simp only [range]; split <;> rfl)
  obtain ⟨w, hw, -⟩ := inBucket.stop b.upper (by simp only [range]; split <;> rfl)
  have same : (b.withRange overlap).range = overlap := range_withRange hv hw
  have lower : (b.withRange overlap).lower = v := by simp [withRange, Option.mem_def.1 hv]
  have upper : (b.withRange overlap).upper = w := by simp [withRange, Option.mem_def.1 hw]
  have sound : (b.withRange overlap).Sound τ :=
    ⟨lower ▸ typed.start v hv, upper ▸ typed.stop w hw,
      (congrArg Range.isEmpty same).trans (Range.nonempty_of_intersect? both)⟩
  exact ⟨⟨sound.lower, sound.upper, sound.nonempty⟩, same.symm ▸ inBucket, same.symm ▸ inRange⟩

/-- Whatever is cut out has at least one value. -/
theorem one_le_distinct_of_restrict? (kept : b.restrict? r = some c) : 1 ≤ c.distinct := by
  unfold restrict? at kept
  dsimp only at kept
  split at kept
  · cases kept
  obtain ⟨overlap, -, rfl⟩ := Option.map_eq_some_iff.1 kept
  exact Quantity.one_le_ite_larger _

/-- What two buckets have in common lies inside both. -/
theorem piece_of_intersect? {l overlap : Bucket K} {left right : K} (hl : l.Sound τ)
    (hb : b.Sound τ) (common : l.intersect? b = some (overlap, left, right)) :
    Piece τ l overlap b.range := by
  unfold intersect? at common
  obtain ⟨shared, both, common⟩ := Option.bind_eq_some_iff.1 common
  obtain ⟨c, cut, common⟩ := Option.bind_eq_some_iff.1 common
  obtain ⟨d, -, common⟩ := Option.bind_eq_some_iff.1 common
  obtain ⟨rfl, -, -⟩ : c = overlap ∧ _ = left ∧ _ = right := by simpa using common
  have typed := (Range.contains_intersect? hl.hasType_range hb.hasType_range).1 shared both
  have piece := piece_of_restrict? hl typed cut
  have inside :=
    Range.inside_of_intersect? (s := τ.scale) hl.hasType_range hb.hasType_range both
  exact ⟨piece.sound, piece.inBucket, piece.inRange.trans inside.2⟩

omit [ExactQuantity K] in
/-- The parts of several buckets, put together by two loops: if those things that buckets are
cut with are in order and disjoint, then so are the parts. -/
theorem arranged_pieces {α : Type} {bs : List (Bucket K)} {as : List α} {range : α → Range}
    {cut : Bucket K → α → Option (Bucket K)} (arranged : Arranged τ bs)
    (apart : as.Pairwise fun a a' => (range a).Ahead τ.scale (range a'))
    (pieces : ∀ b ∈ bs, ∀ a ∈ as, ∀ c, cut b a = some c → Piece τ b c (range a)) :
    Arranged τ (bs.flatMap fun b => as.filterMap (cut b)) := by
  have piece {b c : Bucket K} (hb : b ∈ bs) (hc : c ∈ as.filterMap (cut b)) :
      ∃ a ∈ as, Piece τ b c (range a) := by
    obtain ⟨a, ha, made⟩ := List.mem_filterMap.1 hc
    exact ⟨a, ha, pieces b hb a ha c made⟩
  refine ⟨fun c hc => ?_, List.pairwise_flatMap.2 ⟨fun b hb => ?_, ?_⟩⟩
  · obtain ⟨b, hb, hc⟩ := List.mem_flatMap.1 hc
    obtain ⟨a, -, piece⟩ := piece hb hc
    exact piece.sound
  · refine List.pairwise_filterMap.2 (apart.imp_of_mem fun {a a'} ha ha' ahead c hc d hd => ?_)
    have first := pieces b hb a ha c hc
    have second := pieces b hb a' ha' d hd
    exact (ahead_range_iff first.sound second.sound).1
      (ahead.of_inside first.inRange second.inRange)
  · refine arranged.ahead.imp_of_mem fun {b b'} hb hb' ahead c hc d hd => ?_
    obtain ⟨_, -, first⟩ := piece hb hc
    obtain ⟨_, -, second⟩ := piece hb' hd
    have ahead := (ahead_range_iff (arranged.sound b hb) (arranged.sound b' hb')).2 ahead
    exact (ahead_range_iff first.sound second.sound).1
      (ahead.of_inside first.inBucket second.inBucket)

end Bucket

/-! ### Histograms -/

namespace Histogram

open Bucket Quantity Estimate

variable {K : Type} [ExactQuantity K] {h g k : Histogram K}

/-- Whether a histogram is well defined, its buckets are in order and disjoint, none is empty,
and the numbers make sense: nothing is negative, and the frequencies make up at most one. -/
structure WellFormed (τ : DataType) (h : Histogram K) : Prop extends h.Fractional where
  wellDefined : h.wellDefined = true
  arranged : Arranged τ h.buckets
  distinct : ∀ b ∈ h.buckets, 0 ≤ b.distinct
  distinctRemaining : 0 ≤ h.distinctRemaining

/-- Scaling makes a histogram well-formed if nothing but the total is wrong. -/
theorem wellFormed_normalize (wellDefined : h.wellDefined = true)
    (arranged : Arranged τ h.buckets) (frequency : ∀ b ∈ h.buckets, 0 ≤ b.frequency)
    (distinct : ∀ b ∈ h.buckets, 0 ≤ b.distinct) (nullFreq : 0 ≤ h.nullFreq)
    (freqRemaining : 0 ≤ h.freqRemaining) (distinctRemaining : 0 ≤ h.distinctRemaining) :
    h.normalize.WellFormed τ where
  toFractional := fractional_normalize frequency nullFreq freqRemaining
  arranged := arranged_normalize arranged
  wellDefined := by
    unfold normalize
    dsimp only
    split <;> exact wellDefined
  distinct := by
    unfold normalize
    dsimp only
    split
    · exact List.forall_mem_map.2 distinct
    · exact distinct
  distinctRemaining := by
    unfold normalize
    dsimp only
    split <;> exact distinctRemaining

/-! #### Filters -/

/-- Filtering leaves no negative number of distinct values outside of buckets. -/
theorem distinct_filterRemaining (hh : 0 ≤ h.distinctRemaining) (ranges : List Range) :
    0 ≤ (h.filterRemaining ranges).2 := by
  have nothing : (0 : K) ≤ 0.0 := zero_eq.ge
  unfold filterRemaining
  split
  · dsimp only
    split
    · change 0 ≤ smaller _ _
      rw [smaller_eq_min, ExactQuantity.ofNat_eq]
      exact le_min (Nat.cast_nonneg _) hh
    · split
      · exact hh
      · split
        · exact nothing
        · exact mul_nonneg hh isFraction_defaultSelectivity.nonneg
  · exact nothing

/-- A filter with ranges in canonical form. -/
theorem wellFormed_filter (hh : h.WellFormed τ) {ranges : List Range}
    (typed : ∀ r ∈ ranges, r.HasType τ) (arranged : Range.Arranged ranges)
    (includeNull : Bool) : (h.filter ranges includeNull).1.WellFormed τ := by
  have apart : ranges.Pairwise fun r r' => r.Ahead τ.scale r' :=
    (Range.tidy_of_arranged typed arranged).apart.imp_of_mem fun {r r'} hr hr' apart =>
      apart.2.ahead (typed r hr) (typed r' hr')
  have cut {c : Bucket K} (hc : c ∈ h.buckets.flatMap fun b => ranges.filterMap b.restrict?) :
      ∃ b ∈ h.buckets, ∃ r, b.restrict? r = some c := by
    obtain ⟨b, hb, hc⟩ := List.mem_flatMap.1 hc
    obtain ⟨r, -, kept⟩ := List.mem_filterMap.1 hc
    exact ⟨b, hb, r, kept⟩
  unfold filter
  rw [hh.wellDefined]
  refine wellFormed_normalize rfl ?_ (fun c hc => ?_) (fun c hc => ?_) ?_
    (frequency_filterRemaining hh.freqRemaining ranges).1
    (distinct_filterRemaining hh.distinctRemaining ranges)
  · exact arranged_pieces hh.arranged apart fun b hb r hr c kept =>
      piece_of_restrict? (hh.arranged.sound b hb) (typed r hr) kept
  · obtain ⟨b, hb, r, kept⟩ := cut hc
    rw [frequency_of_restrict? kept]
    exact mul_nonneg (hh.buckets b hb) (b.isFraction_overlapFraction r).nonneg
  · obtain ⟨b, hb, r, kept⟩ := cut hc
    exact (zero_le_one' K).trans (one_le_distinct_of_restrict? kept)
  · dsimp only
    split
    · exact hh.nullFreq
    · exact zero_eq.ge

/-! #### Joins -/

/-- Two buckets have at least one value in common, or they do not join. -/
theorem one_le_distinct_of_joinBuckets? {l r b : Bucket K}
    (joined : joinBuckets? l r = some b) :
    1 ≤ b.distinct := by
  unfold joinBuckets? at joined
  obtain ⟨⟨overlap, left, right⟩, -, rfl⟩ := Option.map_eq_some_iff.1 joined
  dsimp only
  rw [smaller_eq_min]
  exact le_min (one_le_ite_larger _) (one_le_ite_larger _)

/-- The join of two buckets is cut out of the left one with the range of the right one. -/
theorem piece_of_joinBuckets? {l r b : Bucket K} (hl : l.Sound τ) (hr : r.Sound τ)
    (joined : joinBuckets? l r = some b) : Piece τ l b r.range := by
  unfold joinBuckets? at joined
  obtain ⟨⟨overlap, left, right⟩, common, rfl⟩ := Option.map_eq_some_iff.1 joined
  have piece := piece_of_intersect? hl hr common
  exact ⟨⟨piece.sound.lower, piece.sound.upper, piece.sound.nonempty⟩,
    piece.inBucket, piece.inRange⟩

/-- A join leaves no negative number of distinct values outside of buckets. -/
theorem distinct_joinRemaining (hh : 0 ≤ h.distinctRemaining) (hg : 0 ≤ g.distinctRemaining) :
    0 ≤ (h.joinRemaining g).2 := by
  unfold joinRemaining
  split
  · change 0 ≤ smaller _ _
    rw [smaller_eq_min]
    exact le_min hh hg
  · exact zero_eq.ge

/-- An equality tells nothing just if neither histogram has a bucket. -/
theorem joinEquality?_eq_none (hh : h.WellFormed τ) (hg : g.WellFormed τ) :
    h.joinEquality? g = none ↔ h.buckets = [] ∧ g.buckets = [] := by
  unfold joinEquality?
  rw [hh.wellDefined, hg.wellDefined]
  cases h.buckets <;> cases g.buckets <;> simp

/-- The join of well-formed histograms by equality is well formed. -/
theorem wellFormed_of_joinEquality? (hh : h.WellFormed τ) (hg : g.WellFormed τ)
    {selectivity : K} (joined : h.joinEquality? g = some (k, selectivity)) :
    k.WellFormed τ := by
  have pair {c : Bucket K}
    (hc : c ∈ h.buckets.flatMap fun l => g.buckets.filterMap (joinBuckets? l)) :
      ∃ l ∈ h.buckets, ∃ r ∈ g.buckets, joinBuckets? l r = some c := by
    obtain ⟨l, hl, hc⟩ := List.mem_flatMap.1 hc
    obtain ⟨r, hr, joined⟩ := List.mem_filterMap.1 hc
    exact ⟨l, hl, r, hr, joined⟩
  unfold joinEquality? at joined
  split at joined
  · cases joined
  simp only [Option.some.injEq, Prod.mk.injEq] at joined
  obtain ⟨rfl, -⟩ := joined
  refine wellFormed_normalize rfl ?_ (fun c hc => ?_) (fun c hc => ?_) zero_eq.ge
    (frequency_joinRemaining hh.freqRemaining hg.freqRemaining).1
    (distinct_joinRemaining hh.distinctRemaining hg.distinctRemaining)
  · refine arranged_pieces hh.arranged ?_ fun l hl r hr c joined =>
      piece_of_joinBuckets? (hh.arranged.sound l hl) (hg.arranged.sound r hr) joined
    exact hg.arranged.ahead.imp_of_mem fun {r r'} hr hr' ahead =>
      (ahead_range_iff (hg.arranged.sound r hr) (hg.arranged.sound r' hr')).2 ahead
  · obtain ⟨l, hl, r, hr, joined⟩ := pair hc
    exact (frequency_of_joinBuckets? (hh.buckets l hl) (hg.buckets r hr) joined).1
  · obtain ⟨l, hl, r, hr, joined⟩ := pair hc
    exact (zero_le_one' K).trans (one_le_distinct_of_joinBuckets? joined)

/-- What an anti join leaves of a bucket has the same ends. -/
theorem of_unmatched? {others : List (Bucket K)} {l b : Bucket K}
    (left : unmatched? others l = some b) :
    ∃ frequency distinct, b = { l with frequency, distinct } ∧
      (0 ≤ l.frequency → 0 ≤ frequency) ∧ 1 ≤ distinct := by
  unfold unmatched? at left
  dsimp only at left
  split at left
  · cases left
  obtain rfl := Option.some.inj left
  refine ⟨_, _, rfl, fun nonneg => mul_nonneg nonneg (isFraction_clamp _).nonneg, ?_⟩
  rw [larger_eq_max, one_eq]
  exact le_max_right _ _

/-- The antijoin of well-formed histograms is well formed. -/
theorem wellFormed_antiJoin (hh : h.WellFormed τ) (hg : g.WellFormed τ) :
    (h.antiJoin g).WellFormed τ := by
  have left {c : Bucket K} (hc : c ∈ h.buckets.filterMap (unmatched? g.buckets)) :
      ∃ l ∈ h.buckets, ∃ frequency distinct,
      c = { l with frequency, distinct } ∧ 0 ≤ frequency ∧
        1 ≤ distinct := by
    obtain ⟨l, hl, left⟩ := List.mem_filterMap.1 hc
    obtain ⟨frequency, distinct, same, nonneg, some⟩ := of_unmatched? left
    exact ⟨l, hl, frequency, distinct, same, nonneg (hh.buckets l hl), some⟩
  unfold antiJoin
  rw [hh.wellDefined, hg.wellDefined]
  refine wellFormed_normalize rfl ⟨fun c hc => ?_, ?_⟩ (fun c hc => ?_)
    (fun c hc => ?_) hh.nullFreq hh.freqRemaining hh.distinctRemaining
  · obtain ⟨l, hl, frequency, distinct, rfl, -, -⟩ := left hc
    have sound := hh.arranged.sound l hl
    exact ⟨sound.lower, sound.upper, sound.nonempty⟩
  · refine List.pairwise_filterMap.2 (hh.arranged.ahead.imp fun {l l'} ahead c hc d hd => ?_)
    obtain ⟨_, _, rfl, -, -⟩ := of_unmatched? hc
    obtain ⟨_, _, rfl, -, -⟩ := of_unmatched? hd
    exact ahead
  · obtain ⟨l, hl, frequency, distinct, rfl, nonneg, -⟩ := left hc
    exact nonneg
  · obtain ⟨l, hl, frequency, distinct, rfl, -, some⟩ := left hc
    exact (zero_le_one' K).trans some

/-! #### Padding and grouping -/

/-- The parts of a padded column make up the whole of it. -/
theorem clamp_one_sub_add_clamp (a : K) : clamp 0.0 1.0 (1.0 - a) + clamp 0.0 1.0 a = 1 := by
  simp only [clamp, zero_eq, one_eq]
  split_ifs <;> linarith

/-- A well-formed histogram stays so when nulls are added, whatever their fraction is. -/
theorem wellFormed_withNullPadding (hh : h.WellFormed τ) (nullFraction : K) :
    (h.withNullPadding nullFraction).WellFormed τ := by
  have keep : IsFraction (clamp 0.0 1.0 (1.0 - nullFraction)) := isFraction_clamp _
  have pad : IsFraction (clamp 0.0 1.0 nullFraction) := isFraction_clamp _
  have whole := clamp_one_sub_add_clamp nullFraction
  unfold withNullPadding
  rw [hh.wellDefined]
  simp only [Bool.not_true, Bool.false_eq_true, if_false]
  generalize clamp 0.0 1.0 (1.0 - nullFraction) = kept at *
  generalize clamp 0.0 1.0 nullFraction = padded at *
  exact {
    buckets := List.forall_mem_map.2 fun b hb => mul_nonneg (hh.buckets b hb) keep.nonneg
    nullFreq := add_nonneg (mul_nonneg hh.nullFreq keep.nonneg) pad.nonneg
    freqRemaining := mul_nonneg hh.freqRemaining keep.nonneg
    total := by
      have scaled : ((h.buckets.map (·.scale kept)).map (·.frequency)).sum =
          (h.buckets.map (·.frequency)).sum * kept := by
        rw [List.map_map, ← List.sum_map_mul_right]
        rfl
      have total := mul_le_mul_of_nonneg_right hh.total keep.nonneg
      rw [totalFrequency_eq] at total ⊢
      rw [scaled]
      linarith
    wellDefined := rfl
    arranged := arranged_map _ hh.arranged
    distinct := List.forall_mem_map.2 hh.distinct
    distinctRemaining := hh.distinctRemaining }

/-- A well-formed histogram stays so when it is grouped. -/
theorem wellFormed_grouped (hh : h.WellFormed τ) : h.grouped.WellFormed τ := by
  unfold grouped
  rw [hh.wellDefined]
  simp only [Bool.not_true, Bool.false_eq_true, if_false]
  split
  · exact hh
  · rename_i heavy
    have positive : 0 < h.ndv := epsilon_pos.trans (not_le.1 heavy)
    exact {
      buckets := List.forall_mem_map.2 fun b hb => div_nonneg (hh.distinct b hb) positive.le
      nullFreq := by
        dsimp only
        split
        · exact div_nonneg (one_eq (K := K) ▸ zero_le_one' K) positive.le
        · exact zero_eq.ge
      freqRemaining := div_nonneg hh.distinctRemaining positive.le
      total := by
        have values : (h.buckets.map (·.distinct)).sum + h.distinctRemaining +
            (if epsilon < h.nullFreq then 1.0 else 0.0) = h.ndv := by
          rw [ndv, sum_eq]
        have null : (if epsilon < h.nullFreq then 1.0 / h.ndv else 0.0) =
            (if epsilon < h.nullFreq then 1.0 else 0.0) / h.ndv := by
          split
          · rfl
          · rw [zero_eq, zero_div]
        have parts : ((h.buckets.map fun b => { b with frequency := b.distinct / h.ndv }).map
            (·.frequency)).sum = (h.buckets.map (·.distinct)).sum / h.ndv := by
          simp only [List.map_map, Function.comp_def, div_eq_mul_inv, List.sum_map_mul_right]
        rw [totalFrequency_eq]
        dsimp only
        rw [parts, null, ← add_div, ← add_div, add_right_comm, values]
        exact div_self_le_one h.ndv
      wellDefined := rfl
      arranged := arranged_map _ hh.arranged
      distinct := List.forall_mem_map.2 hh.distinct
      distinctRemaining := hh.distinctRemaining }

/-- Operations on rows keep histograms well-formed: filters with ranges in canonical form, with
null or without it, equality joins where they tell anything, anti joins, padding with any
fraction of nulls, and grouping. -/
theorem wellFormed_operations (hh : h.WellFormed τ) (hg : g.WellFormed τ) :
    (∀ ranges : List Range, (∀ r ∈ ranges, r.HasType τ) → ∀ includeNull,
      (h.filter (Range.normalize ranges) includeNull).1.WellFormed τ) ∧
    (h.joinEquality? g = none ↔ h.buckets = [] ∧ g.buckets = []) ∧
    (∀ k selectivity, h.joinEquality? g = some (k, selectivity) → k.WellFormed τ) ∧
    (h.antiJoin g).WellFormed τ ∧
    (∀ nullFraction, (h.withNullPadding nullFraction).WellFormed τ) ∧
    h.grouped.WellFormed τ := by
  refine ⟨fun ranges typed includeNull => ?_, joinEquality?_eq_none hh hg,
    fun k selectivity joined => wellFormed_of_joinEquality? hh hg joined,
    wellFormed_antiJoin hh hg,
    wellFormed_withNullPadding hh, wellFormed_grouped hh⟩
  exact wellFormed_filter hh (Range.normalize_spec τ.scale typed).1
    (Range.arranged_normalize typed) includeNull

/-- The whole numbers from 0 to 9 in two buckets that share the end 5, some nulls,
and two more numbers. -/
def cutAtFive : Histogram K where
  buckets := [⟨.integer .int64 0, .integer .int64 5, true, false, 0.25, 5.0⟩,
    ⟨.integer .int64 5, .integer .int64 9, true, true, 0.25, 5.0⟩]
  nullFreq := 0.25
  distinctRemaining := 2.0
  freqRemaining := 0.25

/-- Two buckets that meet at the number 5 are well formed. -/
theorem wellFormed_cutAtFive : (cutAtFive : Histogram K).WellFormed (.integer .int64) where
  buckets := by norm_num [cutAtFive, ExactQuantity.ofScientific_eq]
  nullFreq := by norm_num [cutAtFive, ExactQuantity.ofScientific_eq]
  freqRemaining := by norm_num [cutAtFive, ExactQuantity.ofScientific_eq]
  total := by norm_num [totalFrequency_eq, cutAtFive, ExactQuantity.ofScientific_eq]
  wellDefined := rfl
  arranged := by
    refine ⟨List.forall_mem_cons.2
      ⟨⟨rfl, rfl, rfl⟩, List.forall_mem_singleton.2 ⟨rfl, rfl, rfl⟩⟩, ?_⟩
    exact List.pairwise_pair.2 (.inr ⟨rfl, by simp⟩)
  distinct := by norm_num [cutAtFive, ExactQuantity.ofScientific_eq]
  distinctRemaining := by norm_num [cutAtFive, ExactQuantity.ofScientific_eq]

/-- The numbers above 3, the join of the column with itself, its anti join, the column with a
third of nulls, and its groups. -/
theorem wellFormed_operations_cutAtFive :
    (cutAtFive : Histogram ℝ).WellFormed (.integer .int64) ∧
    ((cutAtFive : Histogram ℝ).filter (Range.normalize [.above (.integer .int64 3) false])
      false).1.WellFormed (.integer .int64) ∧
    (∃ k selectivity, (cutAtFive : Histogram ℝ).joinEquality? cutAtFive =
      some (k, selectivity) ∧
      k.WellFormed (.integer .int64)) ∧
    ((cutAtFive : Histogram ℝ).antiJoin cutAtFive).WellFormed (.integer .int64) ∧
    ((cutAtFive : Histogram ℝ).withNullPadding (1 / 3)).WellFormed (.integer .int64) ∧
    (cutAtFive : Histogram ℝ).grouped.WellFormed (.integer .int64) := by
  obtain ⟨filters, undecided, joins, antiJoins, pads, groups⟩ :=
    wellFormed_operations (K := ℝ) wellFormed_cutAtFive wellFormed_cutAtFive
  have above : ∀ r ∈ [Range.above (.integer .int64 3) false], r.HasType (.integer .int64) :=
    List.forall_mem_singleton.2 ⟨Bound.hasType_excluded.2 rfl, Bound.hasType_unbounded⟩
  have joined : (cutAtFive : Histogram ℝ).joinEquality? cutAtFive ≠ none :=
    fun h => by cases (undecided.1 h).1
  obtain ⟨⟨k, selectivity⟩, joined⟩ := Option.ne_none_iff_exists'.1 joined
  exact ⟨wellFormed_cutAtFive, filters _ above false,
    ⟨k, selectivity, joined, joins k selectivity joined⟩, antiJoins, pads (1 / 3), groups⟩

end Histogram

end QueryOptimizer
