import QueryOptimizer.Proofs.Statistics.Counting

/-!
# Concatenated histograms

The buckets of a histogram are to be in order and disjoint, and none is to be empty
(`Histogram.Arranged`). A concatenation sorts the buckets of both histograms by their lower
ends and merges those that overlap.

Sorting goes by the values of the lower ends alone. If two buckets begin at one value, the one
that contains it must come first, or merging loses it; so the concatenation of two arranged
histograms is arranged and covers the values of both as long as no bucket of the first one
begins behind a value at which a bucket of the second begins (`Histogram.unionAll_covers`).
Otherwise values may get lost (`Histogram.unionAll_loses`), although the histograms could be
concatenated the other way around.

## Main results

* `Histogram.mergeFrom_spec`: merging buckets that rise.
* `Histogram.unionAll_covers`: what the concatenation contains.
-/

namespace QueryOptimizer

variable {K : Type} {τ : DataType}

/-- Datums of one type that compare equal are one datum; there is one null of a type. -/
theorem Datum.eq_of_place_eq {a b : Datum} (ha : a.HasType τ) (hb : b.HasType τ)
    (same : τ.scale.place a = τ.scale.place b) : a = b := by
  have equal := (τ.scale.compare_eq_eq ha hb).2 same
  have null {d : Datum} (hd : d.HasType τ) (none : d.isNull = true) : d = .null τ := by
    cases d <;> cases none
    exact congrArg _ hd
  cases hna : a.isNull <;> cases hnb : b.isNull
  · exact eq_of_compare_eq ⟨ha, hna⟩ ⟨hb, hnb⟩ equal
  · simp [compare, hna, hnb] at equal
  · simp [compare, hna, hnb] at equal
  · rw [null ha hna, null hb hnb]

namespace Bucket

/-- Whether the ends of a bucket are of a type, and there is room between them. -/
structure Sound (τ : DataType) (b : Bucket K) : Prop where
  lower : b.lower.HasType τ
  upper : b.upper.HasType τ
  nonempty : b.range.isEmpty = false

/-- Whether a bucket ends before another one begins. -/
def Ahead (b c : Bucket K) : Prop :=
  b.upper.compare c.lower = .lt ∨ b.upper.compare c.lower = .eq ∧
    ¬(b.upperClosed = true ∧ c.lowerClosed = true)

/-- Whether a bucket begins no later than another one. -/
def StartsBy (b c : Bucket K) : Prop :=
  b.lower.compare c.lower = .lt ∨ b.lower.compare c.lower = .eq ∧
    (c.lowerClosed = true → b.lowerClosed = true)

/-- Whether buckets are in order and disjoint, and none is empty. -/
structure Arranged (τ : DataType) (bs : List (Bucket K)) : Prop where
  sound : ∀ b ∈ bs, b.Sound τ
  ahead : bs.Pairwise Ahead

/-- Whether a datum is in one of some buckets. -/
def covers (bs : List (Bucket K)) (v : Datum) : Bool :=
  bs.any fun b => b.range.contains v

variable {b c d : Bucket K} {v : Datum}

/-! ### Places -/

/-- Whether a bucket ends before another one begins, by the places of their ends. -/
theorem ahead_iff (hb : b.upper.HasType τ) (hc : c.lower.HasType τ) :
    b.Ahead c ↔ τ.scale.place b.upper < τ.scale.place c.lower ∨
      τ.scale.place b.upper = τ.scale.place c.lower ∧
        ¬(b.upperClosed = true ∧ c.lowerClosed = true) := by
  rw [Ahead, τ.scale.compare_eq_lt hb hc, τ.scale.compare_eq_eq hb hc]

/-- Whether a bucket begins no later than another one, by the places of their ends. -/
theorem startsBy_iff (hb : b.lower.HasType τ) (hc : c.lower.HasType τ) :
    b.StartsBy c ↔ τ.scale.place b.lower < τ.scale.place c.lower ∨
      τ.scale.place b.lower = τ.scale.place c.lower ∧
        (c.lowerClosed = true → b.lowerClosed = true) := by
  rw [StartsBy, τ.scale.compare_eq_lt hb hc, τ.scale.compare_eq_eq hb hc]

/-- A bucket is not empty if its ends are in order, or equal and both part of it. -/
theorem isEmpty_range_iff (hb : b.lower.HasType τ) (hb' : b.upper.HasType τ) :
    b.range.isEmpty = false ↔ τ.scale.place b.lower < τ.scale.place b.upper ∨
      τ.scale.place b.lower = τ.scale.place b.upper ∧ b.lowerClosed = true ∧
        b.upperClosed = true := by
  have order := τ.scale.compares hb hb'
  obtain ⟨lower, upper, lowerClosed, upperClosed, frequency, distinct⟩ := b
  cases lowerClosed <;> cases upperClosed <;>
    simp only [range, Range.isEmpty, Bound.value?, Bound.isIncluded, if_true, if_false,
      Bool.false_eq_true] <;>
    cases h : lower.compare upper <;> simp only [h, Ordering.Compares] at order <;> grind

/-- The range of a bucket has the type of its ends. -/
theorem hasType_range (hb : b.lower.HasType τ) (hb' : b.upper.HasType τ) :
    b.range.HasType τ := by
  constructor <;> simp only [range] <;> split <;> simpa

/-- What a bucket contains, by the places of its ends. -/
theorem contains_range_iff (hb : b.lower.HasType τ) (hb' : b.upper.HasType τ)
    (hv : v.HasType τ) :
    b.range.contains v = true ↔
      (τ.scale.place b.lower < τ.scale.place v ∨
        τ.scale.place b.lower = τ.scale.place v ∧ b.lowerClosed = true) ∧
      (τ.scale.place v < τ.scale.place b.upper ∨
        τ.scale.place v = τ.scale.place b.upper ∧ b.upperClosed = true) := by
  rw [Range.contains_iff τ.scale (hasType_range hb hb') hv]
  obtain ⟨lower, upper, lowerClosed, upperClosed, frequency, distinct⟩ := b
  cases lowerClosed <;> cases upperClosed <;>
    simp only [range, Bound.Before, Bound.After, if_true, if_false,
      Bool.false_eq_true] <;> grind

/-- A bucket that ends before another one begins, begins before it. -/
theorem Ahead.startsBy (hb : b.Sound τ) (hc : c.Sound τ) (h : b.Ahead c) : b.StartsBy c := by
  have nonempty := (isEmpty_range_iff hb.lower hb.upper).1 hb.nonempty
  rw [ahead_iff hb.upper hc.lower] at h
  rw [startsBy_iff hb.lower hc.lower]
  grind

/-- What ends before a bucket begins ends before later buckets begin. -/
theorem Ahead.of_startsBy (hb : b.Sound τ) (hc : c.Sound τ) (hd : d.Sound τ) (h : b.Ahead c)
    (h' : c.StartsBy d) : b.Ahead d := by
  rw [ahead_iff hb.upper hc.lower] at h
  rw [startsBy_iff hc.lower hd.lower] at h'
  rw [ahead_iff hb.upper hd.lower]
  grind

/-- Beginning no later is transitive. -/
theorem StartsBy.trans (hb : b.Sound τ) (hc : c.Sound τ) (hd : d.Sound τ) (h : b.StartsBy c)
    (h' : c.StartsBy d) : b.StartsBy d := by
  rw [startsBy_iff hb.lower hc.lower] at h
  rw [startsBy_iff hc.lower hd.lower] at h'
  rw [startsBy_iff hb.lower hd.lower]
  grind

/-- A bucket begins no later than itself. -/
theorem StartsBy.refl (hb : b.Sound τ) : b.StartsBy b :=
  (startsBy_iff hb.lower hb.lower).2 (.inr ⟨rfl, id⟩)

/-! ### Overlaps -/

/-- The later of the lower ends of two buckets that rise is that of the second
one, if not by name. -/
theorem exists_laterStart (hb : b.Sound τ) (hc : c.Sound τ) (order : b.StartsBy c) :
    ∃ v, Datum.HasType τ v ∧ τ.scale.place v = τ.scale.place c.lower ∧
      (if b.range.start.compareStart c.range.start == .lt then c.range.start
        else b.range.start) =
        if c.lowerClosed then .included v else .excluded v := by
  by_cases earlier : (b.range.start.compareStart c.range.start == .lt) = true
  · exact ⟨c.lower, hc.lower, rfl, if_pos earlier⟩
  · have same : τ.scale.place b.lower = τ.scale.place c.lower ∧
        b.lowerClosed = c.lowerClosed := by
      have lt := τ.scale.compare_eq_lt hb.lower hc.lower
      have eq := τ.scale.compare_eq_eq hb.lower hc.lower
      rw [startsBy_iff hb.lower hc.lower] at order
      cases hbc : b.lowerClosed <;> cases hcc : c.lowerClosed <;>
        simp only [range, hbc, hcc, if_true, if_false, Bool.false_eq_true,
          Bound.compareStart, beq_iff_eq, Ordering.then_eq_lt] at earlier <;> grind
    refine ⟨b.lower, hb.lower, same.1, ?_⟩
    rw [if_neg earlier, ← same.2]
    rfl

/-- Whether a bucket ends behind another one. -/
theorem compareEnd_range_iff (hb : b.Sound τ) (hc : c.Sound τ) :
    (b.range.stop.compareEnd c.range.stop == .gt) = true ↔
      τ.scale.place c.upper < τ.scale.place b.upper ∨
        τ.scale.place b.upper = τ.scale.place c.upper ∧ b.upperClosed = true ∧
          c.upperClosed = false := by
  have gt := τ.scale.compare_eq_gt hb.upper hc.upper
  have eq := τ.scale.compare_eq_eq hb.upper hc.upper
  cases hbc : b.upperClosed <;> cases hcc : c.upperClosed <;>
    simp only [range, hbc, hcc, if_true, if_false, Bool.false_eq_true,
      Bound.compareEnd, beq_iff_eq, Ordering.then_eq_gt] <;> grind

/-- Buckets that rise overlap unless the first one ends before the second one begins. -/
theorem intersect?_range_eq_none (hb : b.Sound τ) (hc : c.Sound τ) (order : b.StartsBy c) :
    b.range.intersect? c.range = none ↔ b.Ahead c := by
  obtain ⟨v, typed, place, start⟩ := exists_laterStart hb hc order
  have nonempty := (isEmpty_range_iff hc.lower hc.upper).1 hc.nonempty
  have further := compareEnd_range_iff hb hc
  have nothing (r : Range) : (if r.isEmpty then none else some r) = none ↔
      ¬r.isEmpty = false := by
    cases r.isEmpty <;> simp
  unfold Range.intersect?
  rw [start, ahead_iff hb.upper hc.lower]
  dsimp only
  by_cases behind : (b.range.stop.compareEnd c.range.stop == .gt) = true
  · have inside := isEmpty_range_iff (b := { c with lower := v }) typed hc.upper
    rw [if_pos behind]
    refine (nothing _).trans ((not_congr inside).trans ?_)
    rw [place]
    grind
  · have inside := isEmpty_range_iff
      (b := { c with lower := v, upper := b.upper, upperClosed := b.upperClosed }) typed
      hb.upper
    rw [if_neg behind]
    refine (nothing _).trans ((not_congr inside).trans ?_)
    rw [place]
    grind

end Bucket

namespace Histogram

open Bucket

variable [Quantity K] {b c : Bucket K} {bs : List (Bucket K)}

/-! ### Merging -/

/-- Two buckets that rise and overlap are merged to one that begins where the first one does
and contains what both contain. -/
theorem mergeBuckets_spec (hb : b.Sound τ) (hc : c.Sound τ) (order : b.StartsBy c)
    (overlap : ¬b.Ahead c) (shared : Range) :
    (mergeBuckets b c shared).Sound τ ∧
    (∀ d : Bucket K, (mergeBuckets b c shared).StartsBy d ↔ b.StartsBy d) ∧
      ∀ v : Datum, v.HasType τ →
        (mergeBuckets b c shared).range.contains v =
          (b.range.contains v || c.range.contains v) := by
  have nonempty := (isEmpty_range_iff hb.lower hb.upper).1 hb.nonempty
  have order' := (startsBy_iff hb.lower hc.lower).1 order
  rw [ahead_iff hb.upper hc.lower] at overlap
  have further :
    (c.upper.compare b.upper == .gt ||
      (c.upper == b.upper && c.upperClosed && !b.upperClosed)) = true ↔
        τ.scale.place b.upper < τ.scale.place c.upper ∨
        τ.scale.place c.upper = τ.scale.place b.upper ∧ c.upperClosed = true ∧
        b.upperClosed = false := by
    have same : c.upper = b.upper ↔ τ.scale.place c.upper = τ.scale.place b.upper :=
      ⟨fun eq => by rw [eq], Datum.eq_of_place_eq hc.upper hb.upper⟩
    simp only [Bool.or_eq_true, Bool.and_eq_true, beq_iff_eq, Bool.not_eq_true',
      same, and_assoc, τ.scale.compare_eq_gt hc.upper hb.upper]
  have upper : (τ.scale.place b.upper < τ.scale.place c.upper ∨
        τ.scale.place c.upper = τ.scale.place b.upper ∧ c.upperClosed = true ∧
        b.upperClosed = false) ∧
        (mergeBuckets b c shared).upper = c.upper ∧
        (mergeBuckets b c shared).upperClosed = c.upperClosed ∨
      ¬(τ.scale.place b.upper < τ.scale.place c.upper ∨
        τ.scale.place c.upper = τ.scale.place b.upper ∧ c.upperClosed = true ∧
        b.upperClosed = false) ∧
        (mergeBuckets b c shared).upper = b.upper ∧ (mergeBuckets b c shared).upperClosed =
        b.upperClosed := by
    rw [← further]
    unfold mergeBuckets
    dsimp only
    split <;> simp_all
  have typed : (mergeBuckets b c shared).upper.HasType τ := by
    rcases upper with ⟨-, upper, -⟩ | ⟨-, upper, -⟩ <;> rw [upper]
    · exact hc.upper
    · exact hb.upper
  have lower : (mergeBuckets b c shared).lower = b.lower := rfl
  have lowerClosed : (mergeBuckets b c shared).lowerClosed = b.lowerClosed := rfl
  refine ⟨⟨hb.lower, typed, ?_⟩, fun d => Iff.rfl, fun v hv => ?_⟩
  · rw [isEmpty_range_iff (b := mergeBuckets b c shared) hb.lower typed, lower, lowerClosed]
    grind
  · rw [Bool.eq_iff_iff, Bool.or_eq_true,
      contains_range_iff (b := mergeBuckets b c shared) hb.lower typed hv,
      contains_range_iff hb.lower hb.upper hv, contains_range_iff hc.lower hc.upper hv,
      lower, lowerClosed]
    grind

/-- Merging leaves buckets that rise in order and disjoint, and loses and adds no value. -/
theorem mergeFrom_spec (hb : b.Sound τ) (hbs : ∀ c ∈ bs, c.Sound τ)
    (rising : (b :: bs).Pairwise StartsBy) :
    (∀ c ∈ mergeFrom b bs, c.Sound τ ∧ b.StartsBy c) ∧ (mergeFrom b bs).Pairwise Ahead ∧
      ∀ v : Datum, v.HasType τ → covers (mergeFrom b bs) v = covers (b :: bs) v := by
  induction bs generalizing b with
  | nil =>
    simp only [mergeFrom, List.mem_singleton, forall_eq]
    exact ⟨⟨hb, .refl hb⟩, List.pairwise_singleton _ _, fun _ _ => trivial⟩
  | cons c bs ih =>
    obtain ⟨hc, hbs⟩ := List.forall_mem_cons.1 hbs
    obtain ⟨first, rest⟩ := List.pairwise_cons.1 rising
    obtain ⟨next, later⟩ := List.forall_mem_cons.1 first
    unfold mergeFrom
    split
    · rename_i shared overlap
      have behind : ¬b.Ahead c := fun ahead => by
        rw [(intersect?_range_eq_none hb hc next).2 ahead] at overlap
        cases overlap
      obtain ⟨sound, starts, contents⟩ := mergeBuckets_spec hb hc next behind shared
      obtain ⟨members, ahead, same⟩ := ih sound hbs
        (List.pairwise_cons.2
          ⟨fun d hd => (starts d).2 (later d hd), (List.pairwise_cons.1 rest).2⟩)
      refine ⟨fun d hd => ⟨(members d hd).1, (starts d).1 (members d hd).2⟩,
        ahead, fun v hv => ?_⟩
      rw [same v hv]
      simp only [covers, List.any_cons, contents v hv, Bool.or_assoc]
    · rename_i gap
      have behind := (intersect?_range_eq_none hb hc next).1 gap
      obtain ⟨members, ahead, same⟩ := ih hc hbs rest
      refine ⟨List.forall_mem_cons.2 ⟨⟨hb, .refl hb⟩, fun d hd => ?_⟩,
        List.pairwise_cons.2 ⟨fun d hd => ?_, ahead⟩, fun v hv => ?_⟩
      · exact ⟨(members d hd).1, next.trans hb hc (members d hd).1 (members d hd).2⟩
      · exact behind.of_startsBy hb hc (members d hd).1 (members d hd).2
      · have := same v hv
        simp only [covers, List.any_cons] at this ⊢
        rw [this]

/-- Merging buckets that rise. -/
theorem arranged_merge (sound : ∀ b ∈ bs, b.Sound τ) (rising : bs.Pairwise StartsBy) :
    Arranged τ (merge bs) ∧ ∀ v : Datum, v.HasType τ → covers (merge bs) v = covers bs v := by
  cases bs with
  | nil => exact ⟨⟨sound, .nil⟩, fun _ _ => rfl⟩
  | cons b bs =>
    obtain ⟨hb, hbs⟩ := List.forall_mem_cons.1 sound
    obtain ⟨members, ahead, same⟩ := mergeFrom_spec hb hbs rising
    exact ⟨⟨fun c hc => (members c hc).1, ahead⟩, same⟩

/-! ### Sorting -/

omit [Quantity K] in
/-- Sorting by lower ends makes buckets rise, if of those that begin at one value the ones that
contain it come first. -/
theorem startsBy_sort (sound : ∀ b ∈ bs, b.Sound τ)
    (closedFirst : bs.Pairwise fun b c =>
      b.lower.compare c.lower = .eq → c.lowerClosed = true → b.lowerClosed = true) :
    (Sorting.sort (fun b c => b.lower.compare c.lower == .lt) bs).Pairwise StartsBy := by
  have less {b c : Bucket K} (hb : b.Sound τ) (hc : c.Sound τ) :
      (b.lower.compare c.lower == .lt) = true ↔
      τ.scale.place b.lower < τ.scale.place c.lower := by
    rw [beq_iff_eq, τ.scale.compare_eq_lt hb.lower hc.lower]
  have notLess {b c : Bucket K} (hb : b.Sound τ) (hc : c.Sound τ) :
      (b.lower.compare c.lower == .lt) = false ↔
      τ.scale.place c.lower ≤ τ.scale.place b.lower := by
    rw [Bool.eq_false_iff, ne_eq, less hb hc, not_lt]
  have sorted := Sorting.sort_pairwise (P := Bucket.Sound τ)
    (fun b c hb hc below => (notLess hc hb).2 ((less hb hc).1 below).le)
    (fun b c d hb hc hd notBelow notBelow' =>
      (notLess hb hd).2 (le_trans ((notLess hc hd).1 notBelow') ((notLess hb hc).1 notBelow)))
        sound
  refine List.Pairwise.imp_of_mem (fun {b c} hb hc both => ?_)
    (sorted.and (Sorting.sort_stable closedFirst))
  have hb := sound b ((Sorting.sort_perm _ _).mem_iff.1 hb)
  have hc := sound c ((Sorting.sort_perm _ _).mem_iff.1 hc)
  obtain ⟨notAbove, below | tie⟩ := both
  · exact .inl (beq_iff_eq.1 below)
  · rcases lt_or_eq_of_le ((notLess hc hb).1 notAbove) with below | equal
    · exact .inl ((τ.scale.compare_eq_lt hb.lower hc.lower).2 below)
    · have equal := (τ.scale.compare_eq_eq hb.lower hc.lower).2 equal
      exact .inr ⟨equal, tie equal⟩

/-! ### Concatenation -/

omit [Quantity K] in
/-- Frequencies do not matter to where buckets lie. -/
theorem arranged_map (f : Bucket K → K) (arranged : Arranged τ bs) :
    Arranged τ (bs.map fun b => { b with frequency := f b }) where
  sound b hb := by
    obtain ⟨c, hc, rfl⟩ := List.mem_map.1 hb
    exact ⟨(arranged.sound c hc).lower, (arranged.sound c hc).upper,
      (arranged.sound c hc).nonempty⟩
  ahead := List.pairwise_map.2 arranged.ahead

omit [Quantity K] in
/-- Frequencies do not count for which values buckets cover. -/
theorem covers_map (f : Bucket K → K) (bs : List (Bucket K)) (v : Datum) :
    covers (bs.map fun b => { b with frequency := f b }) v = covers bs v := by
  rw [covers, List.any_map]
  rfl

/-- Buckets stay arranged when their frequencies are made to add up. -/
theorem arranged_normalize {h : Histogram K} (arranged : Arranged τ h.buckets) :
    Arranged τ h.normalize.buckets := by
  unfold normalize
  dsimp only
  split
  · exact arranged_map _ arranged
  · exact arranged

/-- Buckets cover the same values when their frequencies are made to add up. -/
theorem covers_normalize (h : Histogram K) (v : Datum) :
    covers h.normalize.buckets v = covers h.buckets v := by
  unfold normalize
  dsimp only
  split
  · exact covers_map _ _ v
  · rfl

/-- The concatenation of two arranged histograms is arranged and contains the values of both,
if no bucket of the first one begins behind a value at which one of the second begins. -/
theorem unionAll_covers {h g : Histogram K} {rows otherRows : K} (hh : Arranged τ h.buckets)
    (hg : Arranged τ g.buckets) (known : h.wellDefined = true) (known' : g.wellDefined = true)
    (some : ¬rows + otherRows ≤ Estimate.epsilon)
    (closedFirst : ∀ b ∈ h.buckets, ∀ c ∈ g.buckets,
      b.lower.compare c.lower = .eq → c.lowerClosed = true → b.lowerClosed = true) :
    Arranged τ (h.unionAll rows g otherRows).buckets ∧ ∀ v : Datum, v.HasType τ →
      covers (h.unionAll rows g otherRows).buckets v =
        (covers h.buckets v || covers g.buckets v) := by
  have scaledH : Arranged τ (h.buckets.map (·.scale rows)) := arranged_map _ hh
  have scaledG : Arranged τ (g.buckets.map (·.scale otherRows)) := arranged_map _ hg
  have sound :
      ∀ b ∈ h.buckets.map (·.scale rows) ++ g.buckets.map (·.scale otherRows), b.Sound τ :=
    fun b hb => (List.mem_append.1 hb).elim (scaledH.sound b) (scaledG.sound b)
  have inOrder {bs : List (Bucket K)} (arranged : Arranged τ bs) : bs.Pairwise fun b c =>
      b.lower.compare c.lower = .eq → c.lowerClosed = true → b.lowerClosed = true :=
    arranged.ahead.imp_of_mem fun {b c} hb hc ahead equal => by
      rcases ahead.startsBy (arranged.sound b hb) (arranged.sound c hc) with below | ⟨-, tie⟩
      · rw [equal] at below
        cases below
      · exact tie
  have rising := startsBy_sort sound (List.pairwise_append.2 ⟨inOrder scaledH, inOrder scaledG,
    List.forall_mem_map.2 fun b hb => List.forall_mem_map.2 fun c hc => closedFirst b hb c hc⟩)
  have perm := Sorting.sort_perm (fun b c : Bucket K => b.lower.compare c.lower == .lt)
    (h.buckets.map (·.scale rows) ++ g.buckets.map (·.scale otherRows))
  obtain ⟨merged, same⟩ := arranged_merge (fun b hb => sound b (perm.mem_iff.1 hb)) rising
  unfold unionAll
  rw [known, known']
  simp only [Bool.not_true, Bool.and_self, Bool.false_eq_true, if_false, if_neg some]
  refine ⟨arranged_normalize merged, fun v hv => ?_⟩
  rw [covers_normalize, same v hv]
  calc
    covers (Sorting.sort _
        (h.buckets.map (·.scale rows) ++ g.buckets.map (·.scale otherRows))) v
    _ = covers (h.buckets.map (·.scale rows) ++ g.buckets.map (·.scale otherRows)) v := by
      rw [covers, covers, perm.any_eq]
    _ = (covers (h.buckets.map (·.scale rows)) v ||
          covers (g.buckets.map (·.scale otherRows)) v) := List.any_append
    _ = (covers h.buckets v || covers g.buckets v) :=
      congrArg₂ _ (covers_map _ _ v) (covers_map _ _ v)

/-- The numbers above 0 up to 10 and those from 0 to 5 make up a bucket without 0. -/
theorem unionAll_loses :
    ∃ b c : Bucket ℝ, Arranged (.integer .int64) [b] ∧ Arranged (.integer .int64) [c] ∧
    covers [c] (.integer .int64 0) = true ∧
    covers (unionAll ⟨[b], 0, 0, 0, true, false⟩ 10 ⟨[c], 0, 0, 0, true, false⟩ 10).buckets
      (.integer .int64 0) = false := by
  refine ⟨⟨.integer .int64 0, .integer .int64 10, false, true, 1, 10⟩,
    ⟨.integer .int64 0, .integer .int64 5, true, true, 1, 6⟩,
    ⟨List.forall_mem_singleton.2 ⟨rfl, rfl, rfl⟩, List.pairwise_singleton _ _⟩,
    ⟨List.forall_mem_singleton.2 ⟨rfl, rfl, rfl⟩, List.pairwise_singleton _ _⟩, rfl, ?_⟩
  have some : ¬(10 + 10 : ℝ) ≤ Estimate.epsilon := by
    rw [Estimate.epsilon_eq]
    norm_num
  unfold unionAll
  simp only [Bool.not_true, Bool.and_self, Bool.false_eq_true, if_false, if_neg some]
  rw [covers_normalize]
  rfl

end Histogram

end QueryOptimizer
