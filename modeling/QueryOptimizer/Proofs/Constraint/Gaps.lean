import QueryOptimizer.Proofs.Constraint.Arranged

/-!
# Gaps between ranges

The complement of ranges in canonical form consists of the gaps between them. These are in
canonical form as they are, since a range that is not empty keeps the gaps around it apart, and
ranges that do not touch leave something between them. The gaps between the gaps are the ranges
again, so an interval is the complement of its complement, to the letter. With intersection and
union, intervals on one column form a Boolean algebra.

## Main results

* `Range.tidy_of_arranged`, `Range.arranged_of_tidy`: arranged ranges are those that are not
  empty, rise strictly, and of which none touches any other.
* `Range.gapsFrom_gapsFrom`, `Interval.complement_complement`: complementing
  twice changes nothing.
* `Interval.boolean_algebra`: the operations on intervals are those on the
  values that are admitted.
-/

namespace QueryOptimizer

namespace Bound

variable {b : Bound}

@[simp] theorem flip_flip (b : Bound) : b.flip.flip = b := by
  cases b <;> rfl

@[simp] theorem value?_flip (b : Bound) : b.flip.value? = b.value? := by
  cases b <;> rfl

@[simp] theorem isUnbounded_flip (b : Bound) : b.flip.isUnbounded = b.isUnbounded := by
  cases b <;> rfl

/-- The end of a gap contains its value if the end of the range does not. -/
theorem isIncluded_flip {v : Datum} (value : v ∈ b.value?) :
    b.flip.isIncluded = !b.isIncluded := by
  cases b with
  | unbounded => cases value
  | included | excluded => rfl

/-- There is one unbounded end. -/
theorem eq_unbounded (h : b.isUnbounded = true) : b = .unbounded := by
  cases b with
  | unbounded => rfl
  | included | excluded => cases h

/-- An end that is not open has a value. -/
theorem exists_value (h : b.isUnbounded = false) : ∃ v, v ∈ b.value? := by
  cases b with
  | unbounded => cases h
  | included v | excluded v => exact ⟨v, rfl⟩

/-- An end with a value is not open. -/
theorem isUnbounded_of_value {v : Datum} (value : v ∈ b.value?) : b.isUnbounded = false := by
  cases b with
  | unbounded => cases value
  | included | excluded => rfl

end Bound

namespace Range

variable {τ : DataType} {r t u : Range} {rs : List Range}

/-! ### Ranges that lie apart -/

/-- Whether one range lies before another and does not touch it: it stops at a smaller value
than the other one starts at, or at the same value, which neither of them contains. -/
def Precedes (r t : Range) : Prop :=
  ∃ a ∈ r.stop.value?, ∃ b ∈ t.start.value?,
    a.compare b = .lt ∨ a.compare b = .eq ∧ r.stop.isIncluded = false ∧
    t.start.isIncluded = false

/-- Whether ranges are not empty, rise strictly, and neither overlap nor touch,
any two of them. -/
structure Tidy (rs : List Range) : Prop where
  nonempty : ∀ r ∈ rs, r.isEmpty = false
  apart : rs.Pairwise fun r t => r.startsBefore t = true ∧ r.Precedes t

/-- Two ranges that rise do not touch just when the first lies before the second. -/
theorem touches_eq_false_iff (hr : r.HasType τ) (ht : t.HasType τ) :
    r.touches t = false ↔ r.Precedes t := by
  unfold touches Precedes
  cases hstop : r.stop.value? with
  | none => simp
  | some a =>
    cases hstart : t.start.value? with
    | none => simp
    | some b =>
      have order := τ.scale.compares (ht.start b hstart) (hr.stop a hstop)
      have lt := τ.scale.compare_eq_lt (hr.stop a hstop) (ht.start b hstart)
      have eq := τ.scale.compare_eq_eq (hr.stop a hstop) (ht.start b hstart)
      simp only [Option.mem_some_iff, exists_eq_left', lt, eq]
      cases h : b.compare a <;> simp only [h, Ordering.Compares] at order <;> grind

/-- Lying before is transitive if the range in the middle is not empty. -/
theorem Precedes.trans (hr : r.HasType τ) (ht : t.HasType τ) (hu : u.HasType τ)
    (nonempty : t.isEmpty = false) (h : r.Precedes t) (h' : t.Precedes u) : r.Precedes u := by
  obtain ⟨a, ha, b, hb, before⟩ := h
  obtain ⟨c, hc, d, hd, before'⟩ := h'
  have between := (isEmpty_eq_false_iff τ.scale ht).1 nonempty b hb c hc
  rw [τ.scale.compare_eq_lt (hr.stop a ha) (ht.start b hb),
    τ.scale.compare_eq_eq (hr.stop a ha) (ht.start b hb)] at before
  rw [τ.scale.compare_eq_lt (ht.stop c hc) (hu.start d hd),
    τ.scale.compare_eq_eq (ht.stop c hc) (hu.start d hd)] at before'
  refine ⟨a, ha, d, hd, .inl ?_⟩
  rw [τ.scale.compare_eq_lt (hr.stop a ha) (hu.start d hd)]
  grind

/-- A range that lies before another one starts before it. -/
theorem Precedes.startsBefore (hr : r.HasType τ) (ht : t.HasType τ)
    (nonempty : r.isEmpty = false) (h : r.Precedes t) : r.startsBefore t = true := by
  obtain ⟨a, ha, b, hb, before⟩ := h
  rw [τ.scale.compare_eq_lt (hr.stop a ha) (ht.start b hb),
    τ.scale.compare_eq_eq (hr.stop a ha) (ht.start b hb)] at before
  have inside := (isEmpty_eq_false_iff τ.scale hr).1 nonempty
  rw [startsBefore_iff τ.scale hr ht]
  cases hs : r.start with
  | unbounded => cases hb' : t.start <;> simp_all [Bound.value?]
  | included v | excluded v =>
    have inside := inside v (by rw [hs]; rfl) a ha
    cases hb' : t.start <;> simp_all [Bound.value?, Bound.isIncluded] <;> grind

/-- Ranges each of which lies before the next one lie one before the other, any two of them. -/
theorem pairwise_precedes (typed : ∀ r ∈ rs, r.HasType τ)
    (nonempty : ∀ r ∈ rs, r.isEmpty = false) (chain : rs.IsChain Precedes) :
    rs.Pairwise Precedes := by
  induction rs with
  | nil => exact .nil
  | cons r rs ih =>
    obtain ⟨hr, hrs⟩ := List.forall_mem_cons.1 typed
    obtain ⟨-, someRest⟩ := List.forall_mem_cons.1 nonempty
    have rest := ih hrs someRest chain.tail
    cases rs with
    | nil => exact List.pairwise_singleton _ _
    | cons t ts =>
      have next : r.Precedes t := (List.isChain_cons_cons.1 chain).1
      refine List.pairwise_cons.2 ⟨List.forall_mem_cons.2 ⟨next, fun u hu => ?_⟩, rest⟩
      exact next.trans hr (hrs t (by simp)) (hrs u (List.mem_cons_of_mem _ hu))
        (someRest t (by simp)) ((List.pairwise_cons.1 rest).1 u hu)

/-- Ranges are tidy if none is empty and each one lies before the next one. -/
theorem tidy_of_chain (typed : ∀ r ∈ rs, r.HasType τ) (nonempty : ∀ r ∈ rs, r.isEmpty = false)
    (chain : rs.IsChain Precedes) : Tidy rs where
  nonempty := nonempty
  apart := (pairwise_precedes typed nonempty chain).imp_of_mem fun hr ht precedes =>
    ⟨precedes.startsBefore (typed _ hr) (typed _ ht) (nonempty _ hr), precedes⟩

/-- Arranged ranges lie before one another in turn. -/
theorem Arranged.chain (h : Arranged rs) (typed : ∀ r ∈ rs, r.HasType τ) :
    rs.IsChain Precedes :=
  h.gaps.imp_of_mem_imp fun r t hr ht => (touches_eq_false_iff (typed r hr) (typed t ht)).1

/-- Arranged ranges are tidy. -/
theorem tidy_of_arranged (typed : ∀ r ∈ rs, r.HasType τ) (h : Arranged rs) : Tidy rs :=
  tidy_of_chain typed h.nonempty (h.chain typed)

/-- Tidy ranges are arranged. -/
theorem arranged_of_tidy (typed : ∀ r ∈ rs, r.HasType τ) (h : Tidy rs) : Arranged rs where
  nonempty := h.nonempty
  rising :=
    h.apart.imp_of_mem fun hr ht apart => startsBefore_asymm (typed _ hr) (typed _ ht) apart.1
  gaps := (h.apart.imp_of_mem fun hr ht apart =>
    (touches_eq_false_iff (typed _ hr) (typed _ ht)).2 apart.2).isChain

/-! ### Gaps are arranged -/

/-- There is no gap before a range that is open below. -/
theorem gapsFrom_of_unbounded (open_ : r.start.isUnbounded = true) (lower : Bound) :
    gapsFrom lower (r :: rs) = gapsAfter r rs := by
  simp [gapsFrom_cons, gapBefore, open_]

/-- The first gap lies before the first range if that has a lower end. -/
theorem gapsFrom_of_bounded (bounded : r.start.isUnbounded = false) (lower : Bound) :
    gapsFrom lower (r :: rs) = ⟨lower, r.start.flip⟩ :: gapsAfter r rs := by
  simp [gapsFrom_cons, gapBefore, bounded]

/-- A gap lies between each range and the next one. -/
theorem gapsAfter_cons (stop : r.stop.isUnbounded = false)
    (start : t.start.isUnbounded = false) :
    gapsAfter r (t :: rs) = ⟨r.stop.flip, t.start.flip⟩ :: gapsAfter t rs := by
  rw [gapsAfter, stop, if_neg Bool.false_ne_true, gapsFrom_of_bounded start]

/-- Ranges that do not touch have a gap between them. -/
theorem isEmpty_gap (h : r.Precedes t) : isEmpty ⟨r.stop.flip, t.start.flip⟩ = false := by
  obtain ⟨a, ha, b, hb, before⟩ := h
  have start : r.stop.flip.value? = some a := (Bound.value?_flip _).trans ha
  have stop : t.start.flip.value? = some b := (Bound.value?_flip _).trans hb
  rw [isEmpty, start, stop]
  obtain before | ⟨same, out, out'⟩ := before
  · simp [before]
  · simp [same, Bound.isIncluded_flip ha, Bound.isIncluded_flip hb, out, out']

/-- A range that is not empty keeps the gaps around it apart. -/
theorem precedes_gaps (nonempty : r.isEmpty = false) {a b : Datum} (ha : a ∈ r.start.value?)
    (hb : b ∈ r.stop.value?) (stop : t.stop = r.start.flip) (start : u.start = r.stop.flip) :
    t.Precedes u := by
  refine ⟨a, by rw [stop, Bound.value?_flip]; exact ha,
    b, by rw [start, Bound.value?_flip]; exact hb, ?_⟩
  rw [stop, start, Bound.isIncluded_flip ha, Bound.isIncluded_flip hb]
  rw [isEmpty, Option.mem_def.1 ha, Option.mem_def.1 hb] at nonempty
  cases order : a.compare b <;> simp_all

/-- The gaps behind a range that lies before others are not empty, rise, and do not touch; the
first of them starts where the range stops. -/
theorem gapsAfter_spec (chain : (r :: rs).IsChain Precedes)
    (nonempty : ∀ t ∈ rs, t.isEmpty = false) :
    (∀ g ∈ gapsAfter r rs, g.isEmpty = false) ∧ (gapsAfter r rs).IsChain Precedes ∧
      ∀ g ∈ (gapsAfter r rs).head?, g.start = r.stop.flip ∧ r.stop.isUnbounded = false := by
  induction rs generalizing r with
  | nil =>
    cases stop : r.stop.isUnbounded with
    | true => simp [gapsAfter, stop]
    | false => simp [gapsAfter, stop, gapsFrom, isEmpty_above]
  | cons t rs ih =>
    obtain ⟨next, chain⟩ := List.isChain_cons_cons.1 chain
    obtain ⟨someNext, someRest⟩ := List.forall_mem_cons.1 nonempty
    obtain ⟨nonemptyGaps, apart, first⟩ := ih chain someRest
    have gap := isEmpty_gap next
    obtain ⟨a, ha, b, hb, -⟩ := next
    have bounded := Bound.isUnbounded_of_value ha
    rw [gapsAfter_cons bounded (Bound.isUnbounded_of_value hb)]
    refine ⟨List.forall_mem_cons.2 ⟨gap, nonemptyGaps⟩,
      List.isChain_cons.2 ⟨fun g hg => ?_, apart⟩, ?_⟩
    · obtain ⟨start, bounded⟩ := first g hg
      obtain ⟨c, hc⟩ := Bound.exists_value bounded
      exact precedes_gaps someNext hb hc rfl start
    · rintro g ⟨⟩
      exact ⟨rfl, bounded⟩

/-- The gaps between ranges in canonical form are arranged as they are found. -/
theorem arranged_gapsFrom (s : Scale τ) (typed : ∀ r ∈ rs, r.HasType τ)
    (canonical : Canonical s rs) (h : Arranged rs) : Arranged (gapsFrom .unbounded rs) := by
  have typedGaps :=
    (gapsFrom_spec Bound.hasType_unbounded typed canonical fun _ _ _ before => before.elim).1
  suffices spec : (∀ g ∈ gapsFrom .unbounded rs, g.isEmpty = false) ∧
      (gapsFrom .unbounded rs).IsChain Precedes from
    arranged_of_tidy typedGaps (tidy_of_chain typedGaps spec.1 spec.2)
  have chain := h.chain typed
  cases rs with
  | nil => exact ⟨List.forall_mem_singleton.2 (isEmpty_above _), .singleton _⟩
  | cons r rs =>
    obtain ⟨someFirst, someRest⟩ := List.forall_mem_cons.1 h.nonempty
    obtain ⟨nonempty, apart, first⟩ := gapsAfter_spec chain someRest
    cases open_ : r.start.isUnbounded with
    | true =>
      rw [gapsFrom_of_unbounded open_]
      exact ⟨nonempty, apart⟩
    | false =>
      obtain ⟨a, ha⟩ := Bound.exists_value open_
      rw [gapsFrom_of_bounded open_]
      refine ⟨List.forall_mem_cons.2 ⟨rfl, nonempty⟩,
        List.isChain_cons.2 ⟨fun g hg => ?_, apart⟩⟩
      obtain ⟨start, bounded⟩ := first g hg
      obtain ⟨c, hc⟩ := Bound.exists_value bounded
      exact precedes_gaps someFirst ha hc rfl start

/-- The complement of ranges in canonical form is the gaps between them. -/
theorem complement_eq_gapsFrom (s : Scale τ) (typed : ∀ r ∈ rs, r.HasType τ)
    (canonical : Canonical s rs) (h : Arranged rs) : complement rs = gapsFrom .unbounded rs :=
  normalize_of_arranged (arranged_gapsFrom s typed canonical h)

/-! ### The gaps between the gaps -/

/-- From the start of a range on, the gaps between the gaps behind it are the range and
those that follow it. -/
theorem gapsFrom_gapsAfter (chain : (r :: rs).IsChain Precedes) :
    gapsFrom r.start (gapsAfter r rs) = r :: rs := by
  induction rs generalizing r with
  | nil =>
    cases stop : r.stop.isUnbounded with
    | true =>
      have open_ := Bound.eq_unbounded stop
      rw [gapsAfter, stop, if_pos rfl, gapsFrom, ← open_]
    | false =>
      have gap : gapsAfter r [] = [⟨r.stop.flip, .unbounded⟩] := by
        simp [gapsAfter, stop, gapsFrom]
      rw [gap, gapsFrom_of_bounded (by simpa using stop), Bound.flip_flip]
      rfl
  | cons t rs ih =>
    obtain ⟨⟨a, ha, b, hb, -⟩, chain⟩ := List.isChain_cons_cons.1 chain
    have stop := Bound.isUnbounded_of_value ha
    have start := Bound.isUnbounded_of_value hb
    have again : gapsAfter ⟨r.stop.flip, t.start.flip⟩ (gapsAfter t rs) =
        gapsFrom t.start (gapsAfter t rs) := by
      simp [gapsAfter, start]
    calc gapsFrom r.start (gapsAfter r (t :: rs))
        = gapsFrom r.start (⟨r.stop.flip, t.start.flip⟩ :: gapsAfter t rs) := by
          rw [gapsAfter_cons stop start]
      _ = ⟨r.start, r.stop⟩ :: gapsFrom t.start (gapsAfter t rs) := by
          rw [gapsFrom_of_bounded (by simpa using stop), again, Bound.flip_flip]
      _ = r :: t :: rs := by rw [ih chain]

/-- The gaps between the gaps are the ranges. -/
theorem gapsFrom_gapsFrom (chain : rs.IsChain Precedes) :
    gapsFrom .unbounded (gapsFrom .unbounded rs) = rs := by
  cases rs with
  | nil => rfl
  | cons r rs =>
    have back := gapsFrom_gapsAfter chain
    cases open_ : r.start.isUnbounded with
    | true =>
      rw [gapsFrom_of_unbounded open_]
      rwa [Bound.eq_unbounded open_] at back
    | false =>
      rw [gapsFrom_of_bounded open_, gapsFrom_of_unbounded rfl, gapsAfter]
      simpa [open_] using back

end Range

/-! ### Intervals -/

namespace Interval

variable {τ : DataType} {i j : Interval}

/-- Whether the ranges of an interval are of a type and in canonical form. All
intervals are built so. -/
structure Canonical (τ : DataType) (i : Interval) : Prop where
  typed : ∀ r ∈ i.ranges, r.HasType τ
  tidy : Range.Tidy i.ranges

namespace Canonical

/-- An interval is canonical if its ranges are arranged. -/
theorem of_arranged (typed : ∀ r ∈ i.ranges, r.HasType τ)
    (arranged : Range.Arranged i.ranges) : i.Canonical τ :=
  ⟨typed, Range.tidy_of_arranged typed arranged⟩

/-- The ranges of a canonical interval are arranged. -/
theorem arranged (h : i.Canonical τ) : Range.Arranged i.ranges :=
  Range.arranged_of_tidy h.typed h.tidy

/-- A canonical interval is regular. -/
theorem regular (h : i.Canonical τ) : i.Regular τ := by
  have made := ofRanges_of_arranged i.column i.includeNull h.arranged
  have regular := (ofRanges_spec i.column i.includeNull h.typed).1
  rwa [made] at regular

/-- An interval that is built of ranges of a type. -/
theorem ofRanges (c : Column) {ranges : List Range} (includeNull : Bool)
    (typed : ∀ r ∈ ranges, r.HasType τ) : (ofRanges c ranges includeNull).Canonical τ :=
  .of_arranged (ofRanges_spec c includeNull typed).1.typed (Range.arranged_normalize typed)

end Canonical

/-- Complementing a canonical interval twice gives it back. -/
theorem complement_complement (h : i.Canonical τ) : i.complement.complement = i := by
  have once (j : Interval) (h : j.Canonical τ) :
      j.complement = ⟨j.column, Range.gapsFrom .unbounded j.ranges, !j.includeNull⟩ := by
    have gaps := Range.complement_eq_gapsFrom τ.scale h.typed h.regular.canonical h.arranged
    have arranged := Range.arranged_gapsFrom τ.scale h.typed h.regular.canonical h.arranged
    rw [complement, gaps, ofRanges_of_arranged _ _ arranged]
  have gaps := once i h
  have canonical : i.complement.Canonical τ :=
    .of_arranged (complement_spec h.regular).1.typed (arranged_complement h.regular)
  rw [once _ canonical, gaps, Range.gapsFrom_gapsFrom (h.arranged.chain h.typed), Bool.not_not]

/-- Bringing ranges into canonical form keeps what they contain, and leaves ranges that are not
empty, rise strictly, and neither overlap nor touch. Intervals, which are built of such ranges,
form a Boolean algebra: the operations on them are those on the values that they admit, null
among these, their results are in canonical form, and complementing twice gives the interval
back as it was written. -/
theorem boolean_algebra (τ : DataType) :
    (∀ ranges : List Range, (∀ r ∈ ranges, r.HasType τ) →
      (∀ r ∈ Range.normalize ranges, r.HasType τ) ∧ Range.Tidy (Range.normalize ranges) ∧
      ∀ d : Datum, d.HasType τ → Range.admitted (Range.normalize ranges) d =
        Range.admitted ranges d) ∧
    (∀ (c : Column) (ranges : List Range) (includeNull : Bool), (∀ r ∈ ranges, r.HasType τ) →
      (Interval.ofRanges c ranges includeNull).Canonical τ) ∧
    ∀ i j : Interval, i.Canonical τ → j.Canonical τ →
      ((i.intersect j).Canonical τ ∧
        ∀ v : Value, v.HasType τ → (i.intersect j).admits v = (i.admits v && j.admits v)) ∧
      ((i.union j).Canonical τ ∧ ∀ v : Value, v.HasType τ →
        (i.union j).admits v = (i.admits v || j.admits v)) ∧
      (i.complement.Canonical τ ∧ ∀ v : Value, v.HasType τ →
        i.complement.admits v = !i.admits v) ∧
      i.complement.complement = i := by
  refine ⟨fun ranges typed => ?_, fun c _ null typed => .ofRanges c null typed,
    fun i j hi hj => ⟨?_, ?_, ?_, ?_⟩⟩
  · obtain ⟨typed', -, same⟩ := Range.normalize_spec τ.scale typed
    exact ⟨typed', Range.tidy_of_arranged typed' (Range.arranged_normalize typed), same⟩
  · obtain ⟨regular, admits⟩ := intersect_spec hi.regular hj.regular
    exact ⟨.of_arranged regular.typed (arranged_intersect hi.regular hj.regular), admits⟩
  · obtain ⟨regular, admits⟩ := union_spec hi.regular hj.regular
    exact ⟨.of_arranged regular.typed (arranged_union hi.regular hj.regular), admits⟩
  · obtain ⟨regular, admits⟩ := complement_spec hi.regular
    exact ⟨.of_arranged regular.typed (arranged_complement hi.regular), admits⟩
  · exact complement_complement hi

end Interval

/-! ### An example -/

namespace Sample

def score : Column := ⟨0, .integer .int64, -1, "score", .computed⟩

/-- From three on, without five, in no order. -/
def scores : List Range :=
  [.above (.integer .int64 5) false,
    ⟨.included (.integer .int64 3), .excluded (.integer .int64 5)⟩]

end Sample

open Sample in
/-- Scores above 5, and those from 3 up to 5 without it, or null: no value is in both the
interval and its complement. -/
theorem boolean_algebra_scores :
    (∀ r ∈ scores, r.HasType (.integer .int64)) ∧
    Range.Tidy (Range.normalize scores) ∧
    (Interval.ofRanges score scores true).Canonical (.integer .int64) ∧
    (Interval.ofRanges score scores true).complement.complement =
      Interval.ofRanges score scores true ∧
    ∀ v : Value, v.HasType (.integer .int64) →
      ((Interval.ofRanges score scores true).intersect
        (Interval.ofRanges score scores true).complement).admits v =
        false := by
  have typed : ∀ r ∈ scores, r.HasType (.integer .int64) := by
    intro r hr
    simp only [scores, List.mem_cons, List.not_mem_nil, or_false] at hr
    obtain rfl | rfl := hr <;> constructor <;> simp [Range.above, Datum.HasType, Datum.type]
  obtain ⟨normal, built, algebra⟩ := Interval.boolean_algebra (.integer .int64)
  have canonical := built score scores true typed
  obtain ⟨-, -, ⟨complement, outside⟩, twice⟩ := algebra _ _ canonical canonical
  obtain ⟨⟨-, both⟩, -⟩ := algebra _ _ canonical complement
  refine ⟨typed, (normal scores typed).2.1, canonical, twice, fun v hv => ?_⟩
  rw [both v hv, outside v hv, Bool.and_not_self]

end QueryOptimizer
