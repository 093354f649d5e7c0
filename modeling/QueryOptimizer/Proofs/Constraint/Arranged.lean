import QueryOptimizer.Proofs.Constraint.Interval

/-!
# Ranges that are in canonical form already

Ranges in canonical form are none of them empty, they rise by their lower ends, and no range
touches the next one (`Range.Arranged`). This is about how ranges are written: what is brought
into canonical form is arranged, and arranged ranges are left as they are.

## Main results

* `Range.arranged_normalize`: the canonical form is arranged.
* `Range.normalize_of_arranged`: arranged ranges are their own canonical form.
-/

namespace QueryOptimizer

namespace Range

variable {τ : DataType} {r t : Range} {rs : List Range}

/-- Whether ranges are in canonical form as they are written. -/
structure Arranged (rs : List Range) : Prop where
  nonempty : ∀ r ∈ rs, r.isEmpty = false
  rising : rs.Pairwise fun r t => t.startsBefore r = false
  gaps : rs.IsChain fun r t => r.touches t = false

theorem isEmpty_above (b : Bound) : isEmpty ⟨b, .unbounded⟩ = false := by
  cases b <;> rfl

theorem isEmpty_below (b : Bound) : isEmpty ⟨.unbounded, b⟩ = false := by
  cases b <;> rfl

/-- No ranges are arranged. -/
theorem arranged_nil : Arranged [] :=
  ⟨by simp, .nil, .nil⟩

/-- A single range that is not empty. -/
theorem arranged_singleton (h : r.isEmpty = false) : Arranged [r] :=
  ⟨List.forall_mem_singleton.2 h, List.pairwise_singleton _ _, .singleton r⟩

/-- The leading ranges of arranged ones. -/
theorem Arranged.of_append {ts : List Range} (h : Arranged (rs ++ ts)) : Arranged rs where
  nonempty r hr := h.nonempty r (List.mem_append_left ts hr)
  rising := (List.pairwise_append.1 h.rising).1
  gaps := h.gaps.left_of_append

/-! ### Arranged ranges stay as they are -/

/-- Ranges with gaps between them are not merged. -/
theorem mergeFrom_of_gaps (gaps : (r :: rs).IsChain fun r t => r.touches t = false) :
    mergeFrom r rs = r :: rs := by
  induction rs generalizing r with
  | nil => rfl
  | cons t rs ih =>
    obtain ⟨first, rest⟩ := List.isChain_cons_cons.1 gaps
    rw [mergeFrom, if_neg (Bool.eq_false_iff.1 first), ih rest]

/-- Arranged ranges are their own canonical form. -/
theorem normalize_of_arranged (h : Arranged rs) : normalize rs = rs := by
  have kept : rs.filter (!·.isEmpty) = rs :=
    List.filter_eq_self.2 fun r hr => by simp [h.nonempty r hr]
  rw [normalize, kept, Sorting.sort_eq_self h.rising]
  cases rs with
  | nil => rfl
  | cons r rs => exact mergeFrom_of_gaps h.gaps

/-! ### What the canonical form looks like -/

/-- Whether a range is empty, decided by the values at its ends. -/
theorem isEmpty_eq_false_iff (s : Scale τ) (hr : r.HasType τ) :
    r.isEmpty = false ↔ ∀ a ∈ r.start.value?, ∀ b ∈ r.stop.value?, s.place a < s.place b ∨
      s.place a = s.place b ∧ r.start.isIncluded = true ∧ r.stop.isIncluded = true := by
  unfold isEmpty
  split
  · rename_i a b ha hb
    have order := s.compares (hr.start a ha) (hr.stop b hb)
    simp only [ha, hb, Option.mem_some_iff, forall_eq']
    cases h : a.compare b <;> simp only [h, Ordering.Compares] at order <;> grind
  · rename_i unbounded
    refine iff_of_true rfl fun a ha b hb => ?_
    exact (unbounded a b ha hb).elim

/-- The upper end that another one lies behind is a value, and it is not behind that. -/
theorem exists_value_of_compareEnd (s : Scale τ) {b c : Bound} (hb : b.HasType τ)
    (hc : c.HasType τ) (further : (b.compareEnd c == .gt) = true) :
    ∃ y ∈ c.value?, ∀ x ∈ b.value?, s.place y < s.place x ∨ s.place y = s.place x ∧
      b.isIncluded = true := by
  cases c with
  | unbounded => cases b <;> cases further
  | included y | excluded y =>
    refine ⟨y, rfl, fun x hx => ?_⟩
    have order := s.compares (hb x hx) (hc y rfl)
    cases b with
    | unbounded => cases hx
    | included x' | excluded x' =>
      obtain rfl := Option.some.inj hx
      simp only [Bound.compareEnd, beq_iff_eq, Ordering.then_eq_gt] at further
      cases h : x'.compare y <;> simp only [h, Ordering.Compares] at order further <;>
        grind [Bound.isIncluded]

/-- A range does not get empty when it is extended. -/
theorem isEmpty_extend (hr : r.HasType τ) (ht : t.HasType τ) (h : r.isEmpty = false) :
    (r.extend t).isEmpty = false := by
  unfold extend
  split
  · rename_i further
    obtain ⟨b, hb, behind⟩ := exists_value_of_compareEnd τ.scale ht.stop hr.stop further
    rw [isEmpty_eq_false_iff τ.scale hr] at h
    rw [isEmpty_eq_false_iff (r := ⟨r.start, t.stop⟩) τ.scale ⟨hr.start, ht.stop⟩]
    intro a ha c hc
    have before := h a ha b hb
    have behind := behind c hc
    grind
  · exact h

/-- Two ranges of a type, made one, are of that type. -/
theorem hasType_extend (hr : r.HasType τ) (ht : t.HasType τ) : (r.extend t).HasType τ := by
  unfold extend
  split
  · exact ⟨hr.start, ht.stop⟩
  · exact hr

/-- An extended range starts where it did. -/
theorem start_extend (r t : Range) : (r.extend t).start = r.start := by
  unfold extend
  split <;> rfl

/-- Merging begins with the first range. -/
theorem mergeFrom_eq_cons (r : Range) (rs : List Range) :
    ∃ first rest, mergeFrom r rs = first :: rest ∧ first.start = r.start := by
  induction rs generalizing r with
  | nil => exact ⟨r, [], rfl, rfl⟩
  | cons t rs ih =>
    unfold mergeFrom
    split
    · obtain ⟨first, rest, eq, start⟩ := ih (r.extend t)
      exact ⟨first, rest, eq, start.trans (start_extend r t)⟩
    · exact ⟨r, _, rfl, rfl⟩

/-- Merging makes up no new lower ends. -/
theorem sublist_starts_mergeFrom (r : Range) (rs : List Range) :
    ((mergeFrom r rs).map (·.start)).Sublist ((r :: rs).map (·.start)) := by
  induction rs generalizing r with
  | nil => exact .refl _
  | cons t rs ih =>
    unfold mergeFrom
    split
    · have merged := ih (r.extend t)
      rw [List.map_cons, start_extend] at merged
      exact merged.trans ((List.sublist_cons_self _ _).cons_cons _)
    · exact (ih t).cons_cons _

/-- There are gaps between merged ranges. -/
theorem gaps_mergeFrom (r : Range) (rs : List Range) :
    (mergeFrom r rs).IsChain fun r t => r.touches t = false := by
  induction rs generalizing r with
  | nil => exact .singleton r
  | cons t rs ih =>
    unfold mergeFrom
    split
    · exact ih (r.extend t)
    · rename_i gap
      obtain ⟨first, rest, eq, start⟩ := mergeFrom_eq_cons t rs
      have following := ih t
      rw [eq] at following ⊢
      refine List.isChain_cons_cons.2 ⟨?_, following⟩
      rw [touches, start]
      exact Bool.eq_false_iff.2 gap

/-- Ranges that are not empty are merged to such ranges. -/
theorem isEmpty_mergeFrom (hr : r.HasType τ) (hrs : ∀ t ∈ rs, t.HasType τ)
    (h : r.isEmpty = false) (hs : ∀ t ∈ rs, t.isEmpty = false) :
    ∀ t ∈ mergeFrom r rs, t.isEmpty = false := by
  induction rs generalizing r with
  | nil => exact List.forall_mem_singleton.2 h
  | cons t rs ih =>
    obtain ⟨ht, hrs⟩ := List.forall_mem_cons.1 hrs
    obtain ⟨next, hs⟩ := List.forall_mem_cons.1 hs
    unfold mergeFrom
    split
    · exact ih (hasType_extend hr ht) hrs (isEmpty_extend hr ht h) hs
    · exact List.forall_mem_cons.2 ⟨h, ih ht hrs next hs⟩

/-- The canonical form is arranged. -/
theorem arranged_normalize {ranges : List Range} (typed : ∀ r ∈ ranges, r.HasType τ) :
    Arranged (normalize ranges) := by
  have kept : ∀ r ∈ ranges.filter (!·.isEmpty), r.HasType τ :=
    fun r hr => typed r (List.mem_filter.1 hr).1
  have perm := Sorting.sort_perm startsBefore (ranges.filter (!·.isEmpty))
  have sorted : (Sorting.sort startsBefore (ranges.filter (!·.isEmpty))).Pairwise
      fun x y => startsBefore y x = false := Sorting.sort_pairwise (P := HasType τ)
    (fun _ _ ha hb => startsBefore_asymm ha hb)
    (fun _ _ _ ha hb hc => startsBefore_trans ha hb hc) kept
  have nonempty : ∀ r ∈ Sorting.sort startsBefore (ranges.filter (!·.isEmpty)),
      r.isEmpty = false :=
    fun r hr => by simpa using (List.mem_filter.1 (perm.mem_iff.1 hr)).2
  have typedSorted :
      ∀ r ∈ Sorting.sort startsBefore (ranges.filter (!·.isEmpty)), r.HasType τ :=
    fun r hr => kept r (perm.mem_iff.1 hr)
  unfold normalize
  generalize Sorting.sort startsBefore (ranges.filter (!·.isEmpty)) = rs at *
  cases rs with
  | nil => exact arranged_nil
  | cons r rs =>
    obtain ⟨first, rest⟩ := List.forall_mem_cons.1 nonempty
    obtain ⟨hr, hrs⟩ := List.forall_mem_cons.1 typedSorted
    refine ⟨isEmpty_mergeFrom hr hrs first rest, ?_, gaps_mergeFrom r rs⟩
    -- Which of two ranges starts first depends on their lower ends alone.
    have starts :
        ((r :: rs).map (·.start)).Pairwise fun b c => (c.compareStart b == .lt) = false :=
      List.pairwise_map.2 sorted
    exact List.pairwise_map.1 (starts.sublist (sublist_starts_mergeFrom r rs))

end Range

/-! ### Intervals -/

namespace Interval

variable {τ : DataType} {i j : Interval}

/-- An intersection has arranged ranges. -/
theorem arranged_intersect (hi : i.Regular τ) (hj : j.Regular τ) :
    Range.Arranged (i.intersect j).ranges := by
  refine Range.arranged_normalize (τ := τ) fun b hb => ?_
  obtain ⟨r, hr, hb⟩ := List.mem_flatMap.1 hb
  obtain ⟨t, ht, made⟩ := List.mem_filterMap.1 hb
  exact (Range.contains_intersect? (hi.typed r hr) (hj.typed t ht)).1 b made

/-- A union has arranged ranges. -/
theorem arranged_union (hi : i.Regular τ) (hj : j.Regular τ) :
    Range.Arranged (i.union j).ranges :=
  Range.arranged_normalize (τ := τ) fun b hb =>
    (List.mem_append.1 hb).elim (hi.typed b) (hj.typed b)

/-- A complement has arranged ranges. -/
theorem arranged_complement (hi : i.Regular τ) : Range.Arranged i.complement.ranges :=
  Range.arranged_normalize (Range.complement_spec τ.scale hi.typed hi.canonical).1

/-- An interval of arranged ranges has just these. -/
theorem ofRanges_of_arranged (c : Column) {ranges : List Range} (includeNull : Bool)
    (h : Range.Arranged ranges) :
    ofRanges c ranges includeNull = ⟨c, ranges, includeNull⟩ := by
  rw [ofRanges, Range.normalize_of_arranged h]

end Interval

end QueryOptimizer
