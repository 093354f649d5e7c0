import QueryOptimizer.Constraint.Interval
import QueryOptimizer.Proofs.Constraint.Range
import QueryOptimizer.Proofs.Semantics.Value

/-!
# What intervals admit

An interval admits null or not, and it admits the values in its ranges. For values of one type
the operations on intervals are the operations on truth values, point by point. They rely on
the canonical form of the ranges (`Interval.Regular`), which they keep.

## Main results

* `Interval.ofRanges_spec`, `Interval.intersect_spec`, `Interval.union_spec`,
  `Interval.complement_spec`: what the intervals that are made admit.
-/

namespace QueryOptimizer

/-- Whether a value is of a type; null is of every type. -/
def Value.HasType (τ : DataType) (v : Value) : Prop :=
  ∀ d ∈ v, Datum.HasType τ d

/-- Whether each column has a value of its type. -/
def Row.HasTypes (Γ : Nat → DataType) (r : Row) : Prop :=
  ∀ i, Value.HasType (Γ i) (r i)

namespace Interval

variable {τ : DataType} {i j : Interval}

/-- Whether a value of the column is admitted. -/
def admits (i : Interval) : Value → Bool
  | none => i.includeNull
  | some d => Range.admitted i.ranges d

/-- Whether the ranges are of a type and in canonical form. -/
structure Regular (τ : DataType) (i : Interval) : Prop where
  typed : ∀ r ∈ i.ranges, r.HasType τ
  canonical : Range.Canonical τ.scale i.ranges

/-- A contradiction admits no value. -/
theorem admits_of_isContradiction (h : i.isContradiction = true) (v : Value) :
    i.admits v = false := by
  obtain ⟨none, notNull⟩ := Bool.and_eq_true_iff.1 h
  cases v with
  | none => simpa [admits] using notNull
  | some d => simp [admits, List.isEmpty_iff.1 none, Range.admitted]

/-- What is unbounded admits every value. -/
theorem admits_of_isUnbounded (h : i.isUnbounded = true) (v : Value) : i.admits v = true := by
  obtain ⟨null, full⟩ := Bool.and_eq_true_iff.1 h
  split at full
  · rename_i r ranges
    obtain ⟨start, stop⟩ := Bool.and_eq_true_iff.1 full
    cases v with
    | none => exact null
    | some d =>
      obtain ⟨_ | _ | _, _ | _ | _⟩ := r <;> cases start <;> cases stop
      simp [admits, ranges, Range.admitted, Range.contains]
  · cases full

/-- An interval admits what the ranges that it is made of contain. -/
theorem ofRanges_spec (c : Column) {ranges : List Range} (includeNull : Bool)
    (typed : ∀ r ∈ ranges, r.HasType τ) :
    (ofRanges c ranges includeNull).Regular τ ∧
      (ofRanges c ranges includeNull).admits none = includeNull ∧
      ∀ d : Datum, d.HasType τ →
        (ofRanges c ranges includeNull).admits (some d) = Range.admitted ranges d := by
  obtain ⟨typed', canonical, same⟩ := Range.normalize_spec τ.scale typed
  exact ⟨⟨typed', canonical⟩, rfl, same⟩

/-- The ranges of an interval on another column admit what they admit on its own. -/
theorem admits_ofRanges (c : Column) (regular : i.Regular τ) {v : Value} (hv : v.HasType τ) :
    (ofRanges c i.ranges i.includeNull).admits v = i.admits v := by
  obtain ⟨-, null, value⟩ := ofRanges_spec c i.includeNull regular.typed
  cases v with
  | none => exact null
  | some d => exact value d (hv d rfl)

/-- The intersection of regular intervals is regular and admits what both of them do. -/
theorem intersect_spec (hi : i.Regular τ) (hj : j.Regular τ) :
    (i.intersect j).Regular τ ∧
      ∀ v : Value, v.HasType τ → (i.intersect j).admits v = (i.admits v && j.admits v) := by
  have typed : ∀ b ∈ i.ranges.flatMap fun r => j.ranges.filterMap r.intersect?,
      b.HasType τ := by
    intro b hb
    obtain ⟨r, hr, hb⟩ := List.mem_flatMap.1 hb
    obtain ⟨t, ht, made⟩ := List.mem_filterMap.1 hb
    exact (Range.contains_intersect? (hi.typed r hr) (hj.typed t ht)).1 b made
  obtain ⟨regular, null, value⟩ :=
    ofRanges_spec i.column (i.includeNull && j.includeNull) typed
  refine ⟨regular, fun v hv => ?_⟩
  cases v with
  | none => exact null
  | some d =>
    have hd := hv d rfl
    have both {r t : Range} (hr : r ∈ i.ranges) (ht : t ∈ j.ranges) :=
      (Range.contains_intersect? (hi.typed r hr) (hj.typed t ht)).2 d hd
    refine (value d hd).trans ?_
    rw [Bool.eq_iff_iff, Bool.and_eq_true]
    simp only [admits, Range.admitted_iff, List.mem_flatMap, List.mem_filterMap]
    constructor
    · rintro ⟨b, ⟨r, hr, t, ht, made⟩, inside⟩
      obtain ⟨first, second⟩ := (both hr ht).1 ⟨b, made, inside⟩
      exact ⟨⟨r, hr, first⟩, t, ht, second⟩
    · rintro ⟨⟨r, hr, first⟩, t, ht, second⟩
      obtain ⟨b, made, inside⟩ := (both hr ht).2 ⟨first, second⟩
      exact ⟨b, ⟨r, hr, t, ht, made⟩, inside⟩

/-- The union of regular intervals is regular and admits what one of them does. -/
theorem union_spec (hi : i.Regular τ) (hj : j.Regular τ) :
    (i.union j).Regular τ ∧
      ∀ v : Value, v.HasType τ → (i.union j).admits v = (i.admits v || j.admits v) := by
  have typed : ∀ b ∈ i.ranges ++ j.ranges, b.HasType τ := fun b hb =>
    (List.mem_append.1 hb).elim (hi.typed b) (hj.typed b)
  obtain ⟨regular, null, value⟩ :=
    ofRanges_spec i.column (i.includeNull || j.includeNull) typed
  refine ⟨regular, fun v hv => ?_⟩
  cases v with
  | none => exact null
  | some d => exact (value d (hv d rfl)).trans List.any_append

/-- The complement of a regular interval is regular and admits what the interval does not. -/
theorem complement_spec (hi : i.Regular τ) :
    i.complement.Regular τ ∧ ∀ v : Value, v.HasType τ →
      i.complement.admits v = !i.admits v := by
  obtain ⟨typed, -, outside⟩ := Range.complement_spec τ.scale hi.typed hi.canonical
  obtain ⟨regular, null, value⟩ := ofRanges_spec i.column (!i.includeNull) typed
  refine ⟨regular, fun v hv => ?_⟩
  cases v with
  | none => exact null
  | some d => exact (value d (hv d rfl)).trans (outside d (hv d rfl))

end Interval

end QueryOptimizer
