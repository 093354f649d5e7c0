import QueryOptimizer.Constraint.Range
import QueryOptimizer.Proofs.Constraint.Order

/-!
# What ranges contain

For values of one type, the operations on ranges do to the contents of ranges what their names
say. The values that lie before a range and those that lie behind it (`Bound.Before`,
`Bound.After`) are what the comparisons of bounds are about.

## Main results

* `Range.contains_intersect?`, `Range.normalize_spec`, `Range.complement_spec`: what
  intersection, the canonical form and the complement contain.
-/

namespace QueryOptimizer

variable {τ : DataType}

namespace Bound

/-- Whether the datum at a bound is a value of a type. -/
def HasType (τ : DataType) (b : Bound) : Prop :=
  ∀ v ∈ b.value?, Datum.HasType τ v

/-- Whether a value lies before a range that starts at a bound. -/
def Before (s : Scale τ) (d : Datum) : Bound → Prop
  | included v => s.place d < s.place v
  | excluded v => s.place d ≤ s.place v
  | unbounded => False

/-- Whether a value lies behind a range that stops at a bound. -/
def After (s : Scale τ) (d : Datum) : Bound → Prop
  | included v => s.place v < s.place d
  | excluded v => s.place v ≤ s.place d
  | unbounded => False

variable {s : Scale τ} {d : Datum} {b c : Bound}

/-- An end that is included has the type of its value. -/
@[simp] theorem hasType_included {v : Datum} : (included v).HasType τ ↔ v.HasType τ := by
  simp [HasType, value?]

/-- An end that is excluded has the type of its value. -/
@[simp] theorem hasType_excluded {v : Datum} : (excluded v).HasType τ ↔ v.HasType τ := by
  simp [HasType, value?]

/-- An open end is of every type. -/
@[simp] theorem hasType_unbounded : unbounded.HasType τ := by
  simp [HasType, value?]

/-- The end of a gap has the type of the end that it lies at. -/
theorem HasType.flip (h : b.HasType τ) : b.flip.HasType τ := by
  cases b with
  | unbounded => exact h
  | _ => simpa [Bound.flip] using h

/-- A range that starts where another one stops starts behind it. -/
theorem before_flip (bounded : b.isUnbounded = false) : b.flip.Before s d ↔ ¬b.After s d := by
  cases b <;> simp_all [Bound.flip, Before, After, isUnbounded]

/-- A value lies behind the start of a gap if it does not lie before the end of it. -/
theorem after_flip (bounded : b.isUnbounded = false) : b.flip.After s d ↔ ¬b.Before s d := by
  cases b <;> simp_all [Bound.flip, Before, After, isUnbounded]

/-- Which of two ranges starts first. -/
theorem compareStart_lt (hb : b.HasType τ) (hc : c.HasType τ) :
    (b.compareStart c = .lt → ∀ d, b.Before s d → c.Before s d) ∧
      (b.compareStart c ≠ .lt → ∀ d, c.Before s d → b.Before s d) := by
  cases b with
  | unbounded => cases c <;> simp [compareStart, Before]
  | included v | excluded v =>
    cases c with
    | unbounded => simp [compareStart, Before]
    | included w | excluded w =>
      have lt := s.compare_eq_lt (hb v rfl) (hc w rfl)
      have eq := s.compare_eq_eq (hb v rfl) (hc w rfl)
      simp only [compareStart, Before, Ordering.then_eq_lt, lt, eq, ne_eq]
      grind

/-- Which of two ranges ends last. -/
theorem compareEnd_gt (hb : b.HasType τ) (hc : c.HasType τ) :
    (b.compareEnd c = .gt → ∀ d, b.After s d → c.After s d) ∧
      (b.compareEnd c ≠ .gt → ∀ d, c.After s d → b.After s d) := by
  cases b with
  | unbounded => cases c <;> simp [compareEnd, After]
  | included v | excluded v =>
    cases c with
    | unbounded => simp [compareEnd, After]
    | included w | excluded w =>
      have gt := s.compare_eq_gt (hb v rfl) (hc w rfl)
      have eq := s.compare_eq_eq (hb v rfl) (hc w rfl)
      simp only [compareEnd, After, Ordering.then_eq_gt, gt, eq, ne_eq]
      grind

end Bound

namespace Range

/-- Whether the ends of a range are values of a type. -/
structure HasType (τ : DataType) (r : Range) : Prop where
  start : r.start.HasType τ
  stop : r.stop.HasType τ

variable {s : Scale τ} {d : Datum} {r t : Range}

/-- A value is in a range when it lies neither before nor behind it. -/
theorem contains_iff (s : Scale τ) (hr : r.HasType τ) (hd : d.HasType τ) :
    r.contains d = true ↔ ¬r.start.Before s d ∧ ¬r.stop.After s d := by
  obtain ⟨start, stop⟩ := r
  obtain ⟨hstart, hstop⟩ := hr
  unfold contains
  rw [Bool.and_eq_true]
  refine and_congr ?_ ?_
  · cases start with
    | unbounded => simp [Bound.Before]
    | included v =>
      have := s.compare_eq_lt hd (Bound.hasType_included.1 hstart)
      simp [Bound.Before, this]
    | excluded v =>
      have := s.compare_eq_gt hd (Bound.hasType_excluded.1 hstart)
      simp [Bound.Before, this]
  · cases stop with
    | unbounded => simp [Bound.After]
    | included v =>
      have := s.compare_eq_gt hd (Bound.hasType_included.1 hstop)
      simp [Bound.After, this]
    | excluded v =>
      have := s.compare_eq_lt hd (Bound.hasType_excluded.1 hstop)
      simp [Bound.After, this]

/-- Every value lies before or behind an empty range, and none lies on both
sides of any other. -/
theorem isEmpty_iff (hr : r.HasType τ) :
    (r.isEmpty = true → ∀ d, r.start.Before s d ∨ r.stop.After s d) ∧
      (r.isEmpty = false → ∀ d, ¬(r.start.Before s d ∧ r.stop.After s d)) := by
  obtain ⟨start, stop⟩ := r
  obtain ⟨hstart, hstop⟩ := hr
  cases start with
  | unbounded => cases stop <;> simp [isEmpty, Bound.value?, Bound.Before]
  | included v | excluded v =>
    cases stop with
    | unbounded => simp [isEmpty, Bound.value?, Bound.After]
    | included w | excluded w =>
      have order := s.compares (hstart v rfl) (hstop w rfl)
      simp only [isEmpty, Bound.value?, Bound.Before, Bound.After, Bound.isIncluded]
      cases h : v.compare w <;> simp only [h, Ordering.Compares] at order <;> grind

/-- No value lies between ranges that touch; ranges that do not touch are behind
one another. -/
theorem touches_iff (hr : r.stop.HasType τ) (ht : t.start.HasType τ) :
    (r.touches t = true → ∀ d, ¬(r.stop.After s d ∧ t.start.Before s d)) ∧
      (r.touches t = false → ∀ d, r.stop.After s d ∨ t.start.Before s d) := by
  obtain ⟨start, stop⟩ := r
  obtain ⟨start', stop'⟩ := t
  simp only at hr ht
  cases stop with
  | unbounded => simp [touches, Bound.value?, Bound.After]
  | included v | excluded v =>
    cases start' with
    | unbounded => simp [touches, Bound.value?, Bound.Before]
    | included w | excluded w =>
      have order := s.compares (ht w rfl) (hr v rfl)
      simp only [touches, Bound.value?, Bound.Before, Bound.After, Bound.isIncluded]
      cases h : w.compare v <;> simp only [h, Ordering.Compares] at order <;> grind

/-! ### Intersection -/

/-- The range from the later of two starts to the earlier of two stops. -/
theorem intersect?_eq (r t : Range) :
    ∃ start stop, r.intersect? t =
      (if isEmpty ⟨start, stop⟩ then none else some ⟨start, stop⟩) ∧
      start = (if r.start.compareStart t.start == .lt then t.start else r.start) ∧
      stop = (if r.stop.compareEnd t.stop == .gt then t.stop else r.stop) :=
  ⟨_, _, rfl, rfl, rfl⟩

/-- The intersection of two ranges contains what both contain. -/
theorem contains_intersect? (hr : r.HasType τ) (ht : t.HasType τ) :
    (∀ b ∈ r.intersect? t, b.HasType τ) ∧
      ∀ d : Datum, d.HasType τ → ((∃ b ∈ r.intersect? t, b.contains d = true) ↔
        r.contains d = true ∧ t.contains d = true) := by
  obtain ⟨start, stop, eq, hstart, hstop⟩ := intersect?_eq r t
  have typed : HasType τ ⟨start, stop⟩ := by
    constructor
    · simp only [hstart]
      split
      exacts [ht.start, hr.start]
    · simp only [hstop]
      split
      exacts [ht.stop, hr.stop]
  rw [eq]
  refine ⟨fun b hb => ?_, fun d hd => ?_⟩
  · split at hb
    · cases hb
    · obtain rfl := Option.some.inj hb
      exact typed
  let s := τ.scale
  have before : start.Before s d ↔ r.start.Before s d ∨ t.start.Before s d := by
    have := Bound.compareStart_lt (s := s) hr.start ht.start
    rw [hstart]
    split <;> simp_all
  have after : stop.After s d ↔ r.stop.After s d ∨ t.stop.After s d := by
    have := Bound.compareEnd_gt (s := s) hr.stop ht.stop
    rw [hstop]
    split <;> simp_all
  have both := contains_iff s typed hd
  rw [before, after] at both
  rw [contains_iff s hr hd, contains_iff s ht hd]
  have empty := isEmpty_iff (s := s) typed
  simp only at empty
  cases h : isEmpty ⟨start, stop⟩ with
  | true =>
    have := empty.1 h d
    simp only [if_true, Option.mem_def, reduceCtorEq, false_and, exists_false]
    grind
  | false =>
    simp only [Bool.false_eq_true, if_false, Option.mem_def, Option.some.injEq,
      exists_eq_left', both]
    grind

/-! ### The canonical form -/

/-- Whether a datum is in one of some ranges. -/
def admitted (ranges : List Range) (d : Datum) : Bool :=
  ranges.any (·.contains d)

/-- A value is admitted by ranges if one of them contains it. -/
theorem admitted_iff {ranges : List Range} :
    admitted ranges d = true ↔ ∃ r ∈ ranges, r.contains d = true :=
  List.any_eq_true

/-- Whether one range starts no later than another. -/
def StartsBy (s : Scale τ) (r t : Range) : Prop :=
  ∀ d, r.start.Before s d → t.start.Before s d

/-- Whether some range is not empty, as far as its ends tell. -/
def Proper (s : Scale τ) (r : Range) : Prop :=
  ∀ d, ¬(r.start.Before s d ∧ r.stop.After s d)

/-- Whether a range lies behind another one, with a gap between them. -/
def Apart (s : Scale τ) (r t : Range) : Prop :=
  ∀ d, r.stop.After s d ∨ t.start.Before s d

/-- Whether ranges are in canonical form: none is empty, they rise, and no two touch. -/
structure Canonical (s : Scale τ) (ranges : List Range) : Prop where
  proper : ∀ r ∈ ranges, r.Proper s
  apart : ranges.Pairwise (Apart s)

/-- A proper range starts no later than one that it is apart from. -/
theorem Proper.startsBy (proper : r.Proper s) (apart : r.Apart s t) : r.StartsBy s t :=
  fun d before => (apart d).resolve_left fun after => proper d ⟨before, after⟩

/-- Of two ranges the one that the other does not start before starts first. -/
theorem startsBefore_eq_false (hr : r.HasType τ) (ht : t.HasType τ)
    (h : t.startsBefore r = false) : r.StartsBy s t := by
  have order := (Bound.compareStart_lt (s := s) ht.start hr.start).2
  exact order (by simpa [startsBefore] using h)

/-- Which of two ranges starts first, decided by the values at their ends. -/
theorem startsBefore_iff (s : Scale τ) (hr : r.HasType τ) (ht : t.HasType τ) :
    r.startsBefore t = true ↔
      match r.start, t.start with
      | _, .unbounded => False
      | .unbounded, _ => True
      | .included v, .excluded w => s.place v ≤ s.place w
      | .included v, .included w | .excluded v, .included w | .excluded v, .excluded w =>
        s.place v < s.place w := by
  obtain ⟨start, stop⟩ := r
  obtain ⟨start', stop'⟩ := t
  have hr := hr.start
  have ht := ht.start
  simp only at hr ht
  unfold startsBefore
  cases start with
  | unbounded => cases start' <;> simp [Bound.compareStart]
  | included v | excluded v =>
    cases start' with
    | unbounded => simp [Bound.compareStart]
    | included w | excluded w =>
      have lt := s.compare_eq_lt (hr v rfl) (ht w rfl)
      have eq := s.compare_eq_eq (hr v rfl) (ht w rfl)
      simp only [Bound.compareStart, beq_iff_eq, Ordering.then_eq_lt, lt, eq, le_iff_lt_or_eq,
        and_true, and_false, or_false, reduceCtorEq]

/-- Two ranges do not start before one another. -/
theorem startsBefore_asymm (hr : r.HasType τ) (ht : t.HasType τ)
    (h : r.startsBefore t = true) :
    t.startsBefore r = false := by
  rw [Bool.eq_false_iff, ne_eq, startsBefore_iff τ.scale ht hr]
  rw [startsBefore_iff τ.scale hr ht] at h
  cases hs : r.start <;> cases ht : t.start <;> simp only [hs, ht] at h ⊢ <;> grind

/-- Not starting before is transitive. -/
theorem startsBefore_trans {u : Range} (hr : r.HasType τ) (ht : t.HasType τ) (hu : u.HasType τ)
    (h : r.startsBefore t = false) (h' : t.startsBefore u = false) :
    r.startsBefore u = false := by
  rw [Bool.eq_false_iff, ne_eq, startsBefore_iff τ.scale hr ht] at h
  rw [Bool.eq_false_iff, ne_eq, startsBefore_iff τ.scale ht hu] at h'
  rw [Bool.eq_false_iff, ne_eq, startsBefore_iff τ.scale hr hu]
  cases hs : r.start <;> cases ht : t.start <;> cases hu : u.start <;>
    simp only [hs, ht, hu] at h h' ⊢ <;> grind

/-- A range that is extended to a touching one has the contents of both. -/
theorem extend_spec (hr : r.HasType τ) (ht : t.HasType τ) (order : r.StartsBy s t)
    (touch : r.touches t = true) :
    (r.extend t).HasType τ ∧ (r.extend t).start = r.start ∧
      (∀ d, (r.extend t).stop.After s d → r.stop.After s d) ∧
      ∀ d : Datum, d.HasType τ →
        ((r.extend t).contains d = true ↔ r.contains d = true ∨ t.contains d = true) := by
  have between := (touches_iff (s := s) hr.stop ht.start).1 touch
  have ends := Bound.compareEnd_gt (s := s) ht.stop hr.stop
  unfold extend
  split
  · rename_i further
    have typed : HasType τ ⟨r.start, t.stop⟩ := ⟨hr.start, ht.stop⟩
    have later := ends.1 (beq_iff_eq.1 further)
    refine ⟨typed, rfl, later, fun d hd => ?_⟩
    rw [contains_iff s typed hd, contains_iff s hr hd, contains_iff s ht hd]
    have := order d
    have := between d
    have := later d
    grind
  · rename_i shorter
    have later := ends.2 (by simpa using shorter)
    refine ⟨hr, rfl, fun _ => id, fun d hd => ?_⟩
    rw [contains_iff s hr hd, contains_iff s ht hd]
    have := order d
    have := later d
    grind

/-- Merging keeps what the ranges contain and brings them into canonical form. -/
theorem mergeFrom_spec {rs : List Range} (hr : r.HasType τ) (hrs : ∀ t ∈ rs, t.HasType τ)
    (proper : r.Proper s) (properRest : ∀ t ∈ rs, t.Proper s)
    (rising : (r :: rs).Pairwise (StartsBy s)) :
    (∀ t ∈ mergeFrom r rs, t.HasType τ ∧ r.StartsBy s t) ∧ Canonical s (mergeFrom r rs) ∧
      ∀ d : Datum, d.HasType τ → admitted (mergeFrom r rs) d = admitted (r :: rs) d := by
  induction rs generalizing r with
  | nil =>
    simp only [mergeFrom, List.mem_singleton, forall_eq]
    exact ⟨⟨hr, fun _ => id⟩, ⟨by simpa using proper, List.pairwise_singleton _ _⟩,
      fun _ _ => trivial⟩
  | cons t rs ih =>
    obtain ⟨ht, hrs⟩ := List.forall_mem_cons.1 hrs
    obtain ⟨properNext, properRest⟩ := List.forall_mem_cons.1 properRest
    obtain ⟨first, rest⟩ := List.pairwise_cons.1 rising
    obtain ⟨next, later⟩ := List.forall_mem_cons.1 first
    unfold mergeFrom
    split
    · rename_i touch
      obtain ⟨typed, start, stop, contents⟩ := extend_spec hr ht next touch
      have starts {u : Range} : (r.extend t).StartsBy s u ↔ r.StartsBy s u := by
        simp only [StartsBy, start]
      obtain ⟨members, canonical, same⟩ := ih typed hrs
        (fun d ⟨before, after⟩ => proper d ⟨start ▸ before, stop d after⟩) properRest
        (List.pairwise_cons.2
          ⟨fun u hu => starts.2 (later u hu), (List.pairwise_cons.1 rest).2⟩)
      refine ⟨fun u hu => ⟨(members u hu).1, starts.1 (members u hu).2⟩,
        canonical, fun d hd => ?_⟩
      rw [same d hd, Bool.eq_iff_iff]
      simp only [admitted, List.any_cons, Bool.or_eq_true, contents d hd, or_assoc]
    · rename_i gap
      obtain ⟨members, canonical, same⟩ := ih ht hrs properNext properRest rest
      have behind := (touches_iff (s := s) hr.stop ht.start).2 (Bool.eq_false_iff.2 gap)
      refine ⟨?_, ⟨?_, ?_⟩, fun d hd => ?_⟩
      · refine List.forall_mem_cons.2 ⟨⟨hr, fun _ => id⟩, fun u hu => ?_⟩
        exact ⟨(members u hu).1, fun d before => (members u hu).2 d (next d before)⟩
      · exact List.forall_mem_cons.2 ⟨proper, canonical.proper⟩
      · refine List.pairwise_cons.2 ⟨fun u hu d => ?_, canonical.apart⟩
        exact (behind d).imp_right ((members u hu).2 d)
      · have := same d hd
        simp only [admitted, List.any_cons] at this ⊢
        rw [this]

/-- The canonical form has the contents of the ranges. -/
theorem normalize_spec (s : Scale τ) {ranges : List Range}
    (typed : ∀ r ∈ ranges, r.HasType τ) :
    (∀ r ∈ normalize ranges, r.HasType τ) ∧ Canonical s (normalize ranges) ∧
      ∀ d : Datum, d.HasType τ → admitted (normalize ranges) d = admitted ranges d := by
  have kept : ∀ r ∈ ranges.filter (!·.isEmpty), r.HasType τ :=
    fun r hr => typed r (List.mem_filter.1 hr).1
  have perm := Sorting.sort_perm startsBefore (ranges.filter (!·.isEmpty))
  have sorted : (Sorting.sort startsBefore (ranges.filter (!·.isEmpty))).Pairwise
      fun x y => startsBefore y x = false := Sorting.sort_pairwise (P := HasType τ)
    (fun _ _ ha hb => startsBefore_asymm ha hb)
    (fun _ _ _ ha hb hc => startsBefore_trans ha hb hc) kept
  have proper : ∀ r ∈ ranges.filter (!·.isEmpty), r.Proper s := fun r hr =>
    (isEmpty_iff (kept r hr)).2 (by simpa using (List.mem_filter.1 hr).2)
  have contents (d : Datum) (hd : d.HasType τ) :
      admitted (ranges.filter (!·.isEmpty)) d = admitted ranges d := by
    rw [Bool.eq_iff_iff, admitted_iff, admitted_iff]
    refine ⟨fun ⟨r, hr, inside⟩ => ⟨r, (List.mem_filter.1 hr).1, inside⟩,
      fun ⟨r, hr, inside⟩ => ?_⟩
    refine ⟨r, List.mem_filter.2 ⟨hr, ?_⟩, inside⟩
    by_contra empty
    have outside := (isEmpty_iff (s := s) (typed r hr)).1 (by simpa using empty) d
    have := (contains_iff s (typed r hr) hd).1 inside
    grind
  unfold normalize
  generalize ranges.filter (!·.isEmpty) = proper' at *
  have typed' : ∀ r ∈ Sorting.sort startsBefore proper', r.HasType τ :=
    fun r hr => kept r (perm.mem_iff.1 hr)
  have same (d : Datum) : admitted (Sorting.sort startsBefore proper') d =
      admitted proper' d := by
    rw [Bool.eq_iff_iff, admitted_iff, admitted_iff]
    simp only [perm.mem_iff]
  have properSorted : ∀ r ∈ Sorting.sort startsBefore proper', r.Proper s :=
    fun r hr => proper r (perm.mem_iff.1 hr)
  have rising : (Sorting.sort startsBefore proper').Pairwise (StartsBy s) :=
    sorted.imp_of_mem fun ha hb => startsBefore_eq_false (typed' _ ha) (typed' _ hb)
  have merged {d : Datum} (hd : d.HasType τ) {contained : Bool}
      (h : contained = admitted (Sorting.sort startsBefore proper') d) : contained =
      admitted ranges d :=
    h.trans ((same d).trans (contents d hd))
  cases h : Sorting.sort startsBefore proper' with
  | nil =>
    exact ⟨by simp [merge], ⟨by simp [merge], .nil⟩, fun d hd => merged hd (by rw [h]; rfl)⟩
  | cons r rs =>
    rw [h] at typed' properSorted rising
    obtain ⟨hr, hrs⟩ := List.forall_mem_cons.1 typed'
    obtain ⟨properFirst, properRest⟩ := List.forall_mem_cons.1 properSorted
    obtain ⟨members, canonical, contents⟩ :=
      mergeFrom_spec hr hrs properFirst properRest rising
    exact ⟨fun t ht => (members t ht).1, canonical, fun d hd =>
      merged hd (by rw [h]; exact contents d hd)⟩

/-! ### The complement -/

/-- The gap before a range, from a lower end on. -/
def gapBefore (lower : Bound) (r : Range) : List Range :=
  if r.start.isUnbounded then [] else [⟨lower, r.start.flip⟩]

/-- The gaps behind a range that others follow. -/
def gapsAfter (r : Range) (rs : List Range) : List Range :=
  if r.stop.isUnbounded then [] else gapsFrom r.stop.flip rs

/-- The gaps of ranges are the one before the first of them and those after it. -/
theorem gapsFrom_cons (lower : Bound) (r : Range) (rs : List Range) :
    gapsFrom lower (r :: rs) = gapBefore lower r ++ gapsAfter r rs := by
  rw [gapsFrom, gapBefore, gapsAfter]
  split <;> split <;> simp

/-- The gap before a range has the values between a bound and the start of the range. -/
theorem gapBefore_spec (s : Scale τ) {lower : Bound} (hlower : lower.HasType τ)
    (hr : r.HasType τ) :
    (∀ t ∈ gapBefore lower r, t.HasType τ) ∧
      ∀ d : Datum, d.HasType τ →
        (admitted (gapBefore lower r) d = true ↔ ¬lower.Before s d ∧ r.start.Before s d) := by
  have typed : HasType τ ⟨lower, r.start.flip⟩ := ⟨hlower, hr.start.flip⟩
  unfold gapBefore
  cases bounded : r.start.isUnbounded with
  | true =>
    have start : r.start = .unbounded := by cases hs : r.start <;> simp_all [Bound.isUnbounded]
    simp [admitted, start, Bound.Before]
  | false =>
    refine ⟨List.forall_mem_singleton.2 typed, fun d hd => ?_⟩
    simp [admitted, contains_iff s typed hd, Bound.after_flip bounded]

/-- A value before the first of some ranges in canonical form is in none of the others. -/
theorem Canonical.admitted_of_before {rs : List Range} (canonical : Canonical s (r :: rs))
    (typed : ∀ t ∈ rs, t.HasType τ) (hd : d.HasType τ) (before : r.start.Before s d) :
    admitted rs d = false := by
  rw [Bool.eq_false_iff, ne_eq, admitted_iff]
  rintro ⟨t, ht, inside⟩
  have apart := (List.pairwise_cons.1 canonical.apart).1 t ht
  exact ((contains_iff s (typed t ht) hd).1 inside).1
    ((canonical.proper r (by simp)).startsBy apart d before)

/-- The gaps of ranges in canonical form contain what the ranges do not, from a
lower end on. -/
theorem gapsFrom_spec {ranges : List Range} {lower : Bound} (hlower : lower.HasType τ)
    (typed : ∀ r ∈ ranges, r.HasType τ) (canonical : Canonical s ranges)
    (below : ∀ r ∈ ranges, ∀ d, lower.Before s d → r.start.Before s d) :
    (∀ r ∈ gapsFrom lower ranges, r.HasType τ) ∧
      ∀ d : Datum, d.HasType τ →
        (admitted (gapsFrom lower ranges) d = true ↔
          ¬lower.Before s d ∧ admitted ranges d = false) := by
  induction ranges generalizing lower with
  | nil =>
    have typed : HasType τ ⟨lower, .unbounded⟩ := ⟨hlower, Bound.hasType_unbounded⟩
    refine ⟨by simpa [gapsFrom] using typed, fun d hd => ?_⟩
    simp [gapsFrom, admitted, contains_iff s typed hd, Bound.After]
  | cons r rs ih =>
    obtain ⟨hr, hrs⟩ := List.forall_mem_cons.1 typed
    obtain ⟨proper, properRest⟩ := List.forall_mem_cons.1 canonical.proper
    obtain ⟨first, rest⟩ := List.pairwise_cons.1 canonical.apart
    have belowFirst := (List.forall_mem_cons.1 below).1
    obtain ⟨typedBefore, inBefore⟩ := gapBefore_spec s hlower hr
    have after : (∀ t ∈ gapsAfter r rs, t.HasType τ) ∧ ∀ d : Datum, d.HasType τ →
        (admitted (gapsAfter r rs) d = true ↔ r.stop.After s d ∧ admitted rs d = false) := by
      unfold gapsAfter
      cases h : r.stop.isUnbounded with
      | true =>
        have stop : r.stop = .unbounded := by
          cases hs : r.stop <;> simp_all [Bound.isUnbounded]
        simp [admitted, stop, Bound.After]
      | false =>
        have flipped (d : Datum) : r.stop.flip.Before s d ↔ ¬r.stop.After s d :=
          Bound.before_flip h
        simpa [flipped] using ih hr.stop.flip hrs ⟨properRest, rest⟩ fun t ht d before =>
          (first t ht d).resolve_left ((flipped d).1 before)
    obtain ⟨typedAfter, inAfter⟩ := after
    rw [gapsFrom_cons]
    refine ⟨fun t ht =>
      (List.mem_append.1 ht).elim (typedBefore t) (typedAfter t), fun d hd => ?_⟩
    have outside : admitted (r :: rs) d = false ↔
        (r.start.Before s d ∨ r.stop.After s d) ∧ admitted rs d = false := by
      rw [admitted, List.any_cons, Bool.or_eq_false_iff, Bool.eq_false_iff, ne_eq,
        contains_iff s hr hd, not_and_or, not_not, not_not]
      rfl
    have split : admitted (gapBefore lower r ++ gapsAfter r rs) d = true ↔
        admitted (gapBefore lower r) d = true ∨ admitted (gapsAfter r rs) d = true := by
      simp [admitted]
    rw [split, inBefore d hd, inAfter d hd, outside]
    have := canonical.admitted_of_before hrs hd
    have := belowFirst d
    have := proper d
    grind

/-- The complement of ranges in canonical form contains what the ranges do not. -/
theorem complement_spec (s : Scale τ) {ranges : List Range} (typed : ∀ r ∈ ranges, r.HasType τ)
    (canonical : Canonical s ranges) :
    (∀ r ∈ complement ranges, r.HasType τ) ∧ Canonical s (complement ranges) ∧
      ∀ d : Datum, d.HasType τ → admitted (complement ranges) d = !admitted ranges d := by
  obtain ⟨typedGaps, gaps⟩ := gapsFrom_spec Bound.hasType_unbounded typed
    canonical (fun _ _ _ before => before.elim)
  obtain ⟨typed', canonical', same⟩ := normalize_spec s typedGaps
  refine ⟨typed', canonical', fun d hd => ?_⟩
  rw [complement, same d hd, Bool.eq_iff_iff, gaps d hd]
  simp [Bound.Before]

end Range

end QueryOptimizer
