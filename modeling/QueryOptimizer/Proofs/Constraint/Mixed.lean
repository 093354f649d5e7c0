import QueryOptimizer.Datum
import QueryOptimizer.Proofs.Number.Rounding

/-!
# The order of datums of several types

Datums of one type are compared exactly, those of different types by their places on the
numeric axis, which are rounded. The two ways agree on numbers whose places differ
(`Datum.Placed.compare_of_ne`). So a chain of comparisons does not lead back on the axis, and
numbers that rounding leaves apart are in linear order, whatever their types are.

Numbers that are rounded to one place are not. Two integers of one type may differ, and yet
both of them are equal to one integer of another type (`Datum.compare_intransitive`).

## Main results

* `Datum.compare_of_exact`: numbers that rounding leaves apart are compared by their places.
* `Datum.Placed.isLE_or_place_eq`: comparisons are transitive unless the places are one.
* `Datum.lt_of_compare_eq_lt`: an integer that comes first is smaller.
-/

namespace QueryOptimizer

namespace Datum

open Number Binary64

/-- Two numbers always compare. -/
theorem compareNumbers?_eq {x y : Binary64} (hx : x.IsNumber) (hy : y.IsNumber) :
    compareNumbers? x y = some (Ord.compare x.place y.place) := by
  unfold compareNumbers?
  split
  · rename_i below
    rw [Int.compare_eq_lt.2 (lt_iff.1 below).2.2]
  · rename_i notBelow
    split
    · rename_i above
      rw [Int.compare_eq_gt.2 (lt_iff.1 above).2.2]
    · rename_i notAbove
      have same : x.place = y.place := by
        have one : ¬ x.place < y.place := fun below => notBelow (lt_iff.2 ⟨hx, hy, below⟩)
        have other : ¬ y.place < x.place := fun above => notAbove (lt_iff.2 ⟨hy, hx, above⟩)
        omega
      rw [if_pos (beq_iff.2 ⟨hx, hy, same⟩), Int.compare_eq_eq.2 same]

/-- Integers, and doubles that are numbers, with their places on the numeric axis. -/
inductive Placed : Datum → Binary64 → Prop
  | integer (t : IntegerType) (n : Int) : Placed (.integer t n) ⟨ofInt n⟩
  | float64 {w : UInt64} (number : IsNumber ⟨w⟩) : Placed (.float64 w) ⟨w⟩

variable {a b c : Datum} {x y z : Binary64} {s t : IntegerType} {m n : Int}

namespace Placed

/-- What has a place on the axis is a number. -/
theorem isNumber (h : a.Placed x) : x.IsNumber := by
  cases h with
  | integer t n => exact isNumber_ofInt n
  | float64 number => exact number

theorem isNull_eq_false (h : a.Placed x) : a.isNull = false := by
  cases h <;> rfl

theorem position?_eq (h : a.Placed x) : a.position? = some x := by
  cases h <;> rfl

/-- Numbers that are not compared as datums of one type are compared by their places. -/
theorem compare_of_within_eq_none (ha : a.Placed x) (hb : b.Placed y)
    (other : a.compareWithin? b = none) : a.compare b = Ord.compare x.place y.place := by
  simp only [compare, ha.isNull_eq_false, hb.isNull_eq_false, other, compareOnAxis?,
    ha.position?_eq, hb.position?_eq, compareNumbers?_eq ha.isNumber hb.isNumber,
    Option.getD_some]

end Placed

/-- Integers of one type are compared exactly. -/
theorem compare_integer_self : (integer t m).compare (integer t n) = Ord.compare m n := by
  simp [compare, isNull, compareWithin?]

/-- Integers of different types are compared as doubles. -/
theorem compare_integer_of_ne (other : s ≠ t) : (integer s m).compare (integer t n) =
    Ord.compare (place ⟨ofInt m⟩) (place ⟨ofInt n⟩) :=
  (Placed.integer s m).compare_of_within_eq_none (.integer t n)
    (by simp [compareWithin?, other])

/-- Numbers with different places are compared by their places, whichever way
they are compared. -/
theorem Placed.compare_of_ne (ha : a.Placed x) (hb : b.Placed y) (apart : x.place ≠ y.place) :
    a.compare b = Ord.compare x.place y.place := by
  cases ha with
  | integer s m =>
    cases hb with
    | integer t n =>
      by_cases same : s = t
      · rw [same, compare_integer_self]
        rcases Int.lt_trichotomy m n with less | rfl | more
        · have before := place_ofInt_mono less.le
          rw [Int.compare_eq_lt.2 less, Int.compare_eq_lt.2 (by omega)]
        · exact absurd rfl apart
        · have behind := place_ofInt_mono more.le
          rw [Int.compare_eq_gt.2 more, Int.compare_eq_gt.2 (by omega)]
      · exact compare_integer_of_ne same
    | float64 number => exact (integer s m).compare_of_within_eq_none (.float64 number) rfl
  | float64 number =>
    cases hb with
    | integer t n => exact (float64 number).compare_of_within_eq_none (.integer t n) rfl
    | float64 number' =>
      change Ord.compare (orderKey _) (orderKey _) = _
      rcases Int.lt_or_gt_of_ne apart with before | behind
      · have key := orderKey_lt_of_lt (lt_iff.2 ⟨number, number', before⟩)
        rw [Int.compare_eq_lt.2 key, Int.compare_eq_lt.2 before]
      · have key := orderKey_lt_of_lt (lt_iff.2 ⟨number', number, behind⟩)
        rw [Int.compare_eq_gt.2 key, Int.compare_eq_gt.2 behind]

/-- A number that comes first, or is equal, does not lie behind. -/
theorem Placed.place_le (ha : a.Placed x) (hb : b.Placed y)
    (first : (a.compare b).isLE = true) :
    x.place ≤ y.place := by
  by_cases same : x.place = y.place
  · exact same.le
  · rwa [ha.compare_of_ne hb same, Int.isLE_compare] at first

/-- Along a chain of comparisons the places do not go back. So a chain can only end before its
beginning in the order of datums if all its places are one. -/
theorem Placed.isLE_or_place_eq (ha : a.Placed x) (hb : b.Placed y) (hc : c.Placed z)
    (hab : (a.compare b).isLE = true) (hbc : (b.compare c).isLE = true) :
    (a.compare c).isLE = true ∨ x.place = y.place ∧ y.place = z.place := by
  have first := ha.place_le hb hab
  have second := hb.place_le hc hbc
  by_cases same : x.place = z.place
  · exact .inr (by omega)
  · rw [ha.compare_of_ne hc same, Int.isLE_compare]
    exact .inl (by omega)

/-- An integer that comes first is smaller, whatever the types are. -/
theorem lt_of_compare_eq_lt (first : (integer s m).compare (integer t n) = .lt) : m < n := by
  by_cases same : s = t
  · rw [same, compare_integer_self] at first
    exact Int.compare_eq_lt.1 first
  · rw [compare_integer_of_ne same, Int.compare_eq_lt] at first
    by_contra above
    exact absurd (place_ofInt_mono (Int.not_lt.1 above)) (Int.not_le.2 first)

/-- The numbers that the numeric axis tells apart: integers that fit into the mantissa of a
double, and doubles other than negative zero. -/
inductive Exact : Datum → Binary64 → Prop
  | integer (t : IntegerType) {n : Int} (low : -2 ^ 53 ≤ n) (high : n ≤ 2 ^ 53) :
    Exact (.integer t n) ⟨ofInt n⟩
  | float64 {w : UInt64} (number : IsNumber ⟨w⟩) (notNegativeZero : w ≠ 0x8000000000000000) :
    Exact (.float64 w) ⟨w⟩

/-- An exact number is placed. -/
theorem Exact.placed (h : a.Exact x) : a.Placed x := by
  cases h with
  | integer t low high => exact .integer t _
  | float64 number _ => exact .float64 number

/-- Doubles at one place are one double, unless they are the two zeros. -/
theorem word_eq_of_place_eq {v w : UInt64} (hv : v ≠ 0x8000000000000000)
    (hw : w ≠ 0x8000000000000000) (same : place ⟨v⟩ = place ⟨w⟩) : v = w := by
  have zero {u : UInt64} (hu : u ≠ 0x8000000000000000) : u.toNat ≠ 2 ^ 63 := fun h =>
    hu (UInt64.toNat_inj.1 h)
  have hv := zero hv
  have hw := zero hw
  rw [place_mk, place_mk] at same
  refine UInt64.toNat_inj.1 ?_
  split at same <;> split at same <;> omega

/-- Numbers that the axis tells apart are compared by their places, whatever their types are.
So they are in linear order. -/
theorem compare_of_exact (ha : a.Exact x) (hb : b.Exact y) :
    a.compare b = Ord.compare x.place y.place := by
  by_cases same : x.place = y.place
  · rw [Int.compare_eq_eq.2 same]
    cases ha with
    | @integer s m low high =>
      cases hb with
      | @integer t n low' high' =>
        have equal : m = n := by
          rcases Int.lt_trichotomy m n with less | equal | more
          · exact absurd same (place_ofInt_strictMono less low high').ne
          · exact equal
          · exact absurd same (place_ofInt_strictMono more low' high).ne'
        by_cases types : s = t
        · rw [types, compare_integer_self, Int.compare_eq_eq.2 equal]
        · rw [compare_integer_of_ne types, Int.compare_eq_eq.2 same]
      | float64 number _ =>
        rw [(Placed.integer s m).compare_of_within_eq_none (.float64 number) rfl,
          Int.compare_eq_eq.2 same]
    | @float64 v number zero =>
      cases hb with
      | integer t _ _ =>
        rw [(Placed.float64 number).compare_of_within_eq_none (.integer t _) rfl,
          Int.compare_eq_eq.2 same]
      | @float64 w number' zero' =>
        rw [word_eq_of_place_eq zero zero' same]
        exact Int.compare_eq_eq.2 rfl
  · exact ha.placed.compare_of_ne hb.placed same

/-- Two integers of one type differ, although an integer of another type is
equal to both of them. -/
theorem compare_intransitive :
    (integer .int64 9007199254740992).compare (integer .uint64 9007199254740992) = .eq ∧
      (integer .uint64 9007199254740992).compare (integer .int64 9007199254740993) = .eq ∧
      (integer .int64 9007199254740992).compare (integer .int64 9007199254740993) = .lt := by
  decide +kernel

end Datum

end QueryOptimizer
