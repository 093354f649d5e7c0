import Mathlib.Algebra.Order.BigOperators.Group.List
import Mathlib.Algebra.Order.Field.Basic
import Mathlib.Analysis.SpecialFunctions.Log.Base
import Mathlib.Analysis.SpecialFunctions.Pow.Real
import QueryOptimizer.Number.Binary
import QueryOptimizer.Number.Quantity

/-!
# Laws of quantities

Estimates may be read in exact arithmetic: quantities are the elements of an
ordered field, their operations are those of the field, and written numbers are
what they say (`ExactQuantity`). Nothing is said about logarithms and powers. The
real numbers are such quantities.

Less is enough for the order of costs, in exact arithmetic and with rounding alike
(`OrderedQuantity`). Amounts are quantities that are not below zero. Among them the order is
total, though a quantity that is no number is not even at most itself. An amount does not fall
when another one is added to it, when it is multiplied with something that is not below one, or
when it is multiplied or divided by a small positive number. Floating-point numbers that are
rounded to the nearest one obey these laws, infinite ones included: a rounded sum of amounts is
no smaller than either of them, and infinity only meets factors that are not zero. The one
exception is a product with a count. If it is infinity times zero, it is no number.

Exact quantities are ordered. Sorting uses an order that is total on all quantities, be they
numbers or not (`SortedQuantity`).

## Main results

* `Quantity.larger_eq_max`, `Quantity.sum_eq`: the derived operations mean what they say.
* `Quantity.one_le_larger`: a number of rows that is raised to one is at least one.
* `Quantity.sum_nonneg`: sums of amounts are amounts.
-/

namespace QueryOptimizer

/-! ### Exact quantities -/

/-- Quantities that are computed with exactly. -/
class ExactQuantity (K : Type) extends Quantity K, Field K, LinearOrder K,
    IsStrictOrderedRing K where
  beq_iff : ∀ a b : K, (a == b) = true ↔ a = b
  ofScientific_eq : ∀ (digits : Nat) (below : Bool) (places : Nat),
    toQuantity.toOfScientific.ofScientific digits below places =
      ((OfScientific.ofScientific digits below places : ℚ) : K)
  ofNat_eq : ∀ n : Nat, (Quantity.ofNat n : K) = (n : K)

namespace Quantity

variable {K : Type} [ExactQuantity K]

-- A field can read written numbers as well; the ones in definitions are read by
-- the quantities.
instance (priority := high) : OfScientific K := Quantity.toOfScientific

instance : LawfulBEq K where
  eq_of_beq := (ExactQuantity.beq_iff _ _).1
  rfl := (ExactQuantity.beq_iff _ _).2 rfl

/-- The larger of two numbers is their maximum. -/
theorem larger_eq_max (a b : K) : larger a b = max a b := by
  unfold larger
  split
  · rename_i h
    exact (max_eq_left (le_of_lt h)).symm
  · rename_i h
    rw [if_pos BEq.rfl]
    exact (max_eq_right (le_of_not_gt h)).symm

/-- The smaller of two numbers is their minimum. -/
theorem smaller_eq_min (a b : K) : smaller a b = min a b := by
  unfold smaller
  split
  · rename_i h
    exact (min_eq_left (le_of_lt h)).symm
  · rename_i h
    rw [if_pos BEq.rfl]
    exact (min_eq_right (le_of_not_gt h)).symm

/-- The literal for one is one. -/
theorem one_eq : (1.0 : K) = 1 := by
  rw [ExactQuantity.ofScientific_eq]
  norm_num

/-- The literal for zero is zero. -/
theorem zero_eq : (0.0 : K) = 0 := by
  rw [ExactQuantity.ofScientific_eq]
  norm_num

/-- Exact quantities are finite. -/
theorem isFinite_eq_true (a : K) : isFinite a = true := by
  rw [isFinite, sub_self, zero_eq]
  exact BEq.rfl

/-- Sums start from negative zero, which is zero. -/
theorem sum_eq (as : List K) : sum as = as.sum := by
  have zero : (-0.0 : K) = 0 := by
    rw [ExactQuantity.ofScientific_eq]
    norm_num
  rw [sum, zero, List.sum_eq_foldl]

end Quantity

/-! ### Real numbers -/

/-- The real number that a floating-point word stands for. A word that stands for
none is read as zero. -/
noncomputable def Real.ofWord (word : UInt64) : ℝ :=
  match Number.binary64.decode word.toNat with
  | .finite negative mantissa exponent =>
    (if negative then -1 else 1) * (mantissa * (2 : ℝ) ^ exponent)
  | _ => 0

noncomputable instance : ExactQuantity ℝ where
  __ := (inferInstance : Field ℝ)
  __ := (inferInstance : LinearOrder ℝ)
  __ := (inferInstance : IsStrictOrderedRing ℝ)
  beq a b := decide (a = b)
  ofScientific digits below places := ((OfScientific.ofScientific digits below places : ℚ) : ℝ)
  decidableLT := inferInstance
  decidableLE := inferInstance
  ofNat n := n
  ofInt n := n
  ofWord := Real.ofWord
  tenPow n := 10 ^ n
  pow := (· ^ ·)
  log2 := Real.logb 2
  sortsBefore a b := decide (a ≤ b)
  ceilCount a := min ⌈a⌉₊ (2 ^ 64 - 1)
  beq_iff _ _ := decide_eq_true_iff
  ofScientific_eq _ _ _ := rfl
  ofNat_eq _ := rfl

/-! ### Ordered quantities -/

/-- Quantities whose order agrees with their arithmetic. -/
class OrderedQuantity (K : Type) [Quantity K] : Prop where
  le_of_lt : ∀ {a b : K}, a < b → a ≤ b
  le_trans : ∀ {a b c : K}, a ≤ b → b ≤ c → a ≤ c
  le_total : ∀ {a b : K}, 0.0 ≤ a → 0.0 ≤ b → a ≤ b ∨ b ≤ a
  one_beq_one : ((1.0 : K) == 1.0) = true
  zero_le_neg_zero : (0.0 : K) ≤ -0.0
  /-- Written numbers with one digit after the point are in the order of their digits. -/
  le_written : ∀ {m n : Nat}, m ≤ n →
    (OfScientific.ofScientific m true 1 : K) ≤ OfScientific.ofScientific n true 1
  zero_le_ofNat : ∀ n : Nat, (0.0 : K) ≤ Quantity.ofNat n
  le_add : ∀ {a b : K}, 0.0 ≤ a → 0.0 ≤ b → a ≤ a + b
  one_le_mul : ∀ {a b : K}, 1.0 ≤ a → 1.0 ≤ b → 1.0 ≤ a * b
  /-- An amount times a small positive number is an amount. -/
  zero_le_mul_written : ∀ {a : K} {n : Nat}, 0.0 ≤ a → 0 < n → n ≤ 1000 →
    0.0 ≤ a * OfScientific.ofScientific n true 1
  zero_le_div_hundred : ∀ {a : K}, 0.0 ≤ a → 0.0 ≤ a / 100.0
  /-- An amount times a count is an amount if it is a number. -/
  zero_le_mul_ofNat : ∀ {a : K} {n : Nat}, 0.0 ≤ a →
    (a * Quantity.ofNat n == a * Quantity.ofNat n) = true → 0.0 ≤ a * Quantity.ofNat n
  /-- What can be compared is a number. -/
  beq_self_of_le : ∀ {a b : K}, a ≤ b → (a == a) = true
  /-- Only numbers add up to a number. -/
  beq_self_of_add : ∀ {a b : K}, (a + b == a + b) = true → (a == a) = true ∧ (b == b) = true

namespace Quantity

variable {K : Type} [Quantity K]

/-- Whether a quantity is an amount or no number at all. -/
def NotNegative (a : K) : Prop :=
  (a == a) = true → 0.0 ≤ a

variable [OrderedQuantity K] {a b : K}

/-- Zero is at most one. -/
theorem zero_le_one : (0.0 : K) ≤ 1.0 :=
  OrderedQuantity.le_written (Nat.zero_le 10)

/-- What is not negative is a number, and so is at most itself. -/
theorem le_refl_of_nonneg (h : 0.0 ≤ a) : a ≤ a :=
  (OrderedQuantity.le_total h h).elim id id

/-- What is at least one is not negative. -/
theorem nonneg_of_one_le (h : 1.0 ≤ a) : 0.0 ≤ a :=
  OrderedQuantity.le_trans zero_le_one h

/-- A sum of numbers that are not negative is not negative, rounded or not. -/
theorem add_nonneg (ha : 0.0 ≤ a) (hb : 0.0 ≤ b) : 0.0 ≤ a + b :=
  OrderedQuantity.le_trans ha (OrderedQuantity.le_add ha hb)

omit [OrderedQuantity K] in
/-- What is at least zero is not below it. -/
theorem NotNegative.of_nonneg (h : 0.0 ≤ a) : NotNegative a :=
  fun _ => h

/-- A sum of what is not below zero is not below it. -/
theorem NotNegative.add (ha : NotNegative a) (hb : NotNegative b) : NotNegative (a + b) := by
  intro number
  obtain ⟨first, second⟩ := OrderedQuantity.beq_self_of_add number
  exact add_nonneg (ha first) (hb second)

/-- Whatever a number of rows was, it is raised to one. -/
theorem one_le_larger (a : K) : 1.0 ≤ larger a 1.0 := by
  unfold larger
  split
  · exact OrderedQuantity.le_of_lt ‹_›
  · rw [if_pos OrderedQuantity.one_beq_one]
    exact le_refl_of_nonneg zero_le_one

/-- Sums start from negative zero, which is an amount. -/
theorem sum_nonneg {as : List K} (h : ∀ a ∈ as, 0.0 ≤ a) : 0.0 ≤ sum as := by
  suffices from_amount : ∀ start : K, 0.0 ≤ start → 0.0 ≤ as.foldl (· + ·) start from
    from_amount _ OrderedQuantity.zero_le_neg_zero
  induction as with
  | nil => exact fun _ amount => amount
  | cons a as ih =>
    obtain ⟨first, others⟩ := List.forall_mem_cons.1 h
    exact fun start amount => ih others _ (add_nonneg amount first)

end Quantity

/-- Exact quantities are ordered. -/
instance {K : Type} [ExactQuantity K] : OrderedQuantity K := by
  have written (n : Nat) : (OfScientific.ofScientific n true 1 : K) = n / 10 := by
    have tenth : (OfScientific.ofScientific n true 1 : ℚ) = n / 10 := by
      rw [Rat.ofScientific_def_eq_if, if_pos rfl, pow_one]
    rw [ExactQuantity.ofScientific_eq, tenth]
    push_cast
    rfl
  have zero : (0.0 : K) = 0 := Quantity.zero_eq
  have one : (1.0 : K) = 1 := Quantity.one_eq
  have hundred : (100.0 : K) = 100 := by
    rw [written]
    norm_num
  refine {
    le_of_lt := le_of_lt
    le_trans := le_trans
    le_total := fun _ _ => le_total _ _
    one_beq_one := BEq.rfl
    zero_le_neg_zero := ?_
    le_written := fun h => ?_
    zero_le_ofNat := fun n => ?_
    le_add := fun ha hb => ?_
    one_le_mul := fun ha hb => ?_
    zero_le_mul_written := fun ha hn _ => ?_
    zero_le_div_hundred := fun ha => ?_
    zero_le_mul_ofNat := fun ha _ => ?_
    beq_self_of_le := fun _ => BEq.rfl
    beq_self_of_add := fun _ => ⟨BEq.rfl, BEq.rfl⟩ }
  · rw [zero, neg_zero]
  · rw [written, written]
    gcongr
  · rw [zero, ExactQuantity.ofNat_eq]
    exact Nat.cast_nonneg n
  · exact le_add_of_nonneg_right (zero ▸ hb)
  · rw [one] at *
    exact one_le_mul_of_one_le_of_one_le ha hb
  · rw [zero] at *
    rw [written]
    positivity
  · rw [zero] at *
    rw [hundred]
    positivity
  · rw [zero] at *
    rw [ExactQuantity.ofNat_eq]
    positivity

/-- Quantities whose sort order is total and extends the numeric order. -/
class SortedQuantity (K : Type) [Quantity K] : Prop where
  sortsBefore_total : ∀ a b : K, Quantity.sortsBefore a b = true ∨
    Quantity.sortsBefore b a = true
  sortsBefore_trans : ∀ {a b c : K}, Quantity.sortsBefore a b = true →
    Quantity.sortsBefore b c = true → Quantity.sortsBefore a c = true
  sortsBefore_eq_false : ∀ {a b : K}, a < b → Quantity.sortsBefore b a = false

instance : SortedQuantity ℝ where
  sortsBefore_total a b := by
    have total : a ≤ b ∨ b ≤ a := le_total a b
    simpa [Quantity.sortsBefore] using total
  sortsBefore_trans ab bc :=
    decide_eq_true ((of_decide_eq_true ab).trans (of_decide_eq_true bc))
  sortsBefore_eq_false less := decide_eq_false (not_le.2 less)

end QueryOptimizer
