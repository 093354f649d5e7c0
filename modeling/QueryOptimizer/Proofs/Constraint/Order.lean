import Mathlib.Order.Compare
import Mathlib.Order.WithBot
import QueryOptimizer.Datum

/-!
# The order of datums of one type

`Datum.compare` is total, but it is no order: datums of different types are compared by their
places on a numeric axis, and what cannot be compared counts as equal. The datums of one type
do lie on a line, with the null of the type before all values: a `Scale` places them in a
linear order, and `DataType.scale` gives one for each type.
-/

namespace QueryOptimizer

namespace Datum

/-- Whether a datum is of a type, be it a value or the null of the type. -/
def HasType (τ : DataType) (d : Datum) : Prop :=
  d.type = τ

/-- Whether a datum is a value of a type and no null. -/
structure IsValue (τ : DataType) (d : Datum) : Prop where
  type : d.HasType τ
  notNull : d.isNull = false

namespace IsValue

variable {d : Datum}

/-- A value of truth type is a truth value. -/
theorem eq_boolean (h : d.IsValue .boolean) : ∃ b, d = .boolean b := by
  obtain ⟨type, notNull⟩ := h
  cases d <;> simp_all [HasType, Datum.type, isNull]

/-- A value of an integer type is an integer of that type. -/
theorem eq_integer {t : IntegerType} (h : d.IsValue (.integer t)) : ∃ n, d = .integer t n := by
  obtain ⟨type, notNull⟩ := h
  cases d <;> simp_all [HasType, Datum.type, isNull]

/-- A value of single precision is a float of that kind. -/
theorem eq_float32 (h : d.IsValue .float32) : ∃ w, d = .float32 w := by
  obtain ⟨type, notNull⟩ := h
  cases d <;> simp_all [HasType, Datum.type, isNull]

/-- A value of double precision is a float of that kind. -/
theorem eq_float64 (h : d.IsValue .float64) : ∃ w, d = .float64 w := by
  obtain ⟨type, notNull⟩ := h
  cases d <;> simp_all [HasType, Datum.type, isNull]

/-- A value of a decimal type is a decimal of that type. -/
theorem eq_decimal {p : Nat} {s : Int} (h : d.IsValue (.decimal p s)) :
    ∃ n, d = .decimal p s n := by
  obtain ⟨type, notNull⟩ := h
  cases d <;> simp_all [HasType, Datum.type, isNull]

/-- A value of a text type is a text of that type. -/
theorem eq_text {t : TextType} (h : d.IsValue (.text t)) : ∃ s, d = .text t s := by
  obtain ⟨type, notNull⟩ := h
  cases d <;> simp_all [HasType, Datum.type, isNull]

/-- A value of binary type is a string of bytes. -/
theorem eq_binary (h : d.IsValue .binary) : ∃ bytes, d = .binary bytes := by
  obtain ⟨type, notNull⟩ := h
  cases d <;> simp_all [HasType, Datum.type, isNull]

end IsValue

end Datum

/-- The datums of a type on a line. Datums at one place count as equal. -/
structure Scale (τ : DataType) where
  Carrier : Type
  order : LinearOrder Carrier
  place : Datum → Carrier
  compares : ∀ ⦃a b : Datum⦄, a.HasType τ → b.HasType τ →
    (a.compare b).Compares (place a) (place b)

instance {τ : DataType} (s : Scale τ) : LinearOrder s.Carrier := s.order

namespace Scale

variable {τ : DataType} {α : Type} [Ord α] [Std.TransOrd α] [Std.LawfulEqOrd α]

/-- A value compares as less if its place is less. -/
theorem compare_eq_lt (s : Scale τ) {a b : Datum} (ha : a.HasType τ) (hb : b.HasType τ) :
    a.compare b = .lt ↔ s.place a < s.place b :=
  (s.compares ha hb).eq_lt

/-- Values compare as equal if they have the same place. -/
theorem compare_eq_eq (s : Scale τ) {a b : Datum} (ha : a.HasType τ) (hb : b.HasType τ) :
    a.compare b = .eq ↔ s.place a = s.place b :=
  (s.compares ha hb).eq_eq

/-- A value compares as greater if its place is greater. -/
theorem compare_eq_gt (s : Scale τ) {a b : Datum} (ha : a.HasType τ) (hb : b.HasType τ) :
    a.compare b = .gt ↔ s.place b < s.place a :=
  (s.compares ha hb).eq_gt

/-- The order that a comparison decides. -/
@[reducible] def preorderOfOrd (α : Type) [Ord α] [Std.TransOrd α] : Preorder α where
  le a b := (compare a b).isLE = true
  lt a b := compare a b = .lt
  le_refl _ := Std.ReflOrd.isLE_rfl
  le_trans _ _ _ := Std.TransOrd.isLE_trans
  lt_iff_le_not_ge a b := by
    rw [Std.OrientedOrd.eq_swap (a := b)]
    cases compare a b <;> simp

/-- The comparison of a linear order compares. -/
theorem compares_ord (a b : α) :
    letI := preorderOfOrd α
    (compare a b).Compares a b := by
  cases h : compare a b with
  | lt => exact h
  | eq => exact Std.LawfulEqOrd.eq_of_compare h
  | gt =>
    change compare b a = .lt
    rwa [← Std.OrientedCmp.gt_iff_lt]

/-- The values of a type in the order of something that each of them has, behind the null. -/
def ofOrd (place : Datum → α)
    (same : ∀ a b, a.IsValue τ → b.IsValue τ → a.compare b = compare (place a) (place b)) :
    Scale τ where
  Carrier := WithBot α
  order :=
    letI := preorderOfOrd α
    letI := linearOrderOfCompares (α := α) compare compares_ord
    inferInstance
  place d := if d.isNull then ⊥ else (place d : WithBot α)
  compares a b ha hb := by
    let _ := preorderOfOrd α
    cases hna : a.isNull <;> cases hnb : b.isNull
    · rw [same a b ⟨ha, hna⟩ ⟨hb, hnb⟩]
      have compares := compares_ord (place a) (place b)
      cases h : compare (place a) (place b) <;> rw [h] at compares
      · exact WithBot.coe_lt_coe.2 compares
      · exact congrArg WithBot.some compares
      · exact WithBot.coe_lt_coe.2 compares
    · rw [show a.compare b = .gt by simp [Datum.compare, hna, hnb]]
      exact WithBot.bot_lt_coe _
    · rw [show a.compare b = .lt by simp [Datum.compare, hna, hnb]]
      exact WithBot.bot_lt_coe _
    · rw [show a.compare b = .eq by simp [Datum.compare, hna, hnb]]
      rfl

end Scale

/-- The datums of a type on a line: truth values, numbers, decimals without their scale,
strings or bytes in their own order, floating-point words in their total order. -/
def DataType.scale : (τ : DataType) → Scale τ
  | .null => .ofOrd (fun _ => false) fun a b ha hb => by
    cases a <;> cases ha.type
    cases ha.notNull
  | .boolean => .ofOrd (fun | .boolean b => b | _ => false) fun a b ha hb => by
    obtain ⟨x, rfl⟩ := ha.eq_boolean
    obtain ⟨y, rfl⟩ := hb.eq_boolean
    rfl
  | .integer t => .ofOrd (fun | .integer _ n => n | _ => 0) fun a b ha hb => by
    obtain ⟨x, rfl⟩ := ha.eq_integer
    obtain ⟨y, rfl⟩ := hb.eq_integer
    simp [Datum.compare, Datum.compareWithin?, Datum.isNull]
  | .float32 => .ofOrd (fun | .float32 w => Number.binary32.orderKey w.toNat | _ => 0)
    fun a b ha hb => by
      obtain ⟨x, rfl⟩ := ha.eq_float32
      obtain ⟨y, rfl⟩ := hb.eq_float32
      rfl
  | .float64 => .ofOrd (fun | .float64 w => Number.orderKey w | _ => 0) fun a b ha hb => by
    obtain ⟨x, rfl⟩ := ha.eq_float64
    obtain ⟨y, rfl⟩ := hb.eq_float64
    rfl
  | .decimal p s => .ofOrd (fun | .decimal _ _ n => n | _ => 0) fun a b ha hb => by
    obtain ⟨x, rfl⟩ := ha.eq_decimal
    obtain ⟨y, rfl⟩ := hb.eq_decimal
    simp [Datum.compare, Datum.compareWithin?, Datum.isNull]
  | .text t => .ofOrd (fun | .text _ s => s | _ => "") fun a b ha hb => by
    obtain ⟨x, rfl⟩ := ha.eq_text
    obtain ⟨y, rfl⟩ := hb.eq_text
    simp [Datum.compare, Datum.compareWithin?, Datum.isNull]
  | .binary => .ofOrd (fun | .binary bytes => bytes | _ => []) fun a b ha hb => by
    obtain ⟨x, rfl⟩ := ha.eq_binary
    obtain ⟨y, rfl⟩ := hb.eq_binary
    rfl

/-- Different words have different keys in the order of floats. -/
theorem Number.Format.orderKey_injective (f : Number.Format) :
    Function.Injective f.orderKey := by
  intro v w same
  unfold Number.Format.orderKey at same
  split at same <;> split at same <;> omega

/-- Values of one type that compare equal are one value. -/
theorem Datum.eq_of_compare_eq {τ : DataType} {a b : Datum} (ha : a.IsValue τ)
    (hb : b.IsValue τ) (equal : a.compare b = .eq) : a = b := by
  cases τ with
  | null => cases a <;> cases ha.type; cases ha.notNull
  | boolean =>
    obtain ⟨x, rfl⟩ := ha.eq_boolean
    obtain ⟨y, rfl⟩ := hb.eq_boolean
    exact congrArg _ (Std.LawfulEqOrd.eq_of_compare equal)
  | integer t =>
    obtain ⟨x, rfl⟩ := ha.eq_integer
    obtain ⟨y, rfl⟩ := hb.eq_integer
    simp only [compare, isNull, compareWithin?, if_true] at equal
    exact congrArg _ (Std.LawfulEqOrd.eq_of_compare equal)
  | float32 =>
    obtain ⟨x, rfl⟩ := ha.eq_float32
    obtain ⟨y, rfl⟩ := hb.eq_float32
    have words := Number.binary32.orderKey_injective (Std.LawfulEqOrd.eq_of_compare equal)
    exact congrArg _ (UInt32.toNat_inj.1 words)
  | float64 =>
    obtain ⟨x, rfl⟩ := ha.eq_float64
    obtain ⟨y, rfl⟩ := hb.eq_float64
    have words := Number.binary64.orderKey_injective (Std.LawfulEqOrd.eq_of_compare equal)
    exact congrArg _ (UInt64.toNat_inj.1 words)
  | decimal p s =>
    obtain ⟨x, rfl⟩ := ha.eq_decimal
    obtain ⟨y, rfl⟩ := hb.eq_decimal
    simp only [compare, isNull, compareWithin?, and_self, if_true] at equal
    exact congrArg _ (Std.LawfulEqOrd.eq_of_compare equal)
  | text t =>
    obtain ⟨x, rfl⟩ := ha.eq_text
    obtain ⟨y, rfl⟩ := hb.eq_text
    simp only [compare, isNull, compareWithin?, if_true] at equal
    exact congrArg _ (Std.LawfulEqOrd.eq_of_compare equal)
  | binary =>
    obtain ⟨x, rfl⟩ := ha.eq_binary
    obtain ⟨y, rfl⟩ := hb.eq_binary
    exact congrArg _ (Std.LawfulEqOrd.eq_of_compare equal)

end QueryOptimizer
