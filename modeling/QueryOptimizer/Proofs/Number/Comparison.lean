import Mathlib
import QueryOptimizer.Number.Binary64
import QueryOptimizer.Proofs.Number.Quantity

/-!
# Comparisons of floating-point words

Comparisons of machine values are defined on unpacked values: a sign, a mantissa and an
exponent, or one of the special cases. A word is also packed again before it is compared, which
changes nothing but the words that are no numbers (`unpack_pack_unpack`). The exponent lies
above the mantissa in a word, so two magnitudes are compared like the natural numbers that they
are in the words (`compare_exponent_mantissa`).

So words that are numbers are compared by their places on a line, where both
zeros are at the origin.

## Main results

* `Binary64.lt_iff`, `Binary64.le_iff`, `Binary64.beq_iff`: numbers are compared by their
  places, and nothing else compares.
* `Binary64.orderKey_lt_of_lt`: the total order of words extends the numeric order, so words
  are a `SortedQuantity`.
-/

namespace QueryOptimizer.Binary64

open Float.Model Float.Model.UnpackedFloat

/-! ### Words and their parts -/

/-- The magnitude of infinity. What is above it is no number. -/
def infinite : Nat := 0x7FF0000000000000

/-- The mantissa of a finite magnitude. All but the smallest ones have a leading bit
that is not stored. -/
def mantissa (g : Nat) : Nat :=
  if g < 2 ^ 52 then g else 2 ^ 52 + g % 2 ^ 52

/-- The exponent of a finite magnitude. -/
def exponent (g : Nat) : Int :=
  if g < 2 ^ 52 then -1074 else g / 2 ^ 52 - 1075

/-- The mantissa of a number other than zero is positive. -/
theorem mantissa_pos {g : Nat} (pos : 0 < g) : 0 < mantissa g := by
  unfold mantissa
  split <;> omega

/-- The value that a sign and a magnitude stand for. -/
def reading (s : Sign) (g : Nat) : UnpackedFloat :=
  if infinite < g then .notANumber
  else if g = infinite then .infinity s
  else if pos : 0 < g then .finite s (mantissa g) (exponent g) (mantissa_pos pos)
  else .zero s

variable (s : Sign) (e : BitVec 11) (m : BitVec 52)

/-- The word that is packed of a sign, an exponent and a mantissa. -/
theorem toNat_packComponents : (packComponents .binary64 s e m).toNat =
    s.toBitVec.toNat * 2 ^ 63 + e.toNat * 2 ^ 52 + m.toNat := by
  change (s.toBitVec ++ e ++ m).toNat = _
  rw [BitVec.toNat_append, BitVec.toNat_append, ← Nat.shiftLeft_add_eq_or_of_lt m.isLt,
    ← Nat.shiftLeft_add_eq_or_of_lt e.isLt, Nat.shiftLeft_eq, Nat.shiftLeft_eq]
  omega

/-- What is unpacked is the reading of the bits that were packed. -/
theorem unpack_packComponents :
    UnpackedFloat.unpack .binary64 (packComponents .binary64 s e m) =
    reading s (e.toNat * 2 ^ 52 + m.toNat) := by
  have high := e.isLt
  have low := m.isLt
  have all_bits : e = -1#11 ↔ e.toNat = 2047 := by
    rw [← BitVec.toNat_inj]
    rfl
  have no_bits : e = 0#11 ↔ e.toNat = 0 := by
    rw [← BitVec.toNat_inj]
    rfl
  have nothing : m = 0#52 ↔ m.toNat = 0 := by
    rw [← BitVec.toNat_inj]
    rfl
  have leading : (1#1 ++ m).toNat = 2 ^ 52 + m.toNat := by
    rw [BitVec.toNat_append, ← Nat.shiftLeft_add_eq_or_of_lt m.isLt]
    rfl
  have bias : Format.binary64.exponentBias = 1023 := rfl
  simp only [UnpackedFloat.unpack, unpackSign_packComponents, unpackExponent_packComponents,
    unpackMantissa_packComponents, Sign.ofBitVec_toBitVec, all_bits, no_bits, nothing, bias]
  split
  · split
    · rw [reading, infinite, if_neg (by omega), if_pos (by omega)]
    · rw [reading, infinite, if_pos (by omega)]
  · split
    · split
      · rw [reading, infinite, if_neg (by omega), if_neg (by omega), dif_neg (by omega)]
      · rw [reading, infinite, if_neg (by omega), if_neg (by omega), dif_pos (by omega)]
        have small : e.toNat * 2 ^ 52 + m.toNat < 2 ^ 52 := by omega
        simp only [UnpackedFloat.finite.injEq, true_and, mantissa, exponent, if_pos small]
        omega
    · rw [reading, infinite, if_neg (by omega), if_neg (by omega), dif_pos (by omega)]
      have large : ¬ e.toNat * 2 ^ 52 + m.toNat < 2 ^ 52 := by omega
      simp only [UnpackedFloat.finite.injEq, true_and, mantissa, exponent, if_neg large]
      refine ⟨leading.trans ?_, ?_⟩ <;> omega

/-- The sign of a word. -/
def signOf (word : UInt64) : Sign :=
  if word.toNat < 2 ^ 63 then .positive else .negative

/-- A word stands for the reading of its sign and its magnitude. -/
theorem unpack_word (word : UInt64) :
    UnpackedFloat.unpack .binary64 word.toBitVec =
      reading (signOf word) (word.toNat % 2 ^ 63) := by
  have bound := word.toNat_lt
  have parts : word.toBitVec = packComponents .binary64 (signOf word)
      (BitVec.ofNat 11 (word.toNat / 2 ^ 52)) (BitVec.ofNat 52 word.toNat) := by
    refine BitVec.eq_of_toNat_eq ?_
    rw [toNat_packComponents, BitVec.toNat_ofNat, BitVec.toNat_ofNat,
      UInt64.toNat_toBitVec, signOf]
    split
    · change _ = 0 * 2 ^ 63 + _ + _
      omega
    · change _ = 1 * 2 ^ 63 + _ + _
      omega
  rw [parts, unpack_packComponents, BitVec.toNat_ofNat, BitVec.toNat_ofNat]
  congr 1
  omega

/-- Packing keeps what a word stands for. -/
theorem unpack_pack_unpack (word : BitVec 64) :
    UnpackedFloat.unpack .binary64
      (UnpackedFloat.pack .binary64 (UnpackedFloat.unpack .binary64 word)) =
      UnpackedFloat.unpack .binary64 word := by
  rw [pack_unpack]
  split
  · rename_i nan
    simp only [isNaNBits, decide_eq_true_eq] at nan
    rw [unpack_packedNaN]
    exact ((if_pos nan.1).trans (if_neg nan.2)).symm
  · rfl

/-! ### Comparing -/

/-- Magnitudes are compared by exponent and mantissa. -/
theorem compare_exponent_mantissa (g h : Nat) :
    (compare (exponent g) (exponent h)).then (compare (mantissa g) (mantissa h)) =
      compare g h := by
  have lower {g h : Nat} (less : g < h) :
      (compare (exponent g) (exponent h)).then (compare (mantissa g) (mantissa h)) = .lt := by
    have parts : exponent g < exponent h ∨ exponent g = exponent h ∧
        mantissa g < mantissa h := by
      unfold exponent mantissa
      split <;> split <;> omega
    rcases parts with below | ⟨same, below⟩
    · rw [Int.compare_eq_lt.2 below]
      rfl
    · rw [Int.compare_eq_eq.2 same, Nat.compare_eq_lt.2 below]
      rfl
  rcases Nat.lt_trichotomy g h with less | rfl | more
  · rw [lower less, Nat.compare_eq_lt.2 less]
  · simp
  · have swapped := congrArg Ordering.swap (lower more)
    rw [Ordering.swap_then, Int.compare_swap, Nat.compare_swap] at swapped
    exact swapped.trans (Nat.compare_eq_gt.2 more).symm

/-- A magnitude with a sign. -/
def signed : Sign → Nat → Int
  | .positive, g => g
  | .negative, g => -g

/-- Readings compare as their signed magnitudes do. -/
theorem compare_reading {s t : Sign} {g h : Nat} (hg : g ≤ infinite) (hh : h ≤ infinite) :
    (reading s g).compare (reading t h) = some (compare (signed s g) (signed t h)) := by
  have lt {a b : Int} (below : a < b) : some Ordering.lt = some (compare a b) :=
    congrArg some (Int.compare_eq_lt.2 below).symm
  have gt {a b : Int} (above : b < a) : some Ordering.gt = some (compare a b) :=
    congrArg some (Int.compare_eq_gt.2 above).symm
  have eq {a b : Int} (same : a = b) : some Ordering.eq = some (compare a b) :=
    congrArg some (Int.compare_eq_eq.2 same).symm
  have both : compare (g : Int) h = compare g h := by
    simp only [Int.compare_eq_ite_lt, Nat.compare_eq_ite_lt, Int.ofNat_lt]
  have negated : compare (-g : Int) (-h) = (compare g h).swap := by
    rw [← both, Int.compare_swap, Int.compare_eq_ite_lt, Int.compare_eq_ite_lt]
    simp only [Int.neg_lt_neg_iff]
  have origin : 0 < infinite := by decide
  simp only [reading, if_neg (Nat.not_lt.2 hg), if_neg (Nat.not_lt.2 hh)]
  -- each of the two is infinite, finite or zero, with either sign
  split_ifs <;> cases s <;> cases t <;> simp only [UnpackedFloat.compare, signed] <;>
    first
    | (refine lt ?_; omega)
    | (refine gt ?_; omega)
    | (refine eq ?_; omega)
    | rw [compare_exponent_mantissa, both]
    | rw [compare_exponent_mantissa, negated]

/-! ### Numbers -/

variable {a b : Binary64}

/-- The magnitude of a word. -/
def magnitude (a : Binary64) : Nat :=
  a.word.toNat % 2 ^ 63

/-- Whether a word is a number, be it infinite. -/
def IsNumber (a : Binary64) : Prop :=
  a.magnitude ≤ infinite

instance : Decidable a.IsNumber := Nat.decLe _ _

/-- The place of a word on a line, where both zeros are at the origin. -/
def place (a : Binary64) : Int :=
  signed (signOf a.word) a.magnitude

/-- The place of a double, from its word. -/
theorem place_mk (word : UInt64) : place ⟨word⟩ =
    if word.toNat < 2 ^ 63 then (word.toNat : Int) else 2 ^ 63 - word.toNat := by
  have bound := word.toNat_lt
  change signed (signOf word) (word.toNat % 2 ^ 63) = _
  unfold signOf
  split <;> simp only [signed] <;> omega

/-- A double stands for the reading of its sign and its magnitude. -/
theorem unpack_ofBits (a : Binary64) :
    (Float.Model.ofBits a.word).unpack = reading (signOf a.word) a.magnitude := by
  have repacked : (Float.Model.ofBits a.word).unpack = UnpackedFloat.unpack .binary64
    (UnpackedFloat.pack .binary64 (UnpackedFloat.unpack .binary64 a.word.toBitVec)) := rfl
  rw [repacked, unpack_pack_unpack, unpack_word, magnitude]

/-- Numbers are compared by their places, and nothing else compares. -/
theorem compare_ofBits (a b : Binary64) :
    (Float.Model.ofBits a.word).unpack.compare (Float.Model.ofBits b.word).unpack =
      if a.IsNumber ∧ b.IsNumber then some (compare a.place b.place) else none := by
  rw [unpack_ofBits, unpack_ofBits]
  split
  · rename_i numbers
    exact compare_reading numbers.1 numbers.2
  · rename_i other
    by_cases ha : a.IsNumber
    · have nan : infinite < b.magnitude := Nat.lt_of_not_le fun hb => other ⟨ha, hb⟩
      rw [reading.eq_1 _ b.magnitude, if_pos nan]
      cases reading (signOf a.word) a.magnitude <;> rfl
    · rw [reading, if_pos (Nat.lt_of_not_le ha)]
      rfl

/-- Numbers are in order if their places are; what is no number is in order with nothing. -/
theorem lt_iff : a < b ↔ a.IsNumber ∧ b.IsNumber ∧ a.place < b.place := by
  have compared : a < b ↔ ((Float.Model.ofBits a.word).unpack.compare
      (Float.Model.ofBits b.word).unpack == some .lt) = true := decide_eq_true_iff
  rw [compared, compare_ofBits, beq_iff_eq]
  split <;> simp_all [Int.compare_eq_lt]

/-- Numbers are in order, or equal, if their places are. -/
theorem le_iff : a ≤ b ↔ a.IsNumber ∧ b.IsNumber ∧ a.place ≤ b.place := by
  have compared : a ≤ b ↔ ((Float.Model.ofBits a.word).unpack.compare
      (Float.Model.ofBits b.word).unpack).any (·.isLE) = true := decide_eq_true_iff
  rw [compared, compare_ofBits]
  split <;> simp_all [Int.isLE_compare]

/-- Numbers are equal if their places are. -/
theorem beq_iff : (a == b) = true ↔ a.IsNumber ∧ b.IsNumber ∧ a.place = b.place := by
  have compared : (a == b) = ((Float.Model.ofBits a.word).unpack.compare
      (Float.Model.ofBits b.word).unpack == some .eq) := rfl
  rw [compared, compare_ofBits, beq_iff_eq]
  split <;> simp_all

/-- The total order of words extends the numeric order. -/
theorem orderKey_lt_of_lt (below : a < b) :
    Number.orderKey a.word < Number.orderKey b.word := by
  obtain ⟨-, -, places⟩ := lt_iff.1 below
  have key (w : UInt64) : Number.orderKey w =
      if w.toNat < 2 ^ 63 then (w.toNat : Int) else 2 ^ 63 - 1 - w.toNat := rfl
  rw [place_mk, place_mk] at places
  rw [key, key]
  split_ifs at * <;> omega

instance : SortedQuantity Binary64 where
  sortsBefore_total a b := by
    have total := Int.le_total (Number.orderKey a.word) (Number.orderKey b.word)
    simpa [Quantity.sortsBefore] using total
  sortsBefore_trans ab bc :=
    decide_eq_true ((of_decide_eq_true ab).trans (of_decide_eq_true bc))
  sortsBefore_eq_false below := decide_eq_false (Int.not_le.2 (orderKey_lt_of_lt below))

end QueryOptimizer.Binary64
