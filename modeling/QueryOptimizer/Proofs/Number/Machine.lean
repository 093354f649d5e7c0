import QueryOptimizer.Proofs.Number.Rounding

/-!
# Machine arithmetic

Machine values are added, multiplied and divided exactly, and then rounded. Low bits of the
mantissa are cut off until it fits, and what was cut off decides whether the bits that are left
are raised by one (`rounded_bounds`). A mantissa that no longer fits then goes on with the next
exponent. In a word the exponent lies above the mantissa, so in all cases the magnitude of the
result is one sum (`place_roundWithAccuracy`).

So rounding does not go below any number that is not above the exact result
(`le_place_roundWithAccuracy`). A rounded sum of amounts is at least as large as each of them,
and a rounded product of numbers that are not below one is not below one. Signs are exact, and
a result is no number only where that is said. These are the laws of `OrderedQuantity`.

## Main results

* `Binary64.le_add`, `Binary64.one_le_mul`: rounded sums and products do not get too small.
* Doubles are an `OrderedQuantity`.
-/

namespace QueryOptimizer.Binary64

open Float.Model Float.Model.UnpackedFloat

/-! ### Packing -/

/-- The double that a machine value is packed into. -/
def packed (u : UnpackedFloat) : Binary64 :=
  ⟨UInt64.ofBitVec (UnpackedFloat.pack .binary64 u)⟩

section Components

variable (s : Sign) (x : BitVec 11) (y : BitVec 52)

/-- The magnitude of a word that is packed of a sign, an exponent and a mantissa. -/
theorem magnitude_packComponents :
    magnitude ⟨UInt64.ofBitVec (packComponents .binary64 s x y)⟩ =
      x.toNat * 2 ^ 52 + y.toNat := by
  have high := x.isLt
  have low := y.isLt
  have sign := s.toBitVec.isLt
  rw [magnitude, UInt64.toNat_ofBitVec, toNat_packComponents]
  omega

/-- A positive word is at the place of its magnitude. -/
theorem place_packComponents :
    place ⟨UInt64.ofBitVec (packComponents .binary64 .positive x y)⟩ =
      x.toNat * 2 ^ 52 + y.toNat := by
  have high := x.isLt
  have low := y.isLt
  have sign : Sign.positive.toBitVec.toNat = 0 := rfl
  rw [place_mk, UInt64.toNat_ofBitVec, toNat_packComponents, sign, if_pos (by omega)]
  push_cast
  omega

end Components

/-- Only what is no number is packed into a word that is none. -/
theorem isNumber_packed {u : UnpackedFloat} :
    (packed u).IsNumber ↔ u ≠ .notANumber := by
  refine ⟨?_, fun number => ?_⟩
  · rintro number rfl
    exact absurd number (by decide)
  have infinity (s : Sign) : (packed (.infinity s)).IsNumber := by
    cases s <;> decide
  cases u with
  | notANumber => exact absurd rfl number
  | infinity s => exact infinity s
  | zero s => cases s <;> decide
  | finite s m e pos =>
    have low := (BitVec.ofNat 52 m).isLt.le
    unfold packed UnpackedFloat.pack
    dsimp only
    split
    · exact infinity s
    · rename_i small
      have high (k : Nat) (below : ¬2 ^ 11 ≤ k + 1) : (BitVec.ofNat 11 k).toNat ≤ 2046 := by
        rw [BitVec.toNat_ofNat]
        omega
      split <;> refine (magnitude_packComponents s _ _).trans_le ?_
      · exact (Nat.add_le_add (Nat.mul_le_mul_right _ (high _ small)) low).trans (by decide)
      · exact (Nat.add_le_add (Nat.mul_le_mul_right _ (Nat.zero_le 2046)) low).trans
          (by decide)

/-- The place of a positive number whose mantissa has 53 bits, or less with the least
exponent. It is infinite if the exponent is too large. -/
theorem place_packed_finite {m : Nat} {e : Int} (pos : 0 < m)
    (canonical : 2 ^ 52 ≤ m ∧ m < 2 ^ 53 ∧ -1074 ≤ e ∨ m < 2 ^ 52 ∧ e = -1074) :
    place (packed (.finite .positive m e pos)) =
      min ((e + 1074) * 2 ^ 52 + m) (infinite : Int) := by
  have normal_iff : m.log2 + 1 = Format.binary64.mantissaBits ↔ 2 ^ 52 ≤ m := by
    have bits : Format.binary64.mantissaBits = 53 := rfl
    have below : m.log2 < 53 := (Nat.log2_lt pos.ne').2 (by omega)
    have above : 52 ≤ m.log2 ↔ 2 ^ 52 ≤ m := Nat.le_log2 pos.ne'
    omega
  have biased : e + (Format.binary64.exponentBias : Int) +
      (Format.binary64.mantissaBitsWithoutImplicit : Int) = e + 1075 := by
    have bias : (Format.binary64.exponentBias : Int) = 1023 := rfl
    have bits : (Format.binary64.mantissaBitsWithoutImplicit : Int) = 52 := rfl
    rw [bias, bits]
    omega
  have components : UnpackedFloat.pack .binary64 (.finite .positive m e pos) =
      if 2 ^ 11 ≤ (e + 1075).toNat + 1 then packedInfinity .binary64 .positive
      else if 2 ^ 52 ≤ m then packComponents .binary64 .positive
        (BitVec.ofNat 11 (e + 1075).toNat) (BitVec.ofNat 52 m)
      else packComponents .binary64 .positive 0 (BitVec.ofNat 52 m) := by
    unfold UnpackedFloat.pack
    simp only [biased, normal_iff]
    rfl
  have top : (infinite : Int) = 2047 * 2 ^ 52 := rfl
  rw [packed, components]
  by_cases large : 2 ^ 11 ≤ (e + 1075).toNat + 1
  · rw [if_pos large]
    refine (place_packComponents _ _).trans ?_
    change (2047 : Int) * 2 ^ 52 + 0 = _
    omega
  rw [if_neg large]
  by_cases normal : 2 ^ 52 ≤ m
  · rw [if_pos normal, place_packComponents, BitVec.toNat_ofNat, BitVec.toNat_ofNat]
    omega
  · rw [if_neg normal]
    refine (place_packComponents _ _).trans ?_
    rw [BitVec.toNat_ofNat]
    change (0 : Int) * 2 ^ 52 + _ = _
    omega

/-! ### Rounding -/

/-- What is left of a mantissa when low bits are cut off. -/
theorem mantissa_shiftRight (em : ExtendedMantissa) (k : Nat) :
    (em >>> k).mantissa = em.mantissa / 2 ^ k := by
  induction k with
  | zero => simp [HShiftRight.hShiftRight, Nat.repeat]
  | succ k ih =>
    change (em >>> k).mantissa / 2 = _
    rw [ih, Nat.div_div_eq_div_mul, pow_succ]

/-- Rounding raises a mantissa by one at most. -/
theorem roundedMantissa_bounds (em : ExtendedMantissa) :
    em.mantissa ≤ em.roundedMantissa ∧ em.roundedMantissa ≤ em.mantissa + 1 := by
  obtain ⟨m, first, rest⟩ := em
  cases first <;> cases rest <;>
    simp only [ExtendedMantissa.roundedMantissa, ExtendedMantissa.accuracy,
      Accuracy.roundToNearestEven] <;> omega

/-- The exponent to which a positive value is rounded. -/
def quantum (m : Nat) (e : Int) : Int :=
  max (m.log2 + e - 52) (-1074)

/-- The mantissa of a value after rounding. -/
def rounded (m : Nat) (e : Int) : Nat :=
  ExtendedMantissa.roundedMantissa
    ((⟨m, false, false⟩ : ExtendedMantissa) >>> (quantum m e - e).toNat)

variable {m : Nat} {e : Int}

/-- Values are rounded to the exponent of the format. -/
theorem targetExponent_eq (m : Nat) (e : Int) :
    Format.binary64.targetExponent (totalExponent m e) = quantum m e := by
  have bits : (Format.binary64.mantissaBits : Int) = 53 := rfl
  have least : Format.binary64.minExponent = -1074 := rfl
  rw [Format.targetExponent, totalExponent, bits, least, quantum]
  omega

/-- The mantissa is cut off, and raised by one at most. -/
theorem rounded_bounds (m : Nat) (e : Int) :
    m / 2 ^ (quantum m e - e).toNat ≤ rounded m e ∧
      rounded m e ≤ m / 2 ^ (quantum m e - e).toNat + 1 := by
  have bounds := roundedMantissa_bounds
    ((⟨m, false, false⟩ : ExtendedMantissa) >>> (quantum m e - e).toNat)
  rwa [mantissa_shiftRight] at bounds

/-- A rounded mantissa has 53 bits, or is the first number with more. -/
theorem rounded_le (pos : 0 < m) : rounded m e ≤ 2 ^ 53 := by
  obtain ⟨-, upper⟩ := Number.log2_bounds pos.ne'
  have short : m / 2 ^ (quantum m e - e).toNat < 2 ^ 53 := by
    rw [Nat.div_lt_iff_lt_mul (Nat.two_pow_pos _), ← pow_add]
    refine upper.trans_le (Nat.pow_le_pow_right (by decide) ?_)
    unfold quantum
    omega
  exact (rounded_bounds m e).2.trans short

/-- A rounded mantissa has no less than 53 bits unless its exponent is the least one. -/
theorem le_rounded (pos : 0 < m) (fine : e ≤ quantum m e) (normal : quantum m e ≠ -1074) :
    2 ^ 52 ≤ rounded m e := by
  obtain ⟨lower, -⟩ := Number.log2_bounds pos.ne'
  refine le_trans ?_ (rounded_bounds m e).1
  rw [Nat.le_div_iff_mul_le (Nat.two_pow_pos _), ← pow_add]
  refine (Nat.pow_le_pow_right (by decide) ?_).trans lower
  unfold quantum at *
  omega

/-- A mantissa that fits stays as it is. -/
theorem shiftToTargetExponent_of_lt (short : m < 2 ^ 53) (least : -1074 ≤ e) :
    shiftToTargetExponent .binary64 m e .exact = (⟨m, false, false⟩, e) := by
  have nothing : (quantum m e - e).toNat = 0 := by
    have log : m.log2 < 53 := by
      rcases Nat.eq_zero_or_pos m with rfl | pos
      · decide
      · exact (Nat.log2_lt pos.ne').2 short
    unfold quantum
    omega
  rw [shiftToTargetExponent, targetExponent_eq, shiftToExponent, nothing]
  simp [HShiftRight.hShiftRight, Nat.repeat, ExtendedMantissa.ofMantissaAndAccuracy]

/-- The first mantissa that does not fit loses its last bit, which is not set. -/
theorem shiftToTargetExponent_of_eq (least : -1074 ≤ e) :
    shiftToTargetExponent .binary64 (2 ^ 53) e .exact = (⟨2 ^ 52, false, false⟩, e + 1) := by
  have one : (quantum (2 ^ 53) e - e).toNat = 1 := by
    rw [quantum, Nat.log2_two_pow]
    omega
  rw [shiftToTargetExponent, targetExponent_eq, shiftToExponent, one]
  simp [HShiftRight.hShiftRight, Nat.repeat, ExtendedMantissa.ofMantissaAndAccuracy,
    ExtendedMantissa.shiftRightOne]

/-- A value is rounded, and fitted again if rounding has made the mantissa too long. -/
theorem roundWithAccuracy_eq {s : Sign} {accuracy : Accuracy} {em em' : ExtendedMantissa}
    {t t' : Int} (first : shiftToTargetExponent .binary64 m e accuracy = (em, t))
    (second : shiftToTargetExponent .binary64 em.roundedMantissa t .exact = (em', t')) :
    roundWithAccuracy .binary64 s m e accuracy =
      if h : em'.mantissa = 0 then .zero s
      else .finite s em'.mantissa t' (Nat.pos_of_ne_zero h) := by
  simp only [roundWithAccuracy, first, second]

/-- The place of a rounded value. -/
theorem place_roundWithAccuracy (pos : 0 < m) (fine : e ≤ quantum m e) :
    place (packed (roundWithAccuracy .binary64 .positive m e .exact)) =
      min ((quantum m e + 1074) * 2 ^ 52 + rounded m e) (infinite : Int) := by
  have least : -1074 ≤ quantum m e := le_max_right _ _
  have upper := rounded_le (e := e) pos
  have lower := le_rounded pos fine
  have first : shiftToTargetExponent .binary64 m e .exact =
      ((⟨m, false, false⟩ : ExtendedMantissa) >>> (quantum m e - e).toNat, quantum m e) := by
    rw [shiftToTargetExponent, targetExponent_eq, shiftToExponent]
    congr 1
    omega
  by_cases carry : rounded m e = 2 ^ 53
  · have second := shiftToTargetExponent_of_eq least
    have canonical : 2 ^ 52 ≤ 2 ^ 52 ∧ 2 ^ 52 < 2 ^ 53 ∧ -1074 ≤ quantum m e + 1 := by omega
    rw [← carry] at second
    rw [roundWithAccuracy_eq first second, dif_neg (by decide),
      place_packed_finite _ (.inl canonical), carry]
    congr 1
    push_cast
    ring
  have second : shiftToTargetExponent .binary64 (rounded m e) (quantum m e) .exact =
      (⟨rounded m e, false, false⟩, quantum m e) :=
    shiftToTargetExponent_of_lt (by omega) least
  rw [roundWithAccuracy_eq first second]
  by_cases zero : rounded m e = 0
  · have subnormal : quantum m e = -1074 := by
      by_contra normal
      have long := lower normal
      omega
    rw [dif_pos zero, zero, subnormal]
    rfl
  · have canonical : 2 ^ 52 ≤ rounded m e ∧ rounded m e < 2 ^ 53 ∧ -1074 ≤ quantum m e ∨
        rounded m e < 2 ^ 52 ∧ quantum m e = -1074 := by omega
    rw [dif_neg zero, place_packed_finite _ canonical]

/-! #### Bounds -/

/-- The value of a finite magnitude. -/
def value (g : Nat) : ℚ :=
  mantissa g * 2 ^ exponent g

/-- A power of two is a multiple of each lower one. -/
theorem two_zpow_eq {s t : Int} (le : t ≤ s) : (2 : ℚ) ^ s = 2 ^ (s - t).toNat * 2 ^ t := by
  rw [← zpow_natCast, ← zpow_add₀ two_ne_zero]
  congr 1
  omega

/-- Multiples of powers of two are compared as multiples of the lower power. -/
theorem mul_two_pow_le {a b : Nat} {s t : Int} (h : (a * 2 ^ s : ℚ) ≤ b * 2 ^ t)
    (le : t ≤ s) : a * 2 ^ (s - t).toNat ≤ b := by
  rw [two_zpow_eq le, ← mul_assoc] at h
  exact_mod_cast le_of_mul_le_mul_right h (zpow_pos two_pos t)

/-- Rounding does not go below a number that is not above the value. -/
theorem le_place_roundWithAccuracy {g : Nat} (finite : g < infinite) (pos : 0 < m)
    (fine : e ≤ quantum m e) (below : value g ≤ m * 2 ^ e) :
    (g : Int) ≤ place (packed (roundWithAccuracy .binary64 .positive m e .exact)) := by
  have parts : (g : Int) = (exponent g + 1074) * 2 ^ 52 + mantissa g ∧ mantissa g < 2 ^ 53 ∧
      -1074 ≤ exponent g ∧ (exponent g ≠ -1074 → 2 ^ 52 ≤ mantissa g) := by
    unfold exponent mantissa
    split <;> omega
  obtain ⟨sum, short, least, normal⟩ := parts
  rw [place_roundWithAccuracy pos fine]
  refine le_min ?_ (Int.ofNat_le.2 finite.le)
  rcases lt_trichotomy (exponent g) (quantum m e) with lower | same | higher
  · have long := le_rounded pos fine (by omega)
    omega
  · suffices mantissa g ≤ rounded m e by omega
    refine le_trans ?_ (rounded_bounds m e).1
    rw [Nat.le_div_iff_mul_le (Nat.two_pow_pos _), ← same]
    exact mul_two_pow_le below (same ▸ fine)
  · -- The number is at least as large as the next power of two above the value.
    obtain ⟨-, upper⟩ := Number.log2_bounds pos.ne'
    have long := normal (by unfold quantum at higher; omega)
    have powers := (Nat.mul_le_mul_right _ long).trans_lt
      ((mul_two_pow_le below (fine.trans higher.le)).trans_lt upper)
    rw [← pow_add] at powers
    have exponents := (Nat.pow_lt_pow_iff_right (by decide)).1 powers
    unfold quantum at higher
    omega

/-- Positive values of any exponent are rounded as they are, with zeros put after
the mantissa if its exponent is too large. -/
theorem le_place_normalize {g n : Nat} {s : Sign} (finite : g < infinite) (pos : 0 < n)
    (below : value g ≤ n * 2 ^ e) :
    (g : Int) ≤ place (packed (UnpackedFloat.normalize .binary64 n e s)) := by
  set k := (e - quantum n e).toNat with hk
  have rounds : UnpackedFloat.normalize .binary64 n e s =
      roundWithAccuracy .binary64 .positive (n * 2 ^ k) (e - k) .exact := by
    have above : compare (n : Int) 0 = .gt := Int.compare_eq_gt.2 (Int.natCast_pos.2 pos)
    unfold UnpackedFloat.normalize
    rw [above]
    change UnpackedFloat.round _ _ n e = _
    unfold UnpackedFloat.round
    simp only [targetExponent_eq, decreaseExponent, Nat.shiftLeft_eq, hk]
  have same : quantum (n * 2 ^ k) (e - k) = quantum n e := by
    have log : (n * 2 ^ k).log2 = n.log2 + k := by
      obtain ⟨lower, upper⟩ := Number.log2_bounds pos.ne'
      rw [Nat.log2_eq_iff (by positivity), add_right_comm, pow_add, pow_add _ _ k]
      exact ⟨Nat.mul_le_mul_right _ lower,
        Nat.mul_lt_mul_of_pos_right upper (Nat.two_pow_pos k)⟩
    rw [quantum, log, quantum]
    congr 1
    push_cast
    ring
  have shifted : ((n * 2 ^ k : Nat) * 2 ^ (e - k) : ℚ) = n * 2 ^ e := by
    have lower := two_zpow_eq (show e - k ≤ e by omega)
    rw [sub_sub_cancel, Int.toNat_natCast] at lower
    rw [lower]
    push_cast
    ring
  rw [rounds]
  exact le_place_roundWithAccuracy finite (by positivity) (by rw [same]; omega)
    (shifted ▸ below)

/-! ### Operations -/

variable {a b : Binary64}

/-- What a double stands for. -/
def unpacked (a : Binary64) : UnpackedFloat :=
  reading (signOf a.word) a.magnitude

/-- Only magnitudes above infinity are no numbers. -/
theorem isNaN_reading (s : Sign) (g : Nat) :
    (reading s g).isNaN = decide (infinite < g) := by
  unfold reading
  split_ifs <;> simp_all [UnpackedFloat.isNaN]

/-- A double is a NaN if it is no number. -/
theorem isNaN_eq (a : Binary64) : a.isNaN = !decide a.IsNumber := by
  have reads : a.isNaN = (Float.Model.ofBits a.word).unpack.isNaN := rfl
  rw [reads, unpack_ofBits, isNaN_reading]
  simp only [IsNumber, ← Nat.not_le, decide_not]

/-- Only NaNs stand for no number. -/
theorem isNumber_of_unpacked (number : unpacked a ≠ .notANumber) : a.IsNumber :=
  Nat.not_lt.1 fun above => number (if_pos above)

/-- Packing gives the number back that was unpacked. -/
theorem packed_unpacked (number : a.IsNumber) : packed (unpacked a) = a := by
  rw [packed, unpacked, magnitude, ← unpack_word, pack_unpack, if_neg]
  intro nan
  have none : UnpackedFloat.unpack .binary64 a.word.toBitVec = .notANumber := by
    simp only [isNaNBits, decide_eq_true_eq] at nan
    exact (if_pos nan.1).trans (if_neg nan.2)
  have isNaN := congrArg UnpackedFloat.isNaN none
  rw [unpack_word, isNaN_reading] at isNaN
  exact absurd (of_decide_eq_true isNaN) (Nat.not_lt.2 number)

section Operation

variable {op : Float → Float → Float} {f : UnpackedFloat → UnpackedFloat → UnpackedFloat}
  (model : ∀ x y : Float, op x y =
    .ofModel (Float.Model.pack (f x.toModel.unpack y.toModel.unpack)))

include model

/-- A machine operation on two doubles. -/
theorem toFloat_op (a b : Binary64) : op a.toFloat b.toFloat =
    .ofModel (Float.Model.pack (f (unpacked a) (unpacked b))) := by
  rw [unpacked, unpacked, ← unpack_ofBits, ← unpack_ofBits]
  exact model _ _

/-- The result of an operation is a NaN if it is packed into no number. -/
theorem isNaN_op (a b : Binary64) : (op a.toFloat b.toFloat).isNaN =
    !decide (packed (f (unpacked a) (unpacked b))).IsNumber := by
  have reads : (op a.toFloat b.toFloat).isNaN = (UnpackedFloat.unpack .binary64
      (packed (f (unpacked a) (unpacked b))).word.toBitVec).isNaN := by
    rw [toFloat_op model]
    rfl
  rw [reads, unpack_word, isNaN_reading]
  simp only [IsNumber, ← Nat.not_le, decide_not]
  rfl

/-- An operation packs the machine value of its result. -/
theorem map₂_eq (number : f (unpacked a) (unpacked b) ≠ .notANumber) :
    map₂ op a b = packed (f (unpacked a) (unpacked b)) := by
  have nan : (op a.toFloat b.toFloat).isNaN = false := by
    rw [isNaN_op model, decide_eq_true (isNumber_packed.2 number), Bool.not_true]
  simp only [map₂, nan]
  rw [toFloat_op model]
  rfl

/-- The machine value of a result that is a number is one. -/
theorem number_of_map₂ (number : (map₂ op a b).IsNumber) :
    f (unpacked a) (unpacked b) ≠ .notANumber := by
  intro none
  have nan : (op a.toFloat b.toFloat).isNaN = true := by
    rw [isNaN_op model, decide_eq_false fun h => isNumber_packed.1 h none, Bool.not_false]
  have invalid : ¬invalid.IsNumber := by decide
  simp only [map₂, nan, isNaN_eq] at number
  split_ifs at number <;> simp_all

end Operation

/-! ### Amounts -/

/-- The word of zero. -/
theorem zero_eq_word : (0.0 : Binary64) = ⟨0⟩ :=
  rfl

/-- The word of negative zero, which has a sign and nothing else. -/
theorem neg_zero_eq_word : (-0.0 : Binary64) = ⟨0x8000000000000000⟩ :=
  rfl

/-- The word of one, which has an exponent and nothing else. -/
theorem one_eq_word : (1.0 : Binary64) = ⟨0x3FF0000000000000⟩ :=
  rfl

/-- Amounts are numbers from the origin on. -/
theorem zero_le_iff : 0.0 ≤ a ↔ a.IsNumber ∧ 0 ≤ a.place := by
  rw [le_iff, zero_eq_word]
  exact and_iff_right (by decide)

/-- Both zeros are amounts. -/
theorem zero_le_neg_zero : (0.0 : Binary64) ≤ -0.0 := by
  rw [neg_zero_eq_word, zero_le_iff]
  decide

/-- Counts are rounded to amounts. -/
theorem zero_le_ofNat (n : Nat) : (0.0 : Binary64) ≤ Quantity.ofNat n := by
  have zero : (0.0 : Binary64) = Quantity.ofNat 0 := rfl
  rw [zero]
  exact ofNat_le_ofNat (Nat.zero_le n)

/-- Numbers that are not below one, by their places. -/
theorem one_le_iff : 1.0 ≤ a ↔ a.IsNumber ∧ 0x3FF0000000000000 ≤ a.place := by
  rw [le_iff, one_eq_word, place_mk, if_pos (by decide)]
  exact and_iff_right (by decide)

/-- Whether a machine value is an amount. Both zeros are. -/
def IsAmount : UnpackedFloat → Prop
  | .zero _ => True
  | .infinity s => s = .positive
  | .finite s .. => s = .positive
  | .notANumber => False

/-- What amounts stand for: zero, a positive number, or infinity. -/
theorem unpacked_cases (h : 0.0 ≤ a) :
    (∃ s, unpacked a = .zero s ∧ a.place = 0) ∨
    (∃ pos, unpacked a =
      .finite .positive (mantissa a.magnitude) (exponent a.magnitude) pos ∧
        a.magnitude < infinite ∧ a.place = a.magnitude) ∨
    (unpacked a = .infinity .positive ∧ a.place = infinite) := by
  obtain ⟨number, nonneg⟩ := zero_le_iff.1 h
  unfold unpacked reading
  unfold place at *
  rw [if_neg (Nat.not_lt.2 number)]
  by_cases zero : a.magnitude = 0
  · rw [zero] at *
    exact .inl ⟨signOf a.word, rfl, by cases signOf a.word <;> rfl⟩
  have positive : signOf a.word = .positive := by
    cases sign : signOf a.word
    · rw [sign] at nonneg
      simp only [signed] at nonneg
      omega
    · rfl
  rw [positive]
  by_cases top : a.magnitude = infinite
  · rw [if_pos top]
    exact .inr (.inr ⟨rfl, congrArg _ top⟩)
  · rw [if_neg top, dif_pos (Nat.pos_of_ne_zero zero)]
    exact .inr (.inl ⟨mantissa_pos (Nat.pos_of_ne_zero zero), rfl,
      lt_of_le_of_ne number top, rfl⟩)

namespace IsAmount

variable {u v : UnpackedFloat}

/-- Amounts are numbers. -/
theorem number (h : IsAmount u) : u ≠ .notANumber := by
  rintro rfl
  exact h

/-- An amount is packed into one. -/
theorem zero_le (h : IsAmount u) : 0.0 ≤ packed u := by
  refine zero_le_iff.2 ⟨isNumber_packed.2 h.number, ?_⟩
  have components (x : BitVec 11) (y : BitVec 52) :
      0 ≤ place ⟨UInt64.ofBitVec (packComponents .binary64 .positive x y)⟩ := by
    rw [place_packComponents]
    omega
  cases u with
  | notANumber => exact h.elim
  | infinity s =>
    obtain rfl : s = .positive := h
    exact components _ _
  | zero s => cases s <;> decide
  | finite s m e pos =>
    obtain rfl : s = .positive := h
    unfold packed UnpackedFloat.pack
    dsimp only
    split
    · exact components _ _
    · split <;> exact components _ _

/-- An amount stands for one. -/
protected theorem unpacked (h : 0.0 ≤ a) : IsAmount (unpacked a) := by
  obtain ⟨s, zero, -⟩ | ⟨pos, finite, -⟩ | ⟨infinity, -⟩ := unpacked_cases h
  · rw [zero]
    trivial
  · rw [finite]
    rfl
  · rw [infinity]
    rfl

/-- Rounding keeps the sign. -/
protected theorem roundWithAccuracy (m : Nat) (e : Int) (accuracy : Accuracy) :
    IsAmount (roundWithAccuracy .binary64 .positive m e accuracy) := by
  unfold UnpackedFloat.roundWithAccuracy
  dsimp only
  split <;> trivial

/-- What is not below zero is rounded to an amount. -/
protected theorem normalize {n : Int} (nonneg : 0 ≤ n) (e : Int) (s : Sign) :
    IsAmount (UnpackedFloat.normalize .binary64 n e s) := by
  unfold UnpackedFloat.normalize
  rcases nonneg.lt_or_eq with pos | rfl
  · rw [Int.compare_eq_gt.2 pos]
    exact .roundWithAccuracy _ _ _
  · trivial

/-- A sum of amounts is an amount. -/
protected theorem add (hu : IsAmount u) (hv : IsAmount v) :
    IsAmount (UnpackedFloat.add .binary64 u v) := by
  cases u <;> cases v <;> simp only [IsAmount] at hu hv <;> subst_vars <;>
    simp only [UnpackedFloat.add]
  case zero.zero => split <;> trivial
  case finite.finite => exact .normalize (by simp only [Sign.apply]; omega) _ _
  all_goals trivial

/-- A product of amounts is an amount, if it is a number. -/
protected theorem mul (hu : IsAmount u) (hv : IsAmount v)
    (number : UnpackedFloat.mul .binary64 u v ≠ .notANumber) :
    IsAmount (UnpackedFloat.mul .binary64 u v) := by
  cases u <;> cases v <;> simp only [IsAmount] at hu hv <;> subst_vars <;>
    simp only [UnpackedFloat.mul] at number ⊢
  case finite.finite => exact .roundWithAccuracy _ _ _
  all_goals trivial

/-- A product of an amount with a positive number is an amount. -/
theorem mul_finite (hu : IsAmount u) {m : Nat} {e : Int} (pos : 0 < m) :
    IsAmount (UnpackedFloat.mul .binary64 u (.finite .positive m e pos)) := by
  cases u <;> simp only [IsAmount] at hu <;> subst_vars <;> simp only [UnpackedFloat.mul]
  case finite => exact .roundWithAccuracy _ _ _
  all_goals trivial

/-- A quotient of an amount and a positive number is an amount. -/
theorem div_finite (hu : IsAmount u) {m : Nat} {e : Int} (pos : 0 < m) :
    IsAmount (UnpackedFloat.div .binary64 u (.finite .positive m e pos)) := by
  cases u <;> simp only [IsAmount] at hu <;> subst_vars <;> simp only [UnpackedFloat.div]
  case finite => exact .roundWithAccuracy _ _ _
  all_goals trivial

end IsAmount

/-! ### Laws -/

/-- A rounded sum of amounts is not below the first one. -/
theorem le_add (ha : 0.0 ≤ a) (hb : 0.0 ≤ b) : a ≤ a + b := by
  have amount : IsAmount (UnpackedFloat.add .binary64 (unpacked a) (unpacked b)) :=
    .add (.unpacked ha) (.unpacked hb)
  have sum : a + b = packed _ := map₂_eq (fun _ _ => rfl) amount.number
  obtain ⟨numberSum, nonnegSum⟩ := zero_le_iff.1 amount.zero_le
  obtain ⟨number, -⟩ := zero_le_iff.1 ha
  rw [sum]
  refine le_iff.2 ⟨number, numberSum, ?_⟩
  obtain ⟨s, first, place⟩ | ⟨pos, first, bound, place⟩ | ⟨first, place⟩ := unpacked_cases ha
  · rw [place]
    exact nonnegSum
  · obtain ⟨t, second, -⟩ | ⟨pos', second, -⟩ | ⟨second, -⟩ := unpacked_cases hb
    · rw [first, second]
      change _ ≤ Binary64.place (packed (.finite _ _ _ pos))
      rw [← first, packed_unpacked number]
    · rw [place, first, second]
      simp only [UnpackedFloat.add, Sign.apply, decreaseExponent, Nat.shiftLeft_eq]
      rw [← Nat.cast_add]
      refine le_place_normalize bound (by positivity) ?_
      rw [value, two_zpow_eq (min_le_left _ (exponent b.magnitude)), ← mul_assoc]
      push_cast
      gcongr
      exact le_add_of_nonneg_right (by positivity)
    · rw [place, first, second]
      exact Int.ofNat_le.2 bound.le
  · obtain ⟨t, second, -⟩ | ⟨pos', second, -⟩ | ⟨second, -⟩ := unpacked_cases hb <;>
      rw [place, first, second] <;> exact le_rfl

/-- What is not below one is a number with a mantissa of 53 bits, or infinity. -/
theorem unpacked_of_one_le (h : 1.0 ≤ a) :
    (∃ pos, unpacked a =
      .finite .positive (mantissa a.magnitude) (exponent a.magnitude) pos ∧
        2 ^ 52 ≤ mantissa a.magnitude ∧ 1 ≤ value a.magnitude) ∨
    unpacked a = .infinity .positive := by
  obtain ⟨number, above⟩ := one_le_iff.1 h
  obtain ⟨s, -, place⟩ | ⟨pos, finite, -, place⟩ | ⟨infinity, -⟩ :=
    unpacked_cases (zero_le_iff.2 ⟨number, by omega⟩)
  · omega
  · rw [place] at above
    have parts : 2 ^ 52 ≤ mantissa a.magnitude ∧ -52 ≤ exponent a.magnitude := by
      unfold mantissa exponent
      split <;> omega
    refine .inl ⟨pos, finite, parts.1, ?_⟩
    calc
      (1 : ℚ) = 2 ^ 52 * 2 ^ (-52 : ℤ) := by norm_num
      _ ≤ mantissa a.magnitude * 2 ^ exponent a.magnitude := by
        gcongr
        · exact_mod_cast parts.1
        · exact one_le_two
        · exact parts.2
  · exact .inr infinity

/-- A rounded product of numbers that are not below one is not below one. -/
theorem one_le_mul (ha : 1.0 ≤ a) (hb : 1.0 ≤ b) : 1.0 ≤ a * b := by
  suffices h : UnpackedFloat.mul .binary64 (unpacked a) (unpacked b) ≠ .notANumber ∧
      0x3FF0000000000000 ≤
        place (packed (UnpackedFloat.mul .binary64 (unpacked a) (unpacked b))) by
    have product : a * b = packed _ := map₂_eq (fun _ _ => rfl) h.1
    rw [product]
    exact one_le_iff.2 ⟨isNumber_packed.2 h.1, h.2⟩
  obtain ⟨pos, first, long, large⟩ | first := unpacked_of_one_le ha <;>
    obtain ⟨pos', second, -, large'⟩ | second := unpacked_of_one_le hb <;>
      rw [first, second]
  · have long : 52 ≤ (mantissa a.magnitude * mantissa b.magnitude).log2 :=
      (Nat.le_log2 (by positivity)).2 (long.trans (Nat.le_mul_of_pos_right _ pos'))
    have one : value 0x3FF0000000000000 = 1 := by
      norm_num [value, mantissa, exponent]
    refine ⟨(IsAmount.roundWithAccuracy _ _ _).number, le_place_roundWithAccuracy
      (g := 0x3FF0000000000000) (by decide) (by positivity) (by unfold quantum; omega) ?_⟩
    calc
      value 0x3FF0000000000000 ≤ value a.magnitude * value b.magnitude :=
        one.trans_le (one_le_mul_of_one_le_of_one_le large large')
      _ = (mantissa a.magnitude * mantissa b.magnitude : Nat) *
          2 ^ (exponent a.magnitude + exponent b.magnitude) := by
        rw [value, value, zpow_add₀ two_ne_zero]
        push_cast
        ring
  all_goals
    refine ⟨fun none => ?_, Int.le_of_lt (by decide : (0x3FF0000000000000 : Int) < infinite)⟩
    cases none

/-- Written numbers with one digit after the point are rounded ratios. -/
theorem written_eq (n : Nat) :
    (OfScientific.ofScientific n true 1 : Binary64) = ⟨Number.ofRatio false n 10⟩ := by
  change Binary64.mk (Number.ofDecimal false n (-1)) = _
  have exponent : max (-(400 + n.log2 : Int)) (min (-1) 400) = -1 := by omega
  rw [Number.ofDecimal, exponent]
  rfl

/-- Small written numbers are positive and finite. -/
theorem unpacked_written {n : Nat} (pos : 0 < n) (small : n ≤ 1000) :
    ∃ m e pos, unpacked (OfScientific.ofScientific n true 1) =
      .finite .positive m e pos := by
  rw [written_eq]
  have lower : 0 < Number.magnitudeOf n 10 :=
    Nat.lt_of_lt_of_le (by decide : 0 < Number.magnitudeOf 1 10)
      (Number.magnitudeOf_mono (by decide) pos)
  have upper : Number.magnitudeOf n 10 < infinite :=
    Nat.lt_of_le_of_lt (Number.magnitudeOf_mono (by decide) small)
      (by decide : Number.magnitudeOf 1000 10 < infinite)
  have there := place_ofRatio n 10
  obtain ⟨s, -, place⟩ | ⟨pos, finite, -⟩ | ⟨-, place⟩ :=
    unpacked_cases (zero_le_iff.2 ⟨isNumber_ofRatio false n 10, by omega⟩)
  · omega
  · exact ⟨_, _, pos, finite⟩
  · omega

instance : OrderedQuantity Binary64 where
  le_of_lt less := by
    obtain ⟨ha, hb, places⟩ := lt_iff.1 less
    exact le_iff.2 ⟨ha, hb, places.le⟩
  le_trans ab bc := by
    obtain ⟨ha, -, first⟩ := le_iff.1 ab
    obtain ⟨-, hc, second⟩ := le_iff.1 bc
    exact le_iff.2 ⟨ha, hc, first.trans second⟩
  le_total ha hb := by
    obtain ⟨ha, -⟩ := zero_le_iff.1 ha
    obtain ⟨hb, -⟩ := zero_le_iff.1 hb
    exact (Int.le_total _ _).imp (fun le => le_iff.2 ⟨ha, hb, le⟩)
      fun le => le_iff.2 ⟨hb, ha, le⟩
  one_beq_one := beq_iff.2 ⟨by decide, by decide, rfl⟩
  zero_le_neg_zero := zero_le_neg_zero
  le_written {m n} h := by
    rw [written_eq, written_eq]
    refine le_iff.2 ⟨isNumber_ofRatio _ _ _, isNumber_ofRatio _ _ _, ?_⟩
    have magnitudes := Number.magnitudeOf_mono (show 0 < 10 by decide) h
    rw [place_ofRatio, place_ofRatio]
    omega
  zero_le_ofNat := zero_le_ofNat
  le_add := le_add
  one_le_mul := one_le_mul
  zero_le_mul_written {a n} ha pos small := by
    obtain ⟨m, e, pos, written⟩ := unpacked_written pos small
    have amount := (IsAmount.unpacked ha).mul_finite (e := e) pos
    rw [← written] at amount
    have product : a * OfScientific.ofScientific n true 1 = packed _ :=
      map₂_eq (fun _ _ => rfl) amount.number
    rw [product]
    exact amount.zero_le
  zero_le_div_hundred {a} ha := by
    obtain ⟨m, e, pos, written⟩ := unpacked_written (n := 1000) (by decide) le_rfl
    have amount := (IsAmount.unpacked ha).div_finite (e := e) pos
    rw [← written] at amount
    have quotient : a / 100.0 = packed _ := map₂_eq (fun _ _ => rfl) amount.number
    rw [quotient]
    exact amount.zero_le
  zero_le_mul_ofNat {a n} ha number := by
    have machine := number_of_map₂ (f := UnpackedFloat.mul .binary64) (fun _ _ => rfl)
      (beq_iff.1 number).1
    have product : a * Quantity.ofNat n = packed _ := map₂_eq (fun _ _ => rfl) machine
    rw [product]
    exact (IsAmount.mul (.unpacked ha) (.unpacked (zero_le_ofNat n)) machine).zero_le
  beq_self_of_le le := by
    obtain ⟨ha, -⟩ := le_iff.1 le
    exact beq_iff.2 ⟨ha, ha, rfl⟩
  beq_self_of_add {a b} number := by
    have machine := number_of_map₂ (f := UnpackedFloat.add .binary64) (fun _ _ => rfl)
      (beq_iff.1 number).1
    have ha : a.IsNumber := isNumber_of_unpacked fun none => machine (by rw [none]; rfl)
    have hb : b.IsNumber := isNumber_of_unpacked fun none => machine (by
      rw [none]
      cases unpacked a <;> rfl)
    exact ⟨beq_iff.2 ⟨ha, ha, rfl⟩, beq_iff.2 ⟨hb, hb, rfl⟩⟩

end QueryOptimizer.Binary64
