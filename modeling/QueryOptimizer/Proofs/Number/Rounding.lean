import QueryOptimizer.Proofs.Number.Comparison

/-!
# Rounding of ratios

A ratio of natural numbers is rounded to the nearest floating-point word. Between two powers of
two rounding is a division (`exists_roundScaled`), and the mantissa stays between two powers as
well (`mantissa_bounds`), where the words go on with the next exponent. So rounding keeps the
order, though not the strict one. Whole numbers keep that up to `2 ^ 53`, where no
division is needed.

## Main results

* `Number.magnitudeOf_mono`: a smaller ratio is not rounded to a larger magnitude.
* `Binary64.place_ofInt_mono`: a smaller integer is not rounded to a larger number.
* `Binary64.place_ofInt_strictMono`: small integers stay apart.
-/

namespace QueryOptimizer

namespace Number

/-- Division by one needs no rounding. -/
theorem roundDiv_one (n : Nat) : roundDiv n 1 = n := by
  simp only [roundDiv, Nat.div_one, Nat.mod_one]
  exact if_neg (by omega)

/-- A rounded quotient is not below the quotient. -/
theorem div_le_roundDiv (num den : Nat) : num / den ≤ roundDiv num den := by
  simp only [roundDiv]
  split <;> omega

/-- A rounded quotient is at most the next whole number. -/
theorem roundDiv_le_of_lt {num den q : Nat} (h : num / den < q) : roundDiv num den ≤ q := by
  simp only [roundDiv]
  split <;> omega

/-- Rounding keeps the order of quotients. -/
theorem roundDiv_mono {m n : Nat} (den : Nat) (h : m ≤ n) :
    roundDiv m den ≤ roundDiv n den := by
  rcases Nat.lt_or_eq_of_le (Nat.div_le_div_right (c := den) h) with less | same
  · exact (roundDiv_le_of_lt less).trans (div_le_roundDiv n den)
  · have rest : m % den ≤ n % den := by
      have hm := Nat.div_add_mod m den
      have hn := Nat.div_add_mod n den
      rw [← same] at hn
      omega
    simp only [roundDiv, same]
    split
    · rename_i up
      rw [if_pos]
      rcases up with more | ⟨tie, odd⟩
      · exact .inl (by omega)
      · rcases Nat.lt_or_eq_of_le rest with less | equal
        · exact .inl (by omega)
        · exact .inr ⟨equal ▸ tie, odd⟩
    · split <;> omega

/-- A number lies between a power of two and the next one. -/
theorem log2_bounds {n : Nat} (some : n ≠ 0) : 2 ^ n.log2 ≤ n ∧ n < 2 ^ (n.log2 + 1) :=
  (Nat.log2_eq_iff some).1 rfl

/-! #### Ratios -/

/-- A multiple of a power of two is compared with a number among the natural numbers. -/
theorem mul_two_zpow_le_iff (a b : Nat) (k : Int) :
    (a * 2 ^ k : ℚ) ≤ b ↔
      if 0 ≤ k then a * 2 ^ k.natAbs ≤ b else a ≤ b * 2 ^ k.natAbs := by
  split_ifs with h
  · conv_lhs => rw [← Int.natAbs_of_nonneg h]
    rw [zpow_natCast]
    norm_cast
  · conv_lhs => rw [show k = -(k.natAbs : Int) by omega]
    rw [zpow_neg, zpow_natCast, ← div_eq_mul_inv, div_le_iff₀ (by positivity)]
    norm_cast

variable {num den : Nat}

/-- The power of two is the greatest one that is not above the ratio. -/
theorem floorLog2_spec (hnum : 0 < num) (hden : 0 < den) :
    (den * 2 ^ floorLog2 num den : ℚ) ≤ num ∧
      (num : ℚ) < den * 2 ^ (floorLog2 num den + 1) := by
  obtain ⟨lower, upper⟩ := log2_bounds hnum.ne'
  obtain ⟨lower', upper'⟩ := log2_bounds hden.ne'
  have sum (a b : Int) : (2 : ℚ) ^ (a + b) = 2 ^ a * 2 ^ b := zpow_add₀ two_ne_zero a b
  set guess : Int := num.log2 - den.log2 with hguess
  by_cases reached : (den * 2 ^ guess : ℚ) ≤ num
  · have eq : floorLog2 num den = guess :=
      if_pos ((mul_two_zpow_le_iff den num guess).1 reached)
    rw [eq]
    refine ⟨reached, ?_⟩
    calc
      (num : ℚ) < 2 ^ (num.log2 + 1) := by exact_mod_cast upper
      _ = 2 ^ den.log2 * 2 ^ (guess + 1) := by
        rw [← zpow_natCast, ← zpow_natCast, ← sum]
        congr 1
        push_cast
        omega
      _ ≤ den * 2 ^ (guess + 1) := by
        gcongr
        exact_mod_cast lower'
  · have eq : floorLog2 num den = guess - 1 :=
      if_neg fun h => reached ((mul_two_zpow_le_iff den num guess).2 h)
    rw [eq, sub_add_cancel]
    refine ⟨?_, lt_of_not_ge reached⟩
    calc
      (den * 2 ^ (guess - 1) : ℚ) ≤ 2 ^ (den.log2 + 1) * 2 ^ (guess - 1) := by
        gcongr
        exact_mod_cast upper'.le
      _ = 2 ^ num.log2 := by
        rw [← zpow_natCast, ← zpow_natCast, ← sum]
        congr 1
        push_cast
        omega
      _ ≤ num := by exact_mod_cast lower

/-- A ratio is rounded to a multiple of a power of two by a division. -/
theorem exists_roundScaled (num : Nat) (hden : 0 < den) (k : Int) :
    ∃ n d, roundScaled num den k = roundDiv n d ∧ 0 < d ∧
      ∀ q : Nat, q * d ≤ n ↔ ((q * den : Nat) * 2 ^ k : ℚ) ≤ num := by
  by_cases h : k ≤ 0
  · refine ⟨num * 2 ^ k.natAbs, den, if_pos h, hden, fun q => ?_⟩
    rw [mul_two_zpow_le_iff]
    split
    · obtain rfl : k = 0 := by omega
      simp
    · rfl
  · refine ⟨num, den * 2 ^ k.natAbs, if_neg h, by positivity, fun q => ?_⟩
    rw [mul_two_zpow_le_iff, if_pos (by omega), mul_assoc]

/-- What is at least a multiple is not rounded below it. -/
theorem le_roundScaled {q : Nat} {k : Int} (hden : 0 < den)
    (h : ((q * den : Nat) * 2 ^ k : ℚ) ≤ num) : q ≤ roundScaled num den k := by
  obtain ⟨n, d, eq, hd, le_iff⟩ := exists_roundScaled num hden k
  rw [eq]
  exact ((Nat.le_div_iff_mul_le hd).2 ((le_iff q).2 h)).trans (div_le_roundDiv n d)

/-- What is below a multiple is not rounded above it. -/
theorem roundScaled_le {q : Nat} {k : Int} (hden : 0 < den)
    (h : (num : ℚ) < (q * den : Nat) * 2 ^ k) : roundScaled num den k ≤ q := by
  obtain ⟨n, d, eq, hd, le_iff⟩ := exists_roundScaled num hden k
  rw [eq]
  refine roundDiv_le_of_lt ((Nat.div_lt_iff_lt_mul hd).2 ?_)
  exact Nat.lt_of_not_le fun above => absurd ((le_iff q).1 above) (not_le.2 h)

/-- Rounding to an exponent keeps the order. -/
theorem roundScaled_mono {m n : Nat} (den : Nat) (k : Int) (h : m ≤ n) :
    roundScaled m den k ≤ roundScaled n den k := by
  unfold roundScaled
  split
  · exact roundDiv_mono _ (Nat.mul_le_mul_right _ h)
  · exact roundDiv_mono _ h

/-- The magnitude of a ratio in a word, if there were no largest exponent. -/
def magnitudeOf (num den : Nat) : Nat :=
  if num = 0 then 0
  else
    let unit := max (floorLog2 num den - 52) (-1074)
    (unit + 1074).toNat * 2 ^ 52 + roundScaled num den unit

/-- The nearest double of a ratio has its sign in the first bit. -/
theorem nearest_eq (negative : Bool) (num den : Nat) : binary64.nearest negative num den =
    (if negative then 2 ^ 63 else 0) + min (magnitudeOf num den) Binary64.infinite := by
  unfold magnitudeOf Format.nearest
  by_cases zero : num = 0
  · rw [if_pos zero, if_pos zero]
    rfl
  · rw [if_neg zero, if_neg zero]
    rfl

/-- The mantissa of a ratio has 53 bits, unless the ratio is small or rounding takes it up to
the next exponent. -/
theorem mantissa_bounds (hnum : 0 < num) (hden : 0 < den) {unit : Int}
    (hunit : unit = max (floorLog2 num den - 52) (-1074)) :
    roundScaled num den unit ≤ 2 ^ 53 ∧
      (unit ≠ -1074 → 2 ^ 52 ≤ roundScaled num den unit) := by
  obtain ⟨lower, upper⟩ := floorLog2_spec hnum hden
  have multiple (k : Nat) :
      ((2 ^ k * den : Nat) * 2 ^ unit : ℚ) = den * 2 ^ ((k : Int) + unit) := by
    rw [zpow_add₀ two_ne_zero, zpow_natCast, Nat.cast_mul, Nat.cast_pow, Nat.cast_ofNat]
    ring
  constructor
  · refine roundScaled_le hden (upper.trans_le ?_)
    rw [multiple]
    refine mul_le_mul_of_nonneg_left (zpow_le_zpow_right₀ one_le_two ?_)
      (Nat.cast_nonneg den)
    push_cast
    omega
  · intro normal
    refine le_roundScaled hden (le_trans (le_of_eq ?_) lower)
    rw [multiple]
    congr 2
    omega

/-- The greatest power of two below a ratio grows with the ratio. -/
theorem floorLog2_mono {m n : Nat} (hm : 0 < m) (hden : 0 < den) (h : m ≤ n) :
    floorLog2 m den ≤ floorLog2 n den := by
  obtain ⟨lower, -⟩ := floorLog2_spec hm hden
  obtain ⟨-, upper⟩ := floorLog2_spec (hm.trans_le h) hden
  have powers : (2 : ℚ) ^ floorLog2 m den < 2 ^ (floorLog2 n den + 1) :=
    lt_of_mul_lt_mul_left ((lower.trans (Nat.cast_le.2 h)).trans_lt upper)
      (Nat.cast_nonneg den)
  exact Int.lt_add_one_iff.1 ((zpow_lt_zpow_iff_right₀ one_lt_two).1 powers)

/-- The magnitudes of ratios keep their order. -/
theorem magnitudeOf_mono {m n : Nat} (hden : 0 < den) (h : m ≤ n) :
    magnitudeOf m den ≤ magnitudeOf n den := by
  by_cases none : m = 0
  · rw [magnitudeOf, if_pos none]
    exact Nat.zero_le _
  have hm : 0 < m := Nat.pos_of_ne_zero none
  have hn : 0 < n := hm.trans_le h
  have logs := floorLog2_mono hm hden h
  have first := mantissa_bounds hm hden rfl
  have second := mantissa_bounds hn hden rfl
  rw [magnitudeOf, magnitudeOf, if_neg none, if_neg hn.ne']
  dsimp only
  have units := max_le_max_right (-1074) (Int.sub_le_sub_right logs 52)
  rcases Int.lt_or_eq_of_le units with less | same
  · have long := second.2 (by omega)
    omega
  · rw [same]
    exact Nat.add_le_add_left (roundScaled_mono den _ h) _

/-! #### Whole numbers -/

/-- The power of two just below or at a number. -/
theorem floorLog2_one {n : Nat} (pos : 0 < n) : floorLog2 n 1 = n.log2 := by
  have one : Nat.log2 1 = 0 := rfl
  have reached : ¬ n < 2 ^ n.log2 := Nat.not_lt.2 (Nat.log2_self_le (Nat.ne_of_gt pos))
  simp [floorLog2, one, reached]

theorem magnitudeOf_zero (den : Nat) : magnitudeOf 0 den = 0 :=
  rfl

/-- A number of at most 53 bits is not rounded. -/
theorem magnitudeOf_one {n : Nat} (pos : 0 < n) (small : n < 2 ^ 53) :
    magnitudeOf n 1 = (n.log2 + 1022) * 2 ^ 52 + n * 2 ^ (52 - n.log2) := by
  have short : n.log2 < 53 := (Nat.log2_lt pos.ne').2 small
  have unit : max ((n.log2 : Int) - 52) (-1074) = n.log2 - 52 := by omega
  have exact : roundScaled n 1 ((n.log2 : Int) - 52) = n * 2 ^ (52 - n.log2) := by
    have digits : ((n.log2 : Int) - 52).natAbs = 52 - n.log2 := by omega
    rw [roundScaled, if_pos (by omega), digits, roundDiv_one]
    rfl
  rw [magnitudeOf, if_neg pos.ne', floorLog2_one pos]
  dsimp only
  rw [unit, exact]
  congr 2
  omega

/-- The first number of 54 bits. -/
theorem magnitudeOf_last : magnitudeOf (2 ^ 53) 1 = 1076 * 2 ^ 52 := by
  have log : floorLog2 (2 ^ 53) 1 = 53 := by
    rw [floorLog2_one (by decide), Nat.log2_two_pow]
    rfl
  have half : roundDiv (2 ^ 53) 2 = 2 ^ 52 := by decide
  rw [magnitudeOf, if_neg (by decide), log]
  exact congrArg (1075 * 2 ^ 52 + ·) half

/-- Small numbers are far from infinity. -/
theorem magnitudeOf_le {n : Nat} (small : n ≤ 2 ^ 53) :
    magnitudeOf n 1 ≤ Binary64.infinite := by
  refine (magnitudeOf_mono Nat.one_pos small).trans ?_
  rw [magnitudeOf_last]
  decide

/-- A number of at most 53 bits lies between the words of two powers of two. -/
theorem magnitudeOf_bounds {n : Nat} (pos : 0 < n) (small : n < 2 ^ 53) :
    (n.log2 + 1023) * 2 ^ 52 ≤ magnitudeOf n 1 ∧
      magnitudeOf n 1 < (n.log2 + 1024) * 2 ^ 52 := by
  obtain ⟨lower, upper⟩ := log2_bounds pos.ne'
  have short : n.log2 < 53 := (Nat.log2_lt pos.ne').2 small
  have first : 2 ^ n.log2 * 2 ^ (52 - n.log2) = 2 ^ 52 := by
    rw [← pow_add]
    congr 1
    omega
  have above := Nat.mul_le_mul_right (2 ^ (52 - n.log2)) lower
  have below := Nat.mul_lt_mul_of_pos_right upper (Nat.two_pow_pos (52 - n.log2))
  rw [pow_succ, mul_right_comm, first] at below
  rw [first] at above
  rw [magnitudeOf_one pos small]
  omega

/-- Below `2 ^ 53` nothing is rounded. -/
theorem magnitudeOf_strictMono {m n : Nat} (h : m < n) (small : n ≤ 2 ^ 53) :
    magnitudeOf m 1 < magnitudeOf n 1 := by
  have hn : 0 < n := Nat.zero_lt_of_lt h
  rcases Nat.eq_zero_or_pos m with rfl | hm
  · refine Nat.lt_of_lt_of_le ?_ (magnitudeOf_mono Nat.one_pos hn)
    exact Nat.lt_of_lt_of_le (by decide) (magnitudeOf_bounds Nat.one_pos (by decide)).1
  have upper := (magnitudeOf_bounds hm (h.trans_le small)).2
  rcases Nat.lt_or_eq_of_le small with small | last
  · have lower := (magnitudeOf_bounds hn small).1
    have logs : m.log2 ≤ n.log2 :=
      (Nat.le_log2 hn.ne').2 ((Nat.log2_self_le hm.ne').trans h.le)
    rcases Nat.lt_or_eq_of_le logs with less | same
    · omega
    · rw [magnitudeOf_one hm (h.trans small), magnitudeOf_one hn small, same]
      have strict := Nat.mul_lt_mul_of_pos_right h (Nat.two_pow_pos (52 - n.log2))
      omega
  · have short : m.log2 < 53 := (Nat.log2_lt hm.ne').2 (h.trans_eq last)
    rw [last, magnitudeOf_last]
    exact upper.trans_le (Nat.mul_le_mul_right _ (by omega))

end Number

namespace Binary64

open Number

/-- The word of a sign and a magnitude. -/
theorem parts_word {g : Nat} (number : g ≤ infinite) (negative : Bool) :
    magnitude ⟨((if negative then 2 ^ 63 else 0) + g).toUInt64⟩ = g ∧
      signOf ((if negative then 2 ^ 63 else 0) + g).toUInt64 =
        if negative then .negative else .positive := by
  have top : infinite < 2 ^ 63 := by decide
  have word : ((if negative then 2 ^ 63 else 0) + g).toUInt64.toNat =
      (if negative then 2 ^ 63 else 0) + g :=
    UInt64.toNat_ofNat_of_lt' (by
      change _ < 2 ^ 64
      split <;> omega)
  unfold magnitude signOf
  rw [word]
  cases negative
  · exact ⟨by simp; omega, if_pos (by simp; omega)⟩
  · exact ⟨by simp; omega, if_neg (by simp)⟩

/-- The magnitude and the sign of the double of a ratio. -/
theorem parts_ofRatio (negative : Bool) (num den : Nat) :
    magnitude ⟨ofRatio negative num den⟩ = min (magnitudeOf num den) infinite ∧
      signOf (ofRatio negative num den) = if negative then .negative else .positive := by
  rw [ofRatio, nearest_eq]
  exact parts_word (Nat.min_le_right _ _) negative

/-- Ratios are rounded to numbers, which may be infinite. -/
theorem isNumber_ofRatio (negative : Bool) (num den : Nat) :
    IsNumber ⟨ofRatio negative num den⟩ := by
  rw [IsNumber, (parts_ofRatio negative num den).1]
  exact Nat.min_le_right _ _

/-- The place of the double of a ratio. -/
theorem place_ofRatio (num den : Nat) :
    place ⟨ofRatio false num den⟩ = (min (magnitudeOf num den) infinite : Nat) := by
  obtain ⟨magnitude, sign⟩ := parts_ofRatio false num den
  rw [place, magnitude, sign]
  rfl

/-- Integers are rounded to numbers, which may be infinite. -/
theorem isNumber_ofInt (n : Int) : IsNumber ⟨ofInt n⟩ :=
  isNumber_ofRatio _ _ _

/-- The place of the double of a whole number. -/
theorem place_ofInt (n : Int) : place ⟨ofInt n⟩ =
    signed (if n < 0 then .negative else .positive)
      (min (magnitudeOf n.natAbs 1) infinite) := by
  obtain ⟨magnitude, sign⟩ := parts_ofRatio (n < 0) n.natAbs 1
  simp only [decide_eq_true_eq] at sign
  rw [place, ofInt, magnitude, sign]

/-- A smaller integer is not rounded to a larger number. -/
theorem place_ofInt_mono {m n : Int} (h : m ≤ n) : place ⟨ofInt m⟩ ≤ place ⟨ofInt n⟩ := by
  rw [place_ofInt, place_ofInt]
  split <;> split <;> simp only [signed]
  · have mono := magnitudeOf_mono Nat.one_pos (show n.natAbs ≤ m.natAbs by omega)
    omega
  · omega
  · omega
  · have mono := magnitudeOf_mono Nat.one_pos (show m.natAbs ≤ n.natAbs by omega)
    omega

/-- A smaller count is not rounded to a larger number. -/
theorem ofNat_le_ofNat {m n : Nat} (h : m ≤ n) :
    (Quantity.ofNat m : Binary64) ≤ Quantity.ofNat n :=
  le_iff.2 ⟨isNumber_ofInt m, isNumber_ofInt n, place_ofInt_mono (Int.ofNat_le.2 h)⟩

/-- Integers that fit into the mantissa stay apart. -/
theorem place_ofInt_strictMono {m n : Int} (h : m < n) (hm : -2 ^ 53 ≤ m) (hn : n ≤ 2 ^ 53) :
    place ⟨ofInt m⟩ < place ⟨ofInt n⟩ := by
  have rounded {k : Int} (low : -2 ^ 53 ≤ k) (high : k ≤ 2 ^ 53) :
      min (magnitudeOf k.natAbs 1) infinite = magnitudeOf k.natAbs 1 :=
    Nat.min_eq_left (magnitudeOf_le (by omega))
  rw [place_ofInt, place_ofInt, rounded hm (by omega), rounded (by omega) hn]
  have zero := magnitudeOf_zero 1
  split <;> split <;> simp only [signed]
  · have strict := magnitudeOf_strictMono (show n.natAbs < m.natAbs by omega) (by omega)
    omega
  · have strict := magnitudeOf_strictMono (show 0 < m.natAbs by omega) (by omega)
    omega
  · omega
  · have strict := magnitudeOf_strictMono (show m.natAbs < n.natAbs by omega) (by omega)
    omega

end Binary64

end QueryOptimizer
