/-!
# Binary floating-point words

A floating-point word of a `Format` is decoded into a sign, a mantissa and a power of two, and
a ratio of natural numbers is rounded to the nearest word. Everything here is exact arithmetic
on `Nat` and `Int`; no floating-point operation is used, so the results do not depend on the
machine.

* `Format.decode` reads a word as a value, `Format.orderKey` is its place in the
  total order of words.
* `Format.nearest` rounds a ratio to the nearest word, a tie going to the even mantissa, and
  `Format.encode` any value.
* `ofRatio`, `ofInt` and `ofDecimal` are the same rounding as functions into 64-bit words.
-/

namespace QueryOptimizer.Number

/-- The layout of a binary floating-point word: the stored mantissa bits below the exponent
bits, below the sign. -/
structure Format where
  mantissaBits : Nat
  exponentBits : Nat
  deriving DecidableEq, Repr

/-- The format of a 64-bit word. -/
def binary64 : Format := ⟨52, 11⟩

/-- The format of a 32-bit word. -/
def binary32 : Format := ⟨23, 8⟩

/-- What a floating-point word stands for. A finite value is `mantissa · 2 ^ exponent`, with
its sign kept apart so that the two zeros differ. -/
inductive Value where
  | nan (negative : Bool)
  | infinite (negative : Bool)
  | finite (negative : Bool) (mantissa : Nat) (exponent : Int)
  deriving DecidableEq, Repr

namespace Format

/-- The exponent of the last mantissa bit of the smallest numbers of the format. -/
def minExponent (f : Format) : Int :=
  2 - Nat.pow 2 (f.exponentBits - 1) - f.mantissaBits

/-- The word of positive infinity: all exponent bits set, no mantissa bit set. -/
def infinityWord (f : Format) : Nat :=
  (Nat.pow 2 f.exponentBits - 1) * Nat.pow 2 f.mantissaBits

/-- The weight of the sign bit. -/
def signWeight (f : Format) : Nat :=
  Nat.pow 2 (f.exponentBits + f.mantissaBits)

/-- The value of a word. -/
def decode (f : Format) (word : Nat) : Value :=
  let negative := f.signWeight ≤ word
  let magnitude := word % f.signWeight
  if f.infinityWord < magnitude then .nan negative
  else if magnitude = f.infinityWord then .infinite negative
  else
    let stored := magnitude % Nat.pow 2 f.mantissaBits
    let biased := magnitude / Nat.pow 2 f.mantissaBits
    if biased = 0 then .finite negative stored f.minExponent
    else .finite negative (Nat.pow 2 f.mantissaBits + stored) (f.minExponent + (biased - 1))

/-- The position of a word in the total order of words: negative words in falling order of
magnitude, then positive words in rising order. -/
def orderKey (f : Format) (word : Nat) : Int :=
  if word < f.signWeight then word else f.signWeight - 1 - word

end Format

/-- The quotient of two natural numbers rounded to the nearest natural number, a tie going to
the even one. -/
def roundDiv (num den : Nat) : Nat :=
  let q := num / den
  let twice := 2 * (num % den)
  if den < twice ∨ (twice = den ∧ q % 2 = 1) then q + 1 else q

/-- The quotient `num / den · 2 ^ (-shift)`, rounded as `roundDiv` does. -/
def roundScaled (num den : Nat) (shift : Int) : Nat :=
  if shift ≤ 0 then roundDiv (num * Nat.pow 2 shift.natAbs) den
  else roundDiv num (den * Nat.pow 2 shift.natAbs)

/-- The power of two just below or at `num / den`, for positive numbers. -/
def floorLog2 (num den : Nat) : Int :=
  let guess : Int := (num.log2 : Int) - den.log2
  let reached :=
    if 0 ≤ guess then den * Nat.pow 2 guess.natAbs ≤ num
      else den ≤ num * Nat.pow 2 guess.natAbs
  if reached then guess else guess - 1

namespace Format

/-- The word nearest to `num / den` of the given sign. A tie goes to the even mantissa, and
what lies beyond the largest number of the format becomes infinity. -/
def nearest (f : Format) (negative : Bool) (num den : Nat) : Nat :=
  let sign := if negative then f.signWeight else 0
  if num = 0 then sign
  else
    let unit := max (floorLog2 num den - f.mantissaBits) f.minExponent
    let mantissa := roundScaled num den unit
    let magnitude := (unit - f.minExponent).toNat * Nat.pow 2 f.mantissaBits + mantissa
    sign + min magnitude f.infinityWord

end Format

/-- The word nearest to a ratio of natural numbers. -/
def ofRatio (negative : Bool) (num den : Nat) : UInt64 :=
  (binary64.nearest negative num den).toUInt64

/-- The word nearest to an integer. -/
def ofInt (n : Int) : UInt64 :=
  ofRatio (n < 0) n.natAbs 1

/-- The word nearest to `digits · 10 ^ exponent`. A power so high or so low that the digits no
longer matter is cut, which keeps the integers small. -/
def ofDecimal (negative : Bool) (digits : Nat) (exponent : Int) : UInt64 :=
  let exponent := max (-(400 + digits.log2 : Int)) (min exponent 400)
  if 0 ≤ exponent then ofRatio negative (digits * Nat.pow 10 exponent.natAbs) 1
  else ofRatio negative digits (Nat.pow 10 exponent.natAbs)

namespace Format

/-- The word nearest to a value. A value that is no number stays one and keeps its sign. -/
def encode (f : Format) : Value → Nat
  | .nan negative =>
    (if negative then f.signWeight else 0) + f.infinityWord + Nat.pow 2 (f.mantissaBits - 1)
  | .infinite negative => (if negative then f.signWeight else 0) + f.infinityWord
  | .finite negative mantissa exponent =>
    if 0 ≤ exponent then f.nearest negative (mantissa * Nat.pow 2 exponent.natAbs) 1
    else f.nearest negative mantissa (Nat.pow 2 exponent.natAbs)

end Format

/-- The 32-bit word nearest to the value of a 64-bit word. -/
def narrow (word : UInt64) : UInt32 :=
  (binary32.encode (binary64.decode word.toNat)).toUInt32

/-- The 64-bit word of the value of a 32-bit word. There always is one, so nothing is lost. -/
def widen (word : UInt32) : UInt64 :=
  (binary64.encode (binary32.decode word.toNat)).toUInt64

end QueryOptimizer.Number
