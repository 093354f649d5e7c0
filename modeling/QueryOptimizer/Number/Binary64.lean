import QueryOptimizer.Number.Decimal
import QueryOptimizer.Number.Quantity

/-!
# Floating-point quantities

A `Binary64` is a 64-bit floating-point number, given by its word. Its arithmetic is that of
`Float`, except that a `Float` does not tell apart the two signs of a value that is no number
(NaN), while the order that sorting uses puts the negative ones first and the positive ones
last. So the words of such values are followed here.

* An operation that has no result gives the negative NaN.
* An operation on a NaN gives it on, of two the left one.
* `orderKey` is the place of a word in the total order of words.
-/

namespace QueryOptimizer

/-- A 64-bit floating-point number, given by its word. -/
structure Binary64 where
  word : UInt64
  deriving Inhabited, Repr

namespace Number

/-- The position of a 64-bit word in the total order of floating-point words. -/
def orderKey (word : UInt64) : Int :=
  binary64.orderKey word.toNat

end Number

namespace Binary64

/-- The number as a machine value, which forgets the sign of a NaN. -/
@[inline] def toFloat (a : Binary64) : Float :=
  Float.ofBits a.word

/-- The negative NaN, which stands for the result of an operation that has none. -/
def invalid : Binary64 :=
  ⟨(Number.binary64.encode (.nan true)).toUInt64⟩

/-- Whether a number is a NaN. -/
@[inline] def isNaN (a : Binary64) : Bool :=
  a.toFloat.isNaN

/-- An operation with one operand. -/
@[inline] def map (op : Float → Float) (a : Binary64) : Binary64 :=
  let result := op a.toFloat
  if !result.isNaN then ⟨result.toBits⟩ else if a.isNaN then a else invalid

/-- An operation with two operands. -/
@[inline] def map₂ (op : Float → Float → Float) (a b : Binary64) : Binary64 :=
  let result := op a.toFloat b.toFloat
  if !result.isNaN then ⟨result.toBits⟩
  else if a.isNaN then a else if b.isNaN then b else invalid

instance : Add Binary64 := ⟨map₂ (· + ·)⟩
instance : Sub Binary64 := ⟨map₂ (· - ·)⟩
instance : Mul Binary64 := ⟨map₂ (· * ·)⟩
instance : Div Binary64 := ⟨map₂ (· / ·)⟩
instance : Neg Binary64 := ⟨fun a => ⟨a.word ^^^ 0x8000000000000000⟩⟩
instance : LT Binary64 := ⟨fun a b => a.toFloat < b.toFloat⟩
instance : LE Binary64 := ⟨fun a b => a.toFloat ≤ b.toFloat⟩
instance : BEq Binary64 := ⟨fun a b => a.toFloat == b.toFloat⟩

instance : OfScientific Binary64 where
  ofScientific digits below places :=
    ⟨Number.ofDecimal false digits (if below then -places else places)⟩

/-- Integer power by repeated squaring, the factors taken from the lowest bit of the exponent
on: `acc · base ^ n`. -/
def powerFrom (acc base : Binary64) (n : Nat) : Binary64 :=
  if n = 0 then acc
  else
    let acc := if n % 2 = 1 then acc * base else acc
    if n / 2 = 0 then acc else powerFrom acc (base * base) (n / 2)

/-- A power of ten. A negative power is the reciprocal of the positive one. -/
def tenPow (n : Int) : Binary64 :=
  let power := powerFrom 1.0 10.0 n.natAbs
  if n < 0 then 1.0 / power else power

/-- The least count not below a number, within 64 bits. A NaN counts as zero. -/
def ceilCount (a : Binary64) : Nat :=
  match Number.binary64.decode a.word.toNat with
  | .nan _ => 0
  | .infinite negative => if negative then 0 else Nat.pow 2 64 - 1
  | .finite negative mantissa exponent =>
    if negative then 0
    else if 0 ≤ exponent then min (mantissa * Nat.pow 2 exponent.natAbs) (Nat.pow 2 64 - 1)
    else (mantissa + (Nat.pow 2 exponent.natAbs - 1)) / Nat.pow 2 exponent.natAbs

instance : Quantity Binary64 where
  decidableLT a b := inferInstanceAs (Decidable (a.toFloat < b.toFloat))
  decidableLE a b := inferInstanceAs (Decidable (a.toFloat ≤ b.toFloat))
  ofNat n := ⟨Number.ofInt n⟩
  ofInt n := ⟨Number.ofInt n⟩
  ofWord := mk
  tenPow := tenPow
  pow := map₂ Float.pow
  log2 := map Float.log2
  sortsBefore a b := Number.orderKey a.word ≤ Number.orderKey b.word
  ceilCount := ceilCount

/-! ### Texts -/

/-- The text with the fewest digits that read back, always with a point or an exponent. -/
def toText (a : Binary64) : String :=
  Number.shortestPointed Number.binary64 a.word.toNat

/-- The text with exactly `places` digits after the point. -/
def fixed (places : Nat) (a : Binary64) : String :=
  Number.fixed Number.binary64 places a.word.toNat

/-- The text with one digit before the point, `places` after it, and a power of ten. -/
def scientific (places : Nat) (a : Binary64) : String :=
  Number.scientific Number.binary64 places a.word.toNat

end Binary64

end QueryOptimizer
