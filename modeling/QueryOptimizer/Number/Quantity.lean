/-!
# Estimated quantities

Row counts, selectivities, frequencies and costs are estimates. Everything that computes them
is written once over a type of quantities, so that the same definitions run on floating-point
numbers and can be read in exact arithmetic.

* `Quantity` collects the operations the estimates need.
* `larger`, `smaller`, `clamp`, `sum` and `product` are defined from them, so they mean the
  same for every kind of quantity.

Two conventions are stated here once. `larger` and `smaller` ignore an operand that is not a
number and give the second of two equal ones, and a sum starts from negative zero, the neutral
element of floating-point addition.
-/

namespace QueryOptimizer

/-- The arithmetic of estimates. Comparisons are decidable propositions; `==` is numeric
equality, which a value that is no number does not have with itself. -/
class Quantity (K : Type) extends
    Add K, Sub K, Mul K, Div K, Neg K, LT K, LE K, BEq K, OfScientific K where
  decidableLT : DecidableLT K
  decidableLE : DecidableLE K
  /-- A count as a quantity. -/
  ofNat : Nat → K
  /-- An integer as a quantity. -/
  ofInt : Int → K
  /-- A 64-bit floating-point word as a quantity. -/
  ofWord : UInt64 → K
  /-- A power of ten. -/
  tenPow : Int → K
  /-- A power with any exponent. -/
  pow : K → K → K
  /-- The logarithm to the base two. -/
  log2 : K → K
  /-- The order that sorting uses. It is total, and extends the numeric order. -/
  sortsBefore : K → K → Bool
  /-- The least count that is not below the quantity, held within 64 bits. -/
  ceilCount : K → Nat

attribute [reducible, instance] Quantity.decidableLT Quantity.decidableLE

namespace Quantity

variable {K : Type} [Quantity K]

/-- The larger of two quantities, or the one of them that is a number. -/
def larger (a b : K) : K :=
  if b < a then a else if b == b then b else a

/-- The smaller of two quantities, or the one of them that is a number. -/
def smaller (a b : K) : K :=
  if a < b then a else if b == b then b else a

/-- The quantity moved into `[low, high]`. -/
def clamp (low high a : K) : K :=
  if a < low then low else if high < a then high else a

/-- The magnitude of a quantity. -/
def magnitude (a : K) : K :=
  if a < 0.0 then -a else a

/-- The sum of a list, from left to right. -/
def sum (as : List K) : K :=
  as.foldl (· + ·) (-0.0)

/-- The product of a list, from left to right. -/
def product (as : List K) : K :=
  as.foldl (· * ·) 1.0

/-- Whether a quantity is a finite number: only then is its difference with itself zero. -/
def isFinite (a : K) : Bool :=
  a - a == 0.0

end Quantity

end QueryOptimizer
