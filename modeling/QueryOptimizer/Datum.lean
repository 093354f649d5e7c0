import QueryOptimizer.DataType
import QueryOptimizer.Number.Binary64

/-!
# Datums

A `Datum` is a literal value with its type, or the null of a type. Constraints and histograms
order datums with `Datum.compare` and place them on a numeric axis with `Datum.position?`.

Floating-point datums are kept as words, so two of them are the same datum exactly when their
words agree, and their order is the total order of words: negative zero comes before zero, NaN
after everything.
-/

namespace QueryOptimizer

/-- A literal value, or the null of a type. -/
inductive Datum where
  | null (type : DataType)
  | boolean (value : Bool)
  | integer (type : IntegerType) (value : Int)
  | float32 (word : UInt32)
  | float64 (word : UInt64)
  | decimal (precision : Nat) (scale : Int) (unscaled : Int)
  | text (type : TextType) (value : String)
  | binary (value : List UInt8)
  deriving DecidableEq, Repr, Hashable

namespace Datum

/-- The type of a datum. -/
def type : Datum → DataType
  | null type => type
  | boolean _ => .boolean
  | integer type _ => .integer type
  | float32 _ => .float32
  | float64 _ => .float64
  | decimal precision scale _ => .decimal precision scale
  | text type _ => .text type
  | binary _ => .binary

/-- Whether the datum is a null. -/
def isNull : Datum → Bool
  | null _ => true
  | _ => false

/-- Whether the datum is of a type with countable ranges. -/
def isIntegral (d : Datum) : Bool :=
  d.type.isIntegral

/-! ### The numeric axis -/

/-- The first eight bytes, filled up with zeros, as a big-endian number. -/
def leadingBytes (bytes : List UInt8) : Nat :=
  (List.range 8).foldl (fun acc i => acc * 256 + (bytes.getD i 0).toNat) 0

/-- The place of a string on the numeric axis: its first eight bytes as a number. -/
def textPosition (s : String) : Nat :=
  leadingBytes s.toUTF8.toList

/-- The place of a datum on the numeric axis. Nulls and byte strings have none. -/
def position? {K : Type} [Quantity K] : Datum → Option K
  | null _ => none
  | boolean value => some (if value then 1.0 else 0.0)
  | integer _ value => some (Quantity.ofInt value)
  | float32 word => some (Quantity.ofWord (Number.widen word))
  | float64 word => some (Quantity.ofWord word)
  | decimal _ scale unscaled => some (Quantity.ofInt unscaled / Quantity.tenPow scale)
  | text _ value => some (Quantity.ofNat (textPosition value))
  | binary _ => none

/-! ### Order -/

/-- Compares two values of one type. Values of different types are not comparable here, nor are
decimals of different precision or scale. -/
def compareWithin? : Datum → Datum → Option Ordering
  | boolean a, boolean b => some (Ord.compare a b)
  | integer s a, integer t b => if s = t then some (Ord.compare a b) else none
  | float32 a, float32 b =>
    some (Ord.compare (Number.binary32.orderKey a.toNat) (Number.binary32.orderKey b.toNat))
  | float64 a, float64 b => some (Ord.compare (Number.orderKey a) (Number.orderKey b))
  | decimal p s a, decimal q t b => if p = q ∧ s = t then some (Ord.compare a b) else none
  | text s a, text t b => if s = t then some (Ord.compare a b) else none
  | binary a, binary b => some (Ord.compare a b)
  | _, _ => none

/-- Compares two numbers; nothing compares with NaN. -/
def compareNumbers? (a b : Binary64) : Option Ordering :=
  if a < b then some .lt else if b < a then some .gt else if a == b then some .eq else none

/-- Compares two datums by their floating-point places on the numeric axis. -/
def compareOnAxis? (a b : Datum) : Option Ordering :=
  match (a.position? : Option Binary64), (b.position? : Option Binary64) with
  | some x, some y => compareNumbers? x y
  | _, _ => none

/-- The order of datums. Nulls are equal and come first. Datums of one type are compared
exactly, others by their floating-point places on the numeric axis; what cannot be compared
counts as equal. -/
def compare (a b : Datum) : Ordering :=
  match a.isNull, b.isNull with
  | true, true => .eq
  | true, false => .lt
  | false, true => .gt
  | false, false =>
    match a.compareWithin? b with
    | some order => order
    | none => (a.compareOnAxis? b).getD .eq

/-! ### Text -/

/-- The text of a datum. Strings are written as they are, byte strings as numbers, decimals as
the unscaled integer with precision and scale. -/
def toText : Datum → String
  | null (.decimal precision scale) => "None," ++ toString precision ++ "," ++ toString scale
  | null _ => "NULL"
  | boolean value => if value then "true" else "false"
  | integer _ value => toString value
  | float32 word => Number.shortest Number.binary32 word.toNat
  | float64 word => Number.shortest Number.binary64 word.toNat
  | decimal precision scale unscaled =>
    Text.option (some (toString unscaled)) ++ "," ++ toString precision ++
      "," ++ toString scale
  | text _ value => value
  | binary value => Text.joined "," (value.map toString)

end Datum

end QueryOptimizer
