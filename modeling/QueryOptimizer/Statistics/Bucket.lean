import QueryOptimizer.Constraint.Range
import QueryOptimizer.Number.Quantity

/-!
# Histogram buckets

A `Bucket` says which fraction of a relation's rows has a value between two datums, and how
many different values they have. Cutting a bucket with a range assumes that its values are
spread evenly over the numeric axis: `Bucket.overlapFraction` is the part of the bucket's rows
that falls into the range, `Bucket.restrict?` the part itself.
-/

namespace QueryOptimizer

/-! ### Constants of the estimates -/

namespace Estimate

/-- Frequencies and widths up to this are treated as zero. -/
def epsilon {K : Type} [Quantity K] : K := 1e-9

/-- The selectivity of predicates about which nothing is known. -/
def defaultSelectivity {K : Type} [Quantity K] : K := 0.4

/-- The row estimate of a relation is never below this. -/
def minRows {K : Type} [Quantity K] : K := 1.0

/-- The row count of tables without statistics, unless configured otherwise. -/
def defaultRows {K : Type} [Quantity K] : K := 1000.0

end Estimate

/-- A range of values with the fraction of all rows that have one of them and the number of
different values among these rows. -/
structure Bucket (K : Type) where
  lower : Datum
  upper : Datum
  lowerClosed : Bool
  upperClosed : Bool
  frequency : K
  distinct : K
  deriving BEq, Repr

namespace Bucket

open Estimate

variable {K : Type} [Quantity K]

/-- The distance of two datums on the numeric axis. -/
def distance? (a b : Datum) : Option K :=
  match (a.position? : Option K), (b.position? : Option K) with
  | some x, some y => some (Quantity.magnitude (x - y))
  | _, _ => none

/-- The bucket of one value. -/
def singleton (value : Datum) (frequency : K) : Bucket K :=
  ⟨value, value, true, true, frequency, 1.0⟩

/-- Whether the bucket has room for one value only. -/
def isSingleton (b : Bucket K) : Bool :=
  b.lower == b.upper

/-- The range of the bucket's values. -/
def range (b : Bucket K) : Range :=
  ⟨if b.lowerClosed then .included b.lower else .excluded b.lower,
    if b.upperClosed then .included b.upper else .excluded b.upper⟩

/-- The width of the bucket on the numeric axis. Where values are countable, a closed bucket
counts both its ends. -/
def width? (b : Bucket K) : Option K :=
  (distance? b.upper b.lower).map fun w =>
    if b.lower.isIntegral then
      let w := w + 1.0
      let w := if b.lowerClosed then w else w - 1.0
      let w := if b.upperClosed then w else w - 1.0
      Quantity.larger w 0.0
    else w

/-- The bucket cut down to a range inside it. -/
def withRange (b : Bucket K) (r : Range) : Bucket K :=
  { b with
    lower := r.start.value?.getD b.lower
    upper := r.stop.value?.getD b.upper
    lowerClosed := !r.start.isExcluded
    upperClosed := !r.stop.isExcluded }

/-- The fraction of the bucket's rows inside a range. A point inside the bucket is one of its
distinct values; a wider part counts by its share of the bucket's width. -/
def overlapFraction (b : Bucket K) (r : Range) : K :=
  if b.isSingleton then
    if r.contains b.lower then 1.0 else 0.0
  else
    match b.range.intersect? r with
    | none => 0.0
    | some overlap =>
      match overlap.asPoint? with
      | some v => if b.range.contains v then 1.0 / Quantity.larger b.distinct 1.0 else 0.0
      | none =>
        match (b.withRange overlap).width?, b.width? with
        | some part, some total =>
          if epsilon < total then Quantity.clamp 0.0 1.0 (part / total) else 1.0
        | _, _ => defaultSelectivity

/-- The part of the bucket inside a range, `none` when nothing is left. -/
def restrict? (b : Bucket K) (r : Range) : Option (Bucket K) :=
  let fraction := b.overlapFraction r
  if fraction ≤ 0.0 then none
  else
    (b.range.intersect? r).map fun overlap =>
      { b.withRange overlap with
        frequency := b.frequency * fraction
        distinct :=
          if b.isSingleton then 1.0 else Quantity.larger (b.distinct * fraction) 1.0 }

/-- The part of the left bucket that overlaps the right one, with the fraction of each bucket's
rows that falls into the overlap. -/
def intersect? (b c : Bucket K) : Option (Bucket K × K × K) := do
  let overlap ← b.range.intersect? c.range
  let left ← b.restrict? overlap
  let right ← c.restrict? overlap
  return (left, left.frequency / Quantity.larger b.frequency epsilon,
    right.frequency / Quantity.larger c.frequency epsilon)

/-- The bucket with its frequency multiplied by a factor. -/
def scale (b : Bucket K) (factor : K) : Bucket K :=
  { b with frequency := b.frequency * factor }

end Bucket

end QueryOptimizer
