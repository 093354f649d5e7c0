import QueryOptimizer.Sorting
import QueryOptimizer.Statistics.Bucket

/-!
# Histograms

A `Histogram` describes the values of one column: buckets, the fraction of nulls, and what lies
outside every bucket. Frequencies are fractions of the relation's rows. A histogram that is not
well defined carries no information; estimates then use the default selectivity.

Each operation on rows has its counterpart here: `filter`, `joinEquality?`, `antiJoin`,
`unionAll`, `withNullPadding` and `grouped`.
-/

namespace QueryOptimizer

/-- The distribution of the values of one column. -/
structure Histogram (K : Type) where
  buckets : List (Bucket K)
  nullFreq : K
  distinctRemaining : K
  freqRemaining : K
  wellDefined : Bool := true
  statsMissing : Bool := false
  deriving BEq, Repr

namespace Histogram

open Estimate Quantity

variable {K : Type} [Quantity K]

/-! ### Construction -/

/-- The histogram of a column without statistics. -/
def unknown : Histogram K :=
  ⟨[], 0.0, 0.0, 0.0, false, true⟩

/-- The histogram of a truth-value column without statistics: true, false or null. -/
def unknownBoolean : Histogram K :=
  ⟨[], 0.0, 3.0, 1.0, true, true⟩

/-- The histogram of a column without rows. -/
def empty : Histogram K :=
  ⟨[], 0.0, 0.0, 0.0, true, false⟩

/-- The histogram of a column that is always null. -/
def nullOnly : Histogram K :=
  ⟨[], 1.0, 0.0, 0.0, true, false⟩

/-- The histogram of a column with one value in every row. -/
def ofConstant (value : Datum) : Histogram K :=
  if value.isNull then nullOnly else ⟨[.singleton value 1.0], 0.0, 0.0, 0.0, true, false⟩

/-- Counts equal neighbours of a sorted list into one bucket each; every value
adds `weight`. -/
def countFrom (weight : K) (current : Bucket K) : List Datum → List (Bucket K)
  | [] => [current]
  | v :: vs =>
    if current.lower.compare v == .eq then
      countFrom weight { current with frequency := current.frequency + weight } vs
    else current :: countFrom weight (.singleton v weight) vs

/-- One bucket for each different value of a sorted list. -/
def countSorted (weight : K) : List Datum → List (Bucket K)
  | [] => []
  | v :: vs => countFrom weight (.singleton v weight) vs

/-- The histogram of a list of values, one bucket for each different value. -/
def ofValues (values : List Datum) : Histogram K :=
  if values.isEmpty then empty
  else
    let total : K := ofNat values.length
    let nulls : K := ofNat (values.filter (·.isNull)).length
    let sorted := Sorting.sort (fun a b => a.compare b == .lt) (values.filter (!·.isNull))
    ⟨countSorted (1.0 / total) sorted, nulls / total, 0.0, 0.0, true, false⟩

/-! ### Totals -/

/-- The number of different values, null counting as one of them. -/
def ndv (h : Histogram K) : K :=
  sum (h.buckets.map (·.distinct)) + h.distinctRemaining +
    (if epsilon < h.nullFreq then 1.0 else 0.0)

/-- The sum of all frequencies. -/
def totalFrequency (h : Histogram K) : K :=
  sum (h.buckets.map (·.frequency)) + h.nullFreq + h.freqRemaining

/-- The histogram scaled to a total frequency of one, unless the total is next to nothing. -/
def normalize (h : Histogram K) : Histogram K :=
  let total := h.totalFrequency
  if epsilon < total then
    { h with
      buckets := h.buckets.map fun b => { b with frequency := b.frequency / total }
      nullFreq := h.nullFreq / total
      freqRemaining := h.freqRemaining / total }
  else h

/-! ### Operations on rows -/

/-- What is left of the values outside every bucket when only `ranges` are kept: their
frequency and their number. -/
def filterRemaining (h : Histogram K) (ranges : List Range) : K × K :=
  if epsilon < h.freqRemaining then
    let points := (ranges.filter (·.asPoint?.isSome)).length
    if !ranges.isEmpty && points == ranges.length then
      let covered := smaller (ofNat points / larger h.distinctRemaining 1.0) 1.0
      (h.freqRemaining * covered, smaller (ofNat points) h.distinctRemaining)
    else if ranges.any (·.isFull) then (h.freqRemaining, h.distinctRemaining)
    else if ranges.isEmpty then (0.0, 0.0)
    else (h.freqRemaining * defaultSelectivity, h.distinctRemaining * defaultSelectivity)
  else (0.0, 0.0)

/-- Keeps the rows with a value in one of the ranges, and those with null if `includeNull`. The
second part is the fraction of rows that is kept. -/
def filter (h : Histogram K) (ranges : List Range) (includeNull : Bool) : Histogram K × K :=
  if !h.wellDefined then (h, defaultSelectivity)
  else
    let (freqRemaining, distinctRemaining) := h.filterRemaining ranges
    let kept : Histogram K :=
      { buckets := h.buckets.flatMap fun b => ranges.filterMap b.restrict?
        nullFreq := if includeNull then h.nullFreq else 0.0
        distinctRemaining, freqRemaining
        wellDefined := true
        statsMissing := h.statsMissing }
    (kept.normalize, kept.totalFrequency)

/-- The rows that join between two buckets: their values, the smaller number of different
values, and as frequency the fraction of the cross product of both relations. -/
def joinBuckets? (l r : Bucket K) : Option (Bucket K) :=
  (l.intersect? r).map fun (overlap, leftPart, rightPart) =>
    let leftNdv := if l.isSingleton then 1.0 else larger (l.distinct * leftPart) 1.0
    let rightNdv := if r.isSingleton then 1.0 else larger (r.distinct * rightPart) 1.0
    { overlap with
      frequency :=
        (l.frequency * leftPart) * (r.frequency * rightPart) / larger leftNdv rightNdv
      distinct := smaller leftNdv rightNdv }

/-- The rows that join among the values outside every bucket: frequency and
number of values. -/
def joinRemaining (h g : Histogram K) : K × K :=
  if epsilon < h.freqRemaining ∧ epsilon < g.freqRemaining then
    let ndv := larger (larger h.distinctRemaining g.distinctRemaining) 1.0
    (h.freqRemaining * g.freqRemaining / ndv, smaller h.distinctRemaining g.distinctRemaining)
  else (0.0, 0.0)

/-- The column of an equality join of two columns, and the fraction of the cross product that
joins; `none` when neither side has a bucket to go by. -/
def joinEquality? (h g : Histogram K) : Option (Histogram K × K) :=
  if !h.wellDefined || !g.wellDefined || (h.buckets.isEmpty && g.buckets.isEmpty) then none
  else
    let buckets := h.buckets.flatMap fun l => g.buckets.filterMap (joinBuckets? l)
    let (freqRemaining, distinctRemaining) := h.joinRemaining g
    let selectivity := buckets.foldl (fun acc b => acc + b.frequency) 0.0 + freqRemaining
    let joined : Histogram K :=
      { buckets
        nullFreq := 0.0
        distinctRemaining, freqRemaining
        wellDefined := true
        statsMissing := h.statsMissing || g.statsMissing }
    some (joined.normalize, selectivity)

/-- The part of a bucket whose values do not occur in the other buckets. -/
def unmatched? (others : List (Bucket K)) (l : Bucket K) : Option (Bucket K) :=
  let matched := sum <| others.filterMap fun r =>
    (l.intersect? r).map fun (overlap, part, _) => smaller overlap.distinct (l.distinct * part)
  let kept := clamp 0.0 1.0 (1.0 - matched / larger l.distinct 1.0)
  if kept ≤ epsilon then none
  else some
    { l with
      frequency := l.frequency * kept
      distinct := larger (l.distinct * kept) 1.0 }

/-- The rows of the left column whose value does not occur in the right one. -/
def antiJoin (h g : Histogram K) : Histogram K :=
  if !h.wellDefined || !g.wellDefined then h
  else
    normalize
      { h with
        buckets := h.buckets.filterMap (unmatched? g.buckets)
        wellDefined := true }

/-- One bucket for two that overlap. The values in the overlap count once. -/
def mergeBuckets (last b : Bucket K) (overlap : Range) : Bucket K :=
  let lastPart := last.overlapFraction overlap
  let part := b.overlapFraction overlap
  let shared := larger (last.distinct * lastPart) (b.distinct * part)
  let further := b.upper.compare last.upper == .gt
    || (b.upper == last.upper && b.upperClosed && !last.upperClosed)
  { last with
    distinct := shared + last.distinct * (1.0 - lastPart) + b.distinct * (1.0 - part)
    frequency := last.frequency + b.frequency
    upper := if further then b.upper else last.upper
    upperClosed := if further then b.upperClosed else last.upperClosed }

/-- Merges a bucket with the following ones of a rising list, as long as they overlap. -/
def mergeFrom (last : Bucket K) : List (Bucket K) → List (Bucket K)
  | [] => [last]
  | b :: bs =>
    match last.range.intersect? b.range with
    | some overlap => mergeFrom (mergeBuckets last b overlap) bs
    | none => last :: mergeFrom b bs

/-- Merges overlapping neighbours of a rising list of buckets. -/
def merge : List (Bucket K) → List (Bucket K)
  | [] => []
  | b :: bs => mergeFrom b bs

/-- The concatenation of a column of `rows` rows with one of `otherRows` rows. -/
def unionAll (h : Histogram K) (rows : K) (g : Histogram K) (otherRows : K) : Histogram K :=
  if !h.wellDefined && !g.wellDefined then unknown
  else if !g.wellDefined then h
  else if !h.wellDefined then g
  else if rows + otherRows ≤ epsilon then h
  else
    let weighted := h.buckets.map (·.scale rows) ++ g.buckets.map (·.scale otherRows)
    normalize
      { buckets := merge (Sorting.sort (fun b c => b.lower.compare c.lower == .lt) weighted)
        nullFreq := h.nullFreq * rows + g.nullFreq * otherRows
        distinctRemaining := larger h.distinctRemaining g.distinctRemaining
        freqRemaining := h.freqRemaining * rows + g.freqRemaining * otherRows
        wellDefined := true
        statsMissing := h.statsMissing || g.statsMissing }

/-- Adds nulls that make up a fraction of the result, as the unmatched side of an outer join
does. -/
def withNullPadding (h : Histogram K) (nullFraction : K) : Histogram K :=
  if !h.wellDefined then h
  else
    let keep := clamp 0.0 1.0 (1.0 - nullFraction)
    { h with
      buckets := h.buckets.map (·.scale keep)
      freqRemaining := h.freqRemaining * keep
      nullFreq := h.nullFreq * keep + clamp 0.0 1.0 nullFraction }

/-- The column after grouping by it: each value is left once. -/
def grouped (h : Histogram K) : Histogram K :=
  if !h.wellDefined then h
  else
    let ndv := h.ndv
    if ndv ≤ epsilon then h
    else
      { h with
        buckets := h.buckets.map fun b => { b with frequency := b.distinct / ndv }
        freqRemaining := h.distinctRemaining / ndv
        nullFreq := if epsilon < h.nullFreq then 1.0 / ndv else 0.0 }

end Histogram

end QueryOptimizer
