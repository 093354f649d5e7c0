import QueryOptimizer.Datum
import QueryOptimizer.Sorting

/-!
# Ranges of datums

A `Range` is a contiguous set of datums, each end included, excluded or open. Lists of ranges
are brought into canonical form by `Range.normalize`: no range is empty, they rise, and no two
of them overlap or touch. `Range.complement` complements such a list.

A null is a datum like any other here; it sorts before all values.
-/

namespace QueryOptimizer

/-- One end of a range. -/
inductive Bound where
  | included (value : Datum)
  | excluded (value : Datum)
  | unbounded
  deriving DecidableEq, Repr

namespace Bound

/-- The datum at the end, if the end is not open. -/
def value? : Bound → Option Datum
  | included v | excluded v => some v
  | unbounded => none

/-- Whether the end is open. -/
def isUnbounded : Bound → Bool
  | unbounded => true
  | _ => false

/-- Whether the datum at the end belongs to the range. -/
def isIncluded : Bound → Bool
  | included _ => true
  | _ => false

/-- Whether the datum at the end is left out. An open end leaves out nothing. -/
def isExcluded : Bound → Bool
  | excluded _ => true
  | _ => false

/-- The same end seen from the other side. -/
def flip : Bound → Bound
  | included v => excluded v
  | excluded v => included v
  | unbounded => unbounded

/-- Orders lower ends. An open end comes first, and at one value an included end starts before
an excluded one. -/
def compareStart : Bound → Bound → Ordering
  | unbounded, unbounded => .eq
  | unbounded, _ => .lt
  | _, unbounded => .gt
  | included a, excluded b => (a.compare b).then .lt
  | excluded a, included b => (a.compare b).then .gt
  | included a, included b => a.compare b
  | excluded a, excluded b => a.compare b

/-- Orders upper ends. An open end comes last, and at one value an excluded end ends before an
included one. -/
def compareEnd : Bound → Bound → Ordering
  | unbounded, unbounded => .eq
  | unbounded, _ => .gt
  | _, unbounded => .lt
  | excluded a, included b => (a.compare b).then .lt
  | included a, excluded b => (a.compare b).then .gt
  | included a, included b => a.compare b
  | excluded a, excluded b => a.compare b

end Bound

/-- A contiguous range of datums. -/
structure Range where
  start : Bound
  stop : Bound
  deriving DecidableEq, Repr

namespace Range

/-- The range of all datums. -/
def full : Range :=
  ⟨.unbounded, .unbounded⟩

/-- The range of one datum. -/
def point (value : Datum) : Range :=
  ⟨.included value, .included value⟩

/-- The datums below a value, the value itself if `inclusive`. -/
def below (value : Datum) (inclusive : Bool) : Range :=
  ⟨.unbounded, if inclusive then .included value else .excluded value⟩

/-- The datums above a value, the value itself if `inclusive`. -/
def above (value : Datum) (inclusive : Bool) : Range :=
  ⟨if inclusive then .included value else .excluded value, .unbounded⟩

/-- Whether no datum lies in the range, as far as its ends tell. -/
def isEmpty (r : Range) : Bool :=
  match r.start.value?, r.stop.value? with
  | some a, some b =>
    match a.compare b with
    | .gt => true
    | .eq => !(r.start.isIncluded && r.stop.isIncluded)
    | .lt => false
  | _, _ => false

/-- Whether both ends are open. -/
def isFull (r : Range) : Bool :=
  r.start.isUnbounded && r.stop.isUnbounded

/-- The only value of the range, when it is a point. -/
def asPoint? (r : Range) : Option Datum :=
  match r.start, r.stop with
  | .included a, .included b => if a.compare b == .eq then some a else none
  | _, _ => none

/-- Whether a datum lies in the range. -/
def contains (r : Range) (value : Datum) : Bool :=
  (match r.start with
    | .unbounded => true
    | .included a => value.compare a != .lt
    | .excluded a => value.compare a == .gt) &&
  (match r.stop with
    | .unbounded => true
    | .included b => value.compare b != .gt
    | .excluded b => value.compare b == .lt)

/-- The datums in both ranges, `none` when there are none. -/
def intersect? (r s : Range) : Option Range :=
  let start := if r.start.compareStart s.start == .lt then s.start else r.start
  let stop := if r.stop.compareEnd s.stop == .gt then s.stop else r.stop
  let both : Range := ⟨start, stop⟩
  if both.isEmpty then none else some both

/-- Whether a range that does not start earlier overlaps this one or continues it without a
gap. -/
def touches (r next : Range) : Bool :=
  match r.stop.value?, next.start.value? with
  | some stop, some start =>
    match start.compare stop with
    | .lt => true
    | .eq => r.stop.isIncluded || next.start.isIncluded
    | .gt => false
  | _, _ => true

/-- The range with its end moved up to that of `next`, if that is further. -/
def extend (r next : Range) : Range :=
  if next.stop.compareEnd r.stop == .gt then ⟨r.start, next.stop⟩ else r

/-- Merges a range with those that follow it, as long as they touch. The ranges must rise. -/
def mergeFrom (current : Range) : List Range → List Range
  | [] => [current]
  | r :: rs =>
    if current.touches r then mergeFrom (current.extend r) rs else current :: mergeFrom r rs

/-- Merges touching ranges of a rising list. -/
def merge : List Range → List Range
  | [] => []
  | r :: rs => mergeFrom r rs

/-- Whether one range starts strictly before another. -/
def startsBefore (r s : Range) : Bool :=
  r.start.compareStart s.start == .lt

/-- The canonical form of a list of ranges: empty ones dropped, the others
sorted and merged. -/
def normalize (ranges : List Range) : List Range :=
  merge (Sorting.sort startsBefore (ranges.filter (!·.isEmpty)))

/-- The gaps of a rising list of ranges from a lower end on. -/
def gapsFrom (lower : Bound) : List Range → List Range
  | [] => [⟨lower, .unbounded⟩]
  | r :: rs =>
    let gap := if r.start.isUnbounded then [] else [⟨lower, r.start.flip⟩]
    if r.stop.isUnbounded then gap else gap ++ gapsFrom r.stop.flip rs

/-- The datums in none of the ranges, for ranges in canonical form. -/
def complement (ranges : List Range) : List Range :=
  normalize (gapsFrom .unbounded ranges)

/-- The text of a range, in interval notation. -/
def toText (r : Range) : String :=
  (match r.start with
    | .unbounded => "(-inf"
    | .included a => "[" ++ a.toText
    | .excluded a => "(" ++ a.toText) ++ ", " ++
  (match r.stop with
    | .unbounded => "inf)"
    | .included b => b.toText ++ "]"
    | .excluded b => b.toText ++ ")")

end Range

end QueryOptimizer
