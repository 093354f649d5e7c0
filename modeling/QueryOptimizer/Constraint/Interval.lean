import QueryOptimizer.Constraint.Range
import QueryOptimizer.Error
import QueryOptimizer.Scalar.Analysis

/-!
# Intervals

An `Interval` says which values one column may take: a union of ranges in canonical form, and
null if `includeNull` is set. Intervals on one column can be intersected, united and
complemented. `Interval.toScalar` writes an interval as a predicate.
-/

namespace QueryOptimizer

/-- The values that one column may take. -/
structure Interval where
  column : Column
  ranges : List Range
  includeNull : Bool
  deriving Repr

namespace Interval

/-- Intervals are equal when they admit the same values of the same column, written alike. -/
instance : BEq Interval :=
  ⟨fun i j => i.column == j.column && i.ranges == j.ranges && i.includeNull == j.includeNull⟩

/-! ### Construction -/

/-- The interval of some ranges, brought into canonical form. -/
def ofRanges (column : Column) (ranges : List Range) (includeNull : Bool) : Interval :=
  ⟨column, Range.normalize ranges, includeNull⟩

/-- Any value or null. -/
def unbounded (column : Column) : Interval :=
  ofRanges column [.full] true

/-- Any value but null. -/
def notNull (column : Column) : Interval :=
  ofRanges column [.full] false

/-- Null and nothing else. -/
def nullOnly (column : Column) : Interval :=
  ofRanges column [] true

/-- The rows for which `column op null` is true. Nothing compares true with a null, except that
null is not distinct from null and every value is distinct from it. -/
def ofNullComparison? (column : Column) : BinaryOp → Option Interval
  | .eq | .notEq | .lt | .ltEq | .gt | .gtEq => some (ofRanges column [] false)
  | .isNotDistinctFrom => some (nullOnly column)
  | .isDistinctFrom => some (notNull column)
  | _ => none

/-- The ranges of the values for which `value op v` is true, for comparison operators. -/
def comparisonRanges? (v : Datum) : BinaryOp → Option (List Range)
  | .eq | .isNotDistinctFrom => some [.point v]
  | .notEq | .isDistinctFrom => some [.below v false, .above v false]
  | .lt => some [.below v false]
  | .ltEq => some [.below v true]
  | .gt => some [.above v false]
  | .gtEq => some [.above v true]
  | _ => none

/-- The rows for which `column op value` is true, `none` when the operator is no comparison. -/
def ofComparison? (column : Column) (op : BinaryOp) (value : Datum) : Option Interval :=
  if value.isNull then ofNullComparison? column op
  else
    (comparisonRanges? value op).map fun ranges =>
      ofRanges column ranges (op == .isDistinctFrom)

/-! ### Questions -/

/-- Whether no value is admitted, not even null. -/
def isContradiction (i : Interval) : Bool :=
  i.ranges.isEmpty && !i.includeNull

/-- Whether every value is admitted, null included. -/
def isUnbounded (i : Interval) : Bool :=
  i.includeNull &&
    match i.ranges with
    | [r] => r.isFull
    | _ => false

/-- The only value that is admitted. -/
def asPoint? (i : Interval) : Option Datum :=
  match i.ranges, i.includeNull with
  | [r], false => r.asPoint?
  | _, _ => none

/-! ### Algebra -/

/-- What both intervals admit. -/
def intersect (i j : Interval) : Interval :=
  ofRanges i.column (i.ranges.flatMap fun r => j.ranges.filterMap r.intersect?)
    (i.includeNull && j.includeNull)

/-- What either interval admits. -/
def union (i j : Interval) : Interval :=
  ofRanges i.column (i.ranges ++ j.ranges) (i.includeNull || j.includeNull)

/-- What the interval does not admit. -/
def complement (i : Interval) : Interval :=
  ofRanges i.column (Range.complement i.ranges) (!i.includeNull)

/-- The interval on the column that the map puts in place of its own. A column that is not in
the map is kept, or is an error if `strict`. -/
def rename (map : ColumnMap) (strict : Bool) (i : Interval) : OptResult Interval :=
  match map.get? i.column with
  | some c => .ok (ofRanges c i.ranges i.includeNull)
  | none =>
    if strict then .error (.unmappedColumn i.column.id)
    else .ok (ofRanges i.column i.ranges i.includeNull)

/-! ### As a predicate and as text -/

/-- The comparison of the column with a literal. -/
def comparison (c : Column) (op : BinaryOp) (v : Datum) : Scalar :=
  .binary op (.column c) (.literal v)

/-- The predicate that the column lies in a range; `none` for the full range. -/
def rangeToScalar? (c : Column) (r : Range) : Option Scalar :=
  match r.asPoint? with
  | some v => some (comparison c .eq v)
  | none =>
    let lower :=
      match r.start with
      | .unbounded => []
      | .included v => [comparison c .gtEq v]
      | .excluded v => [comparison c .gt v]
    let upper :=
      match r.stop with
      | .unbounded => []
      | .included v => [comparison c .ltEq v]
      | .excluded v => [comparison c .lt v]
    Scalar.conjoin? (lower ++ upper)

/-- The interval as a predicate. A full range only says that the column is not null. -/
def toScalar (i : Interval) : Scalar :=
  if i.isUnbounded then .ofBool true
  else
    let isNull := Scalar.isNull (.column i.column)
    let inRanges := i.ranges.map fun r => (rangeToScalar? i.column r).getD (.not isNull)
    (Scalar.disjoin? (inRanges ++ if i.includeNull then [isNull] else [])).getD (.ofBool false)

/-- The text of an interval. -/
def toText (i : Interval) : String :=
  i.column.toText ++ " in (" ++ Text.joined ", " (i.ranges.map Range.toText) ++ ")" ++
    (if i.includeNull then " or null" else "")

end Interval

end QueryOptimizer
