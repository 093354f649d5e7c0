/-!
# Kinds of joins and set operations

The ways in which a join treats rows without a match, and the set operations. Kinds are shared
by the operators, by the estimates of their results and by the rules that rewrite them.
-/

namespace QueryOptimizer

/-- What a join does with the rows of its left input. -/
inductive JoinType where
  /-- Pairs of matching rows. -/
  | inner
  /-- Pairs of matching rows, and left rows without a match padded with nulls. -/
  | leftOuter
  /-- Left rows with a match. -/
  | leftSemi
  /-- Left rows without a match. -/
  | leftAntiSemi
  /-- Left rows for which no comparison is true or unknown: one null on the right side rejects
  every row. -/
  | leftAntiSemiNotIn
  deriving DecidableEq, Repr, Hashable

namespace JoinType

/-- The name of the join type. -/
def name : JoinType → String
  | inner => "Inner"
  | leftOuter => "LeftOuter"
  | leftSemi => "LeftSemi"
  | leftAntiSemi => "LeftAntiSemi"
  | leftAntiSemiNotIn => "LeftAntiSemiNotIn"

/-- Whether only columns of the left input are produced. -/
def isLeftOnly : JoinType → Bool
  | leftSemi | leftAntiSemi | leftAntiSemiNotIn => true
  | inner | leftOuter => false

end JoinType

/-- A set operation. Those that keep duplicates have a name with `All`. -/
inductive SetOpKind where
  | unionAll
  | union
  | difference
  | differenceAll
  | intersect
  | intersectAll
  deriving DecidableEq, Repr, Hashable

namespace SetOpKind

/-- The name of the set operation. -/
def name : SetOpKind → String
  | unionAll => "UnionAll"
  | union => "Union"
  | difference => "Difference"
  | differenceAll => "DifferenceAll"
  | intersect => "Intersect"
  | intersectAll => "IntersectAll"

/-- Whether duplicates are removed from the result. -/
def isDistinct : SetOpKind → Bool
  | union | difference | intersect => true
  | unionAll | differenceAll | intersectAll => false

end SetOpKind

end QueryOptimizer
