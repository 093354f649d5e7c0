import QueryOptimizer.Operator.Kind
import QueryOptimizer.Statistics.Selectivity

/-!
# Estimates of joins

A join predicate is split into equalities of a left with a right column and everything else
(`JoinPredicate`). An equality is estimated from the histograms of its columns where they say
enough, otherwise from the numbers of different values; every other conjunct has the default
selectivity. The joins that keep only left rows are estimated through the inner join.
-/

namespace QueryOptimizer

/-- A join predicate: the equalities of a left with a right column, and the number of its other
conjuncts. -/
structure JoinPredicate where
  equalities : List (Column × Column) := []
  others : Nat := 0
  deriving Repr

namespace JoinPredicate

/-- A conjunct as an equality of a left with a right column. -/
def equality? (left right : ColumnSet) (e : Scalar) : Option (Column × Column) :=
  match e.asColumnEquality? with
  | some (l, r) =>
    if left.contains l && right.contains r then some (l, r)
    else if left.contains r && right.contains l then some (r, l)
    else none
  | none => none

/-- The parts of a predicate over inputs with these columns. Conjuncts that are always true are
left out. -/
def ofPredicate (e : Scalar) (left right : ColumnSet) : JoinPredicate :=
  let conjuncts := e.conjuncts.filter (!·.isTrue)
  { equalities := conjuncts.filterMap (equality? left right)
    others := (conjuncts.filter fun e => (equality? left right e).isNone).length }

/-- The equality of two rows column by column, as set operations compare them. -/
def ofColumns (left right : List Column) : JoinPredicate :=
  { equalities := left.zip right }

/-- Whether every pair of rows joins. -/
def isCrossProduct (p : JoinPredicate) : Bool :=
  p.equalities.isEmpty && p.others == 0

end JoinPredicate

namespace Statistics

open Quantity Estimate

variable {K : Type} [Quantity K]

/-- The selectivity of the equality of two columns, with the histogram of both in the result
when their histograms could be joined. -/
def equalitySelectivity (left right : Statistics K) (l r : Column) :
    K × Option (Histogram K) :=
  let joined := do (← left.histogram? l).joinEquality? (← right.histogram? r)
  match joined with
  | some (h, selectivity) => (selectivity, some h)
  | none =>
    let leftNdv := (left.ndv? l).getD left.rows
    let rightNdv := (right.ndv? r).getD right.rows
    (1.0 / larger (larger leftNdv rightNdv) 1.0, none)

/-- The columns of both inputs in a result of `rows` rows. -/
def sideBySide (left right : Statistics K) (rows : K) : Statistics K :=
  { rows := larger rows minRows
    histograms := left.histograms.union right.histograms
    widths := left.widths.union right.widths
    isEmpty := left.isEmpty || right.isEmpty
    ndvBounds := left.cappedBounds rows ++ right.cappedBounds rows }

/-- The pairs of matching rows. -/
def innerJoin (config : Config K) (left right : Statistics K) (p : JoinPredicate) :
    Statistics K :=
  if left.isEmpty || right.isEmpty then (sideBySide left right minRows).cleared
  else
    let parts := p.equalities.map fun (l, r) => ((l, r), equalitySelectivity left right l r)
    let selectivities :=
      parts.map (·.2.1) ++ List.replicate p.others (defaultSelectivity : K)
    let rows := larger
      (left.rows * right.rows * combineSelectivities selectivities config.joinDamping) minRows
    let joined := sideBySide left right rows
    { joined with
      histograms := joined.histograms.insertMany <| parts.flatMap fun ((l, r), _, h) =>
        match h with
        | some h => [(l.id, h), (r.id, h)]
        | none => [] }

/-- The left rows that have a match. One row for each different right key stands for the right
input, so that its duplicates do not count. -/
def semiJoin (config : Config K) (left right : Statistics K) (p : JoinPredicate) :
    Statistics K :=
  if left.isEmpty || right.isEmpty then left.cleared
  else
    let rows :=
      if p.isCrossProduct then left.rows
      else
        let keys := p.equalities.map fun (_, r) => (right.ndv? r).getD right.rows
        let distinctRight :=
          if keys.isEmpty then right
          else
            { right with
              rows := larger
                (smaller (combineNdvs keys config.joinDamping) right.rows) minRows }
        smaller (innerJoin config left distinctRight p).rows left.rows
    { left with
      rows := larger rows minRows
      isEmpty := false
      ndvBounds := left.cappedBounds rows }

/-- The left rows that have no match. If the comparison is that of a list membership (`notIn`),
a null on the right side leaves nothing. The matched values are taken out of the left
histograms unless `keepHistograms` is set. -/
def antiJoin (config : Config K) (left right : Statistics K) (p : JoinPredicate)
    (notIn keepHistograms : Bool) : Statistics K :=
  if left.isEmpty || right.isEmpty then left
  else
    let rightHasNulls := notIn && p.equalities.any fun (_, r) =>
      (right.histogram? r).any fun h => h.wellDefined && decide (0.0 < h.nullFreq)
    let rows :=
      if rightHasNulls then minRows
      else larger (left.rows - (semiJoin config left right p).rows) minRows
    let histograms :=
      if keepHistograms || config.skipAntiJoinHistograms then left.histograms
      else
        left.histograms.insertMany <| p.equalities.filterMap fun (l, r) => do
          return (l.id, (← left.histogram? l).antiJoin (← right.histogram? r))
    { left with rows, histograms, isEmpty := false, ndvBounds := left.cappedBounds rows }

/-- The pairs of matching rows, and the left rows without a match padded with nulls. -/
def leftOuterJoin (config : Config K) (left right : Statistics K) (p : JoinPredicate) :
    Statistics K :=
  if left.isEmpty then (sideBySide left right minRows).cleared
  else
    let inner := innerJoin config left right p
    let anti := antiJoin config left right p false false
    let innerRows := if right.isEmpty then 0.0 else inner.rows
    let antiRows := if right.isEmpty then left.rows else anti.rows
    let rows := larger (innerRows + antiRows) left.rows
    let joined := sideBySide left right rows
    let leftHistograms := left.histograms.ids.filterMap fun id =>
      match inner.histograms.get? id, anti.histograms.get? id with
      | some i, some a =>
        some (id, if 0.0 < innerRows then i.unionAll innerRows a antiRows else a)
      | none, some a => some (id, a)
      | some i, none => some (id, i)
      | none, none => none
    let rightHistograms := right.histograms.ids.filterMap fun id =>
      if right.isEmpty then some (id, Histogram.nullOnly)
      else (inner.histograms.get? id).map fun h => (id, h.withNullPadding (antiRows / rows))
    { joined with
      isEmpty := false
      histograms := (joined.histograms.insertMany leftHistograms).insertMany rightHistograms }

/-- The rows of a join of the given type. -/
def join (config : Config K) (type : JoinType) (left right : Statistics K)
    (p : JoinPredicate) :
    Statistics K :=
  match type with
  | .inner => innerJoin config left right p
  | .leftOuter => leftOuterJoin config left right p
  | .leftSemi => semiJoin config left right p
  | .leftAntiSemi => antiJoin config left right p false false
  | .leftAntiSemiNotIn => antiJoin config left right p true false

end Statistics

end QueryOptimizer
