import QueryOptimizer.Statistics.Selectivity

/-!
# Estimates of grouping, projection and limits

The operations that reshape the rows of one relation: `Statistics.groupBy` leaves one row for
each combination of key values, `Statistics.project` computes further columns,
`Statistics.limit` cuts the relation off after a number of rows.
-/

namespace QueryOptimizer

namespace Histogram

/-- The histogram of a column about which nothing is known. -/
def unknownOf {K : Type} [Quantity K] (c : Column) : Histogram K :=
  if c.isBoolean then unknownBoolean else unknown

end Histogram

namespace Statistics

open Quantity Estimate

variable {K : Type} [Quantity K]

/-! ### Grouping -/

/-- The number of groups: the different combinations of key values, which neither the rows nor
a bound recorded for just these keys can be fewer than. Without keys there is one group. -/
def groupCount (config : Config K) (s : Statistics K) (keys : List Column) : K :=
  if keys.isEmpty then minRows
  else
    let ndvs := keys.map fun c =>
      (s.ndv? c).getD (larger (s.rows * defaultSelectivity) minRows)
    let count := smaller (combineNdvs ndvs config.joinDamping) s.rows
    let bounds := (s.ndvBounds.filter (·.cols == ColumnSet.ofList keys)).map (·.bound)
    larger (bounds.foldl smaller count) minRows

/-- One row for each combination of key values, with computed aggregates beside it. Without
keys there is one row even if the input has none. -/
def groupBy (config : Config K) (s : Statistics K) (keys aggregates : List Column) :
    Statistics K :=
  if s.isEmpty && !keys.isEmpty then empty (keys ++ aggregates)
  else
    let rows := s.groupCount config keys
    let kept := keys.filterMap fun c => (s.histogram? c).map fun h => (c.id, h.grouped)
    let widths := keys.map fun c => (c.id, (s.width? c).getD (columnWidth c))
    let bounds := (s.cappedBounds rows).filter fun u => u.cols.toList.all keys.contains
    { rows
      histograms := .ofList (kept ++ aggregates.map fun c => (c.id, .unknownOf c))
      widths := .ofList (widths ++ aggregates.map fun c => (c.id, columnWidth c))
      isEmpty := false
      ndvBounds := bounds ++ if keys.isEmpty then [] else [⟨.ofList keys, rows⟩] }

/-! ### Projection -/

/-- The histogram of a computed column: that of the column it renames, that of its constant
value, or that of a column about which nothing is known. -/
def definedHistogram (s : Statistics K) (d : Definition) : Histogram K :=
  match d.2 with
  | .column source => (s.histogram? source).getD (.unknownOf d.1)
  | .literal value => .ofConstant value
  | _ => .unknownOf d.1

/-- Adds a computed column over the relation `input` to the estimates `s`. A column that has a
histogram already is left alone; a new one has no more different values than there are rows. -/
def define (input s : Statistics K) (d : Definition) : Statistics K :=
  if s.histograms.contains d.1.id then s
  else
    { s with
      histograms := s.histograms.insert d.1.id (input.definedHistogram d)
      widths := s.widths.insert d.1.id (columnWidth d.1)
      ndvBounds := s.ndvBounds ++ [⟨.singleton d.1, input.rows⟩] }

/-- The relation with computed columns beside its own. -/
def project (s : Statistics K) (definitions : List Definition) : Statistics K :=
  definitions.foldl s.define s

/-! ### Limits -/

/-- The relation cut down to a number of rows. -/
def limit (s : Statistics K) (count : K) : Statistics K :=
  let rows := if s.isEmpty then minRows else larger count minRows
  { s with rows, ndvBounds := s.cappedBounds rows }

end Statistics

end QueryOptimizer
