import QueryOptimizer.Catalog.Basic
import QueryOptimizer.Config
import QueryOptimizer.Statistics.Shaping

/-!
# Estimates of stored tables and literal rows

What is known about a table comes from the catalog; literal rows are counted, so
their statistics are exact.
-/

namespace QueryOptimizer

/-- The position of a column in its table: the recorded one, or `index` for a column that was
not read from a table. -/
def Column.positionOr (index : Nat) (c : Column) : Nat :=
  match c.origin with
  | .table _ (.ofNat position) _ _ => position
  | _ => index

namespace Statistics

open Quantity Estimate

variable {K : Type} [Quantity K]

/-- A table read into columns. Tables without statistics have the configured number of rows,
columns without a histogram one that knows nothing. -/
def ofTable (catalog : Catalog K) (config : Config K) (t : Table) (cols : List Column) :
    OptResult (Statistics K) := do
  let stats ← (catalog.tableStats? t.id).orFail
  let histogram (c : Column) (index : Nat) : Histogram K :=
    (stats.bind (·.histograms.get? (c.positionOr index))).getD (.unknownOf c)
  return ofParts ((stats.map (·.rows)).getD config.defaultRows)
    (.ofList (cols.mapIdx fun index c => (c.id, histogram c index)))
    (.ofList (cols.map fun c => (c.id, columnWidth c)))

/-- The values of a column of literal rows; a row may be too short to have one. -/
def literalColumn (rows : List (List Datum)) (index : Nat) : List Datum :=
  rows.filterMap (·[index]?)

/-- Literal rows of columns. -/
def ofRows (cols : List Column) (rows : List (List Datum)) : Statistics K :=
  if rows.isEmpty then empty cols
  else
    let count : K := ofNat rows.length
    { ofParts count
        (.ofList (cols.mapIdx fun index c => (c.id, .ofValues (literalColumn rows index))))
        (.ofList (cols.map fun c => (c.id, columnWidth c))) with
      ndvBounds := cols.map fun c => ⟨.singleton c, count⟩ }

end Statistics

end QueryOptimizer
