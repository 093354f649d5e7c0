import QueryOptimizer.Column.Renaming
import QueryOptimizer.Column.Table
import QueryOptimizer.Statistics.Histogram

/-!
# Statistics

What the optimizer estimates about the rows of a relation: how many there are, how the values
of each column are distributed, how wide each column is, and bounds on the number of different
values. Statistics that are marked empty belong to a relation that provably has no rows; the
row estimate itself is never below one.
-/

namespace QueryOptimizer

/-- A bound on the number of different value tuples of a set of columns. -/
structure NdvBound (K : Type) where
  cols : ColumnSet
  bound : K
  deriving BEq

namespace NdvBound

open Quantity

variable {K : Type} [Quantity K]

/-- The bound after the relation shrinks to `rows` rows. -/
def capped (u : NdvBound K) (rows : K) : NdvBound K :=
  { u with bound := smaller u.bound rows }

/-- The bound for those of its columns that are kept, `none` when none of them is. -/
def restrict? (u : NdvBound K) (cols : ColumnSet) : Option (NdvBound K) :=
  let kept := u.cols.inter cols
  if kept.isEmpty then none else some ⟨kept, u.bound⟩

/-- The bound under new column names, `none` when a column has no new name. -/
def rename? (u : NdvBound K) (map : ColumnMap) : Option (NdvBound K) :=
  (u.cols.toList.mapM map.get?).map fun cols => ⟨.ofList cols, u.bound⟩

end NdvBound

/-- Estimates about the rows of a relation. -/
structure Statistics (K : Type) where
  rows : K
  histograms : ByColumn (Histogram K)
  widths : ByColumn K
  isEmpty : Bool := false
  ndvBounds : List (NdvBound K) := []
  deriving BEq

namespace Statistics

open Quantity Estimate

variable {K : Type} [Quantity K]

/-- The width of a column as a quantity. -/
def columnWidth (c : Column) : K :=
  ofNat c.width

/-- Statistics with the given contents; the row estimate is raised to at least one. -/
def ofParts (rows : K) (histograms : ByColumn (Histogram K)) (widths : ByColumn K) :
    Statistics K :=
  { rows := larger rows minRows, histograms, widths }

/-- The statistics of a relation with these columns that has no rows. -/
def empty (cols : List Column) : Statistics K :=
  { rows := minRows
    histograms := .ofList (cols.map fun c => (c.id, Histogram.empty))
    widths := .ofList (cols.map fun c => (c.id, columnWidth c))
    isEmpty := true }

/-- The histogram of a column. -/
def histogram? (s : Statistics K) (c : Column) : Option (Histogram K) :=
  s.histograms.get? c.id

/-- The recorded width of a column. -/
def width? (s : Statistics K) (c : Column) : Option K :=
  s.widths.get? c.id

/-- The bytes of one row. -/
def rowWidth (s : Statistics K) : K :=
  sum s.widths.values

/-- The least bound recorded for a column set with the column in it. -/
def ndvBound? (s : Statistics K) (c : Column) : Option K :=
  match (s.ndvBounds.filter (·.cols.contains c)).map (·.bound) with
  | [] => none
  | b :: bs => some (bs.foldl smaller b)

/-- The best estimate of the number of different values of a column. -/
def ndv? (s : Statistics K) (c : Column) : Option K :=
  let counted := (s.histogram? c).filter fun h => h.wellDefined && !h.statsMissing
  match counted, s.ndvBound? c with
  | some h, some b => some (smaller h.ndv b)
  | some h, none => some (smaller h.ndv s.rows)
  | none, b => b

/-- The bounds after the relation shrinks to `rows` rows. -/
def cappedBounds (s : Statistics K) (rows : K) : List (NdvBound K) :=
  s.ndvBounds.map (·.capped rows)

/-- The statistics of some of the columns. -/
def restrict (s : Statistics K) (cols : ColumnSet) : Statistics K :=
  { s with
    histograms := s.histograms.filter cols.containsId
    widths := s.widths.filter cols.containsId
    ndvBounds := s.ndvBounds.filterMap (·.restrict? cols) }

/-- The statistics of the columns `source`, each under the name at its position in `target`. -/
def rename (s : Statistics K) (source target : List Column) : Statistics K :=
  let map := ColumnMap.ofLists source target
  let pairs := source.zip target
  { s with
    histograms := .ofList <| pairs.filterMap fun (src, dst) =>
      (s.histogram? src).map fun h => (dst.id, h)
    widths := .ofList <| pairs.map fun (src, dst) =>
      (dst.id, (s.width? src).getD (columnWidth dst))
    ndvBounds := s.ndvBounds.filterMap (·.rename? map) }

end Statistics

end QueryOptimizer
