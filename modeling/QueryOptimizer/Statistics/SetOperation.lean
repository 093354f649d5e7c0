import QueryOptimizer.Statistics.Join
import QueryOptimizer.Statistics.Shaping

/-!
# Estimates of set operations

Each input of a set operation has a list of columns that is matched by position with the output
columns. `Statistics.unionAll` concatenates; the other operations are semi and anti joins over
all columns, after grouping when duplicates are removed.
-/

namespace QueryOptimizer

namespace Statistics

open Quantity Estimate

variable {K : Type} [Quantity K]

/-- An input of a set operation: its estimates and its columns in output order. -/
structure SetInput (K : Type) where
  stats : Statistics K
  cols : List Column

namespace SetInput

/-- The input under the names of the output columns. -/
def renamed (i : SetInput K) (output : List Column) : Statistics K :=
  i.stats.rename i.cols output

end SetInput

/-- The histogram of a column of a concatenation. -/
def concatHistogram (first second : Statistics K) (l r : Column) : Histogram K :=
  match first.histogram? l, second.histogram? r with
  | some h, some g => h.unionAll first.rows g second.rows
  | some h, none | none, some h => h
  | none, none => .unknown

/-- The bound on the values of a column of a concatenation, where one of the parts has one. -/
def concatBound? (first second : Statistics K) (rows : K) (out l r : Column) :
    Option (NdvBound K) :=
  match first.ndvBound? l, second.ndvBound? r with
  | none, none => none
  | b, c => some ⟨.singleton out, smaller (b.getD first.rows + c.getD second.rows) rows⟩

/-- The concatenation of two inputs. -/
def unionAll (first second : SetInput K) (output : List Column) : Statistics K :=
  match first.stats.isEmpty, second.stats.isEmpty with
  | true, true => empty output
  | false, true => first.renamed output
  | true, false => second.renamed output
  | false, false =>
    let s := first.stats
    let t := second.stats
    let rows := s.rows + t.rows
    let triples := (output.zip first.cols).zip second.cols
    { rows := larger rows minRows
      histograms :=
        .ofList <| triples.map fun ((out, l), r) => (out.id, concatHistogram s t l r)
      widths := .ofList <| triples.map fun ((out, l), r) =>
        (out.id, ((s.width? l).or (t.width? r)).getD (columnWidth out))
      isEmpty := false
      ndvBounds := triples.filterMap fun ((out, l), r) => concatBound? s t rows out l r }

/-- The concatenation of any number of inputs. -/
def unionAllOf (inputs : List (SetInput K)) (output : List Column) : Statistics K :=
  match inputs with
  | [] => empty output
  | first :: others =>
    others.foldl (fun acc i => unionAll ⟨acc, output⟩ i output) (first.renamed output)

/-- The rows of the first input without those of the second, duplicates kept. -/
def differenceAll (config : Config K) (first second : SetInput K) (output : List Column) :
    Statistics K :=
  (antiJoin config first.stats second.stats (.ofColumns first.cols second.cols)
    false true).rename first.cols output

/-- The different rows of the first input without those of the second. -/
def difference (config : Config K) (first second : SetInput K) (output : List Column) :
    Statistics K :=
  (antiJoin config (first.stats.groupBy config first.cols []) second.stats
    (.ofColumns first.cols second.cols) false false).rename first.cols output

/-- The rows of the first input that the second has too, duplicates kept. -/
def intersectAll (config : Config K) (first second : SetInput K) (output : List Column) :
    Statistics K :=
  (semiJoin config first.stats second.stats (.ofColumns first.cols second.cols)).rename
    first.cols output

/-- The different rows of the first input that the second has too. -/
def intersect (config : Config K) (first second : SetInput K) (output : List Column) :
    Statistics K :=
  (semiJoin config (first.stats.groupBy config first.cols []) second.stats
    (.ofColumns first.cols second.cols)).rename first.cols output

end Statistics

end QueryOptimizer
