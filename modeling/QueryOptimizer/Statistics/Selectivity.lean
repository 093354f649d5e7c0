import QueryOptimizer.Config
import QueryOptimizer.Constraint.Property

/-!
# Selectivity

The selectivity of a predicate is the fraction of rows for which it holds. Predicates
are taken to be independent, but several of them are usually correlated to some
degree: with damping the strongest one counts in full, the next one with its square
root, and so on (`Estimate.combineSelectivities`). `Statistics.filter` estimates the
rows that pass a predicate.
-/

namespace QueryOptimizer

namespace Estimate

open Quantity

variable {K : Type} [Quantity K]

/-- The product of factors, of which the first counts in full, the second with its square root,
the third with its fourth root, and so on. -/
def dampedProduct (factors : List K) : K :=
  (factors.foldl
    (fun (acc, exponent) f => (acc * pow f exponent, exponent / 2.0)) (1.0, 1.0)).1

/-- The selectivity of several predicates together. -/
def combineSelectivities (selectivities : List K) (damping : Bool) : K :=
  if damping then dampedProduct (selectivities.mergeSort sortsBefore)
  else product selectivities

/-- The number of different combinations of columns with these numbers of different values. -/
def combineNdvs (ndvs : List K) (damping : Bool) : K :=
  if damping then
    dampedProduct ((ndvs.mergeSort fun a b => sortsBefore b a).map (larger · 1.0))
  else product ndvs

end Estimate

namespace Statistics

open Quantity Estimate

variable {K : Type} [Quantity K]

/-- The relation with all its rows taken away. -/
def cleared (s : Statistics K) : Statistics K :=
  { rows := minRows
    histograms := s.histograms.map fun _ => Histogram.empty
    widths := s.widths
    isEmpty := true
    ndvBounds := s.cappedBounds 0.0 }

/-- The number of different values of a column, or a default share of the rows. -/
def ndvOrDefault (s : Statistics K) (c : Column) : K :=
  (s.ndv? c).getD (s.rows * defaultSelectivity)

/-- The histograms after a conjunct of a predicate, and the selectivities that apply. Equal
columns have the selectivity of their larger number of different values. A restriction of one
column is read off its histogram, which it cuts down. -/
def filterConjunct (catalog : Catalog K) (s : Statistics K)
    (current : ByColumn (Histogram K)) (e : Scalar) :
    OptResult (ByColumn (Histogram K) × List K) := do
  if e.isTrue then return (current, [])
  if let some (l, r) := e.asColumnEquality? then
    let ndv := larger (larger (s.ndvOrDefault l) (s.ndvOrDefault r)) 1.0
    return (current, [1.0 / ndv])
  match ← Constraint.ofPredicate catalog e with
  | some (.interval i) =>
    match current.get? i.column.id with
    | some h =>
      if h.wellDefined then
        let (kept, selectivity) := h.filter i.ranges i.includeNull
        return (current.insert i.column.id kept, [selectivity])
      else return (current, [defaultSelectivity])
    | none => return (current, [defaultSelectivity])
  | _ => return (current, [defaultSelectivity])

/-- The histograms after some conjuncts, and the selectivities of all of them in order. -/
def filterConjuncts (catalog : Catalog K) (s : Statistics K) :
    ByColumn (Histogram K) → List Scalar → OptResult (ByColumn (Histogram K) × List K)
  | current, [] => return (current, [])
  | current, e :: es => do
    let (current, selectivities) ← s.filterConjunct catalog current e
    let (current, others) ← s.filterConjuncts catalog current es
    return (current, selectivities ++ others)

/-- The rows for which a predicate holds. -/
def filter (catalog : Catalog K) (config : Config K) (s : Statistics K) (e : Scalar) :
    OptResult (Statistics K) := do
  if s.isEmpty then return s
  if e.isFalse then return s.cleared
  if (← ConstraintProperty.ofPredicate catalog e).isContradiction then return s.cleared
  let (histograms, selectivities) ← s.filterConjuncts catalog s.histograms e.conjuncts
  let rows := larger (s.rows * combineSelectivities selectivities config.joinDamping) minRows
  return { s with rows, histograms, ndvBounds := s.cappedBounds rows }

end Statistics

end QueryOptimizer
