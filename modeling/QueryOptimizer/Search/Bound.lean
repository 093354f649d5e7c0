import QueryOptimizer.Number.Quantity

/-!
# Bounds on costs

While it compares plans the search carries an upper bound: plans that cost more are of no
interest. At the start there is no bound. Costs are quantities, so one may be infinite or no
number at all; such a cost is not below the absent bound, and nothing definite is left of the
absent bound after paying it.
-/

namespace QueryOptimizer

/-- An upper bound on costs; `none` bounds nothing. -/
structure CostBound (K : Type) where
  limit : Option K := none

namespace CostBound

open Quantity

variable {K : Type} [Quantity K]

/-- No bound. -/
def unlimited : CostBound K := {}

/-- Whether a cost is less than an unlimited amount. -/
def isAffordable (cost : K) : Bool :=
  isFinite cost || cost < 0.0

/-- What is left of a bound after paying a cost. -/
def less (b : CostBound K) (cost : K) : CostBound K :=
  match b.limit with
  | some l => ⟨some (l - cost)⟩
  | none => if isAffordable cost then unlimited else ⟨some (cost - cost)⟩

/-- Whether a cost is within a bound. -/
def admits (b : CostBound K) (cost : K) : Bool :=
  match b.limit with
  | some l => cost ≤ l
  | none => cost == cost

/-- The bound after a plan with this cost was found. -/
def tighten (b : CostBound K) (cost : K) : CostBound K :=
  match b.limit with
  | some l => if cost < l then ⟨some cost⟩ else b
  | none => if isAffordable cost then ⟨some cost⟩ else b

end CostBound

end QueryOptimizer
