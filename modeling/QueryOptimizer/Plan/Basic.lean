import QueryOptimizer.Derivation.Basic
import QueryOptimizer.Operator.Basic
import QueryOptimizer.Property.Physical

/-!
# Plans

A plan is an operator with the plans of its inputs. The plan of a query that is yet to be
optimized has logical operators; what comes out of an optimization has physical ones, and each
of its nodes carries what the optimizer knows about it (`PlanEstimate`).

Node ids tell nodes apart that are used in several places. They are no part of what a plan
says, so equality of plans (`==`) leaves them out.
-/

namespace QueryOptimizer

/-- What the optimizer knows about a node of a plan that it made. -/
structure PlanEstimate (K : Type) where
  relation : Relation K
  /-- The physical property that the node was chosen for. -/
  delivers : PhysicalProperty
  /-- The cost of the node together with everything below it. -/
  cost : K
  deriving BEq

/-- An operator with the plans of its inputs. -/
structure Plan (K : Type) where
  id : Nat
  operator : Operator
  inputs : List (Plan K)
  estimate : Option (PlanEstimate K) := none

namespace Plan

variable {K : Type}

/-- The cost of a plan that was made by an optimization. -/
def cost (p : Plan K) : Option K :=
  p.estimate.map (·.cost)

mutual

/-- Whether two plans are equal up to their node ids. -/
def equal [BEq K] : Plan K → Plan K → Bool
  | ⟨_, op, inputs, estimate⟩, ⟨_, op', inputs', estimate'⟩ =>
    op == op' && equalAll inputs inputs' && estimate == estimate'
termination_by structural p => p

/-- Whether two lists hold equal plans. -/
def equalAll [BEq K] : List (Plan K) → List (Plan K) → Bool
  | [], [] => true
  | p :: ps, q :: qs => p.equal q && equalAll ps qs
  | _, _ => false
termination_by structural ps => ps

end

instance [BEq K] : BEq (Plan K) := ⟨equal⟩

end Plan

end QueryOptimizer
