import QueryOptimizer.Config
import QueryOptimizer.Operator.Physical
import QueryOptimizer.Property.Physical

/-!
# Enforcement of physical properties

When an expression does not deliver what is required, a motion brings the required distribution
about and a sort the required order. The motion comes first, because it destroys every order.
-/

namespace QueryOptimizer

/-- An operator put on top of a plan and the property that it delivers there. -/
structure Enforcer where
  operator : PhysicalOperator
  delivers : PhysicalProperty
  deriving BEq

/-- The motion toward a distribution, unless motions of its kind are switched off or none leads
there. -/
def Distribution.motion? (d : Distribution) (flags : TraceFlags) : Option Motion := do
  if flags.disableMotions then none
  let m ← Motion.toward? d
  match m.kind with
  | .random => if flags.disableMotionRandom then none else some m
  | .broadcast => if flags.disableMotionBroadcast then none else some m
  | _ => some m

namespace PhysicalProperty

/-- The sort that is missing, if any. -/
def sortEnforcers (required current : PhysicalProperty) : List Enforcer :=
  if current.order.satisfies required.order then []
  else [⟨.sort required.order, { current with order := required.order }⟩]

/-- The enforcers that lead from a delivered property to a required one, from the bottom
upwards. There are none if the delivered property is good enough, and none if no motion leads
to the required distribution. -/
def enforcers (required delivered : PhysicalProperty) (flags : TraceFlags) : List Enforcer :=
  if delivered.distribution.satisfies required.distribution then
    required.sortEnforcers delivered
  else
    match required.distribution.motion? flags with
    | none => []
    | some m =>
      let moved := ofDistribution required.distribution
      ⟨.motion m, moved⟩ :: required.sortEnforcers moved

end PhysicalProperty

end QueryOptimizer
