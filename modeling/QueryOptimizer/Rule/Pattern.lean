import QueryOptimizer.Operator.Basic

/-!
# Patterns

A pattern says which trees of expressions a rule applies to: which operators are accepted at
the root and, as far as the rule looks into them, below it.
-/

namespace QueryOptimizer

/-- A shape of trees of expressions. -/
inductive Pattern where
  /-- Any input group as a whole. -/
  | group
  /-- An expression with such an operator, whose inputs are not looked into. -/
  | leaf (accepts : Operator → Bool)
  /-- An expression with such an operator and one input for each of the patterns. -/
  | node (accepts : Operator → Bool) (inputs : List Pattern)

namespace Pattern

/-- Accepts every operator. -/
def any (_ : Operator) : Bool := true

/-- The pattern with the given inputs. Without any, the inputs are not looked into. -/
def ofInputs (accepts : Operator → Bool) : List Pattern → Pattern
  | [] => leaf accepts
  | inputs => node accepts inputs

/-- Whether an operator is accepted at the root. -/
def acceptsRoot : Pattern → Operator → Bool
  | group => any
  | leaf accepts | node accepts _ => accepts

end Pattern

end QueryOptimizer
