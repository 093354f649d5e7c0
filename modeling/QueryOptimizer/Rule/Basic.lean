import QueryOptimizer.Rule.Implementation
import QueryOptimizer.Rule.Join
import QueryOptimizer.Rule.Limit
import QueryOptimizer.Rule.SetOperation

/-!
# Rules

What a rule is: the pattern that says where it applies, the promise that says how
early it is tried, and what it makes of a tree. A rule makes at most one tree of each
binding of its pattern.
-/

namespace QueryOptimizer

/-- How early a rule is tried. -/
inductive Promise where
  | low
  | medium
  | high
  deriving DecidableEq, Repr

namespace Promise

/-- The rank of a promise, the most promising highest. -/
def rank : Promise → Nat
  | low => 1
  | medium => 2
  | high => 3

/-- The name of a promise. -/
def name : Promise → String
  | low => "Low"
  | medium => "Medium"
  | high => "High"

end Promise

namespace RuleId

/-- The text of a rule. -/
def toText (r : RuleId) : String :=
  Text.quoted (r.name ++ "Rule")

/-- How early a rule is tried: implementations come first, so that there is a cost to compare
with. -/
def promise (r : RuleId) : Promise :=
  if r = innerJoinToIndexApply then .low
  else if r ∈ explorations then .medium
  else .high

/-- Where a rule applies. -/
def pattern : RuleId → Pattern
  | joinCommutativity => JoinRule.inner
  | joinAssociativity => JoinRule.innerOver (· == .inner)
  | innerJoinSemiJoinSwap => JoinRule.innerOver (· == .leftSemi)
  | innerJoinAntiSemiJoinSwap =>
    JoinRule.innerOver fun type => type == .leftAntiSemi || type == .leftAntiSemiNotIn
  | innerJoinToIndexApply => JoinRule.innerWithTable
  | pushLimitBelowProject => LimitRule.limitOver (·.project?.isSome)
  | mergeLimits => LimitRule.limitOver (·.limit?.isSome)
  | unionToUnionAllGroupBy => SetOperationRule.ofKind .union
  | differenceToAntiJoin => SetOperationRule.ofKind .difference
  | intersectToSemiJoin => SetOperationRule.ofKind .intersect
  | r => ImplementationRule.implementable r

/-- What a rule makes of a tree. -/
def apply {K : Type} (m : Memo K) (t : ExprTree) : RuleId → OptResult (Option ExprTree)
  | joinCommutativity => JoinRule.commute m t
  | joinAssociativity => JoinRule.associate m t
  | innerJoinSemiJoinSwap | innerJoinAntiSemiJoinSwap => JoinRule.swap m t
  | innerJoinToIndexApply => JoinRule.toIndexApply m t
  | pushLimitBelowProject => LimitRule.pushBelowProject m t
  | mergeLimits => LimitRule.merge m t
  | unionToUnionAllGroupBy => SetOperationRule.unionToUnionAll m t
  | differenceToAntiJoin => SetOperationRule.toJoin .leftAntiSemi m t
  | intersectToSemiJoin => SetOperationRule.toJoin .leftSemi m t
  | r => ImplementationRule.apply r m t

end RuleId

end QueryOptimizer
