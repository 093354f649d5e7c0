import QueryOptimizer.Operator.Logical

/-!
# Rules and sets of rules

A rule turns an expression into equivalent ones. Exploration rules give logical expressions,
implementation rules give physical ones. This module names the rules; a search stage enables a
`RuleSet`, and each logical operator has candidates (`LogicalOperator.candidateRules`).
-/

namespace QueryOptimizer

/-- A rule, in the order in which rules are listed. -/
inductive RuleId where
  -- exploration
  | joinCommutativity
  | joinAssociativity
  | innerJoinSemiJoinSwap
  | innerJoinAntiSemiJoinSwap
  | innerJoinToIndexApply
  | pushLimitBelowProject
  | mergeLimits
  | unionToUnionAllGroupBy
  | differenceToAntiJoin
  | intersectToSemiJoin
  -- implementation
  | getToTableScan
  | dynamicGetToDynamicTableScan
  | valuesToValuesScan
  | selectToFilter
  | projectToCompute
  | groupByToHashAggregate
  | limitToPhysicalLimit
  | joinToHashJoin
  | joinToNestedLoopJoin
  | applyToIndexNestedLoopJoin
  | unionAllToPhysicalUnionAll
  | setOpToHashSetOp
  | anchorToSequence
  | producerToPhysical
  | consumerToPhysical
  deriving DecidableEq, Repr, Hashable

namespace RuleId

/-- The rules that give logical expressions. -/
def explorations : List RuleId :=
  [joinCommutativity, joinAssociativity, innerJoinSemiJoinSwap, innerJoinAntiSemiJoinSwap,
    innerJoinToIndexApply, pushLimitBelowProject, mergeLimits, unionToUnionAllGroupBy,
    differenceToAntiJoin, intersectToSemiJoin]

/-- The rules that give physical expressions. -/
def implementations : List RuleId :=
  [getToTableScan, dynamicGetToDynamicTableScan, valuesToValuesScan, selectToFilter,
    projectToCompute, groupByToHashAggregate, limitToPhysicalLimit, joinToHashJoin,
    joinToNestedLoopJoin, applyToIndexNestedLoopJoin, unionAllToPhysicalUnionAll,
    setOpToHashSetOp, anchorToSequence, producerToPhysical, consumerToPhysical]

/-- Every rule. -/
def all : List RuleId :=
  explorations ++ implementations

/-- The name of a rule. -/
def name : RuleId → String
  | joinCommutativity => "JoinCommutativity"
  | joinAssociativity => "JoinAssociativity"
  | innerJoinSemiJoinSwap => "InnerJoinSemiJoinSwap"
  | innerJoinAntiSemiJoinSwap => "InnerJoinAntiSemiJoinSwap"
  | innerJoinToIndexApply => "InnerJoin2IndexApply"
  | pushLimitBelowProject => "PushLimitBelowProject"
  | mergeLimits => "MergeLimits"
  | unionToUnionAllGroupBy => "UnionToUnionAllGroupBy"
  | differenceToAntiJoin => "DifferenceToGroupByLasj"
  | intersectToSemiJoin => "IntersectToGroupBySemiJoin"
  | getToTableScan => "Get2TableScan"
  | dynamicGetToDynamicTableScan => "DynamicGet2DynamicTableScan"
  | valuesToValuesScan => "ConstTableGet2ConstTableScan"
  | selectToFilter => "Select2Filter"
  | projectToCompute => "Project2ComputeScalar"
  | groupByToHashAggregate => "GroupBy2HashAgg"
  | limitToPhysicalLimit => "Limit2PhysicalLimit"
  | joinToHashJoin => "Join2HashJoin"
  | joinToNestedLoopJoin => "Join2NestedLoopJoin"
  | applyToIndexNestedLoopJoin => "IndexApply2IndexNestedLoopJoin"
  | unionAllToPhysicalUnionAll => "UnionAll2PhysicalUnionAll"
  | setOpToHashSetOp => "SetOp2HashSetOp"
  | anchorToSequence => "CteAnchor2Sequence"
  | producerToPhysical => "CteProducer2Physical"
  | consumerToPhysical => "CteConsumer2Physical"

/-- The rule with a name. -/
def ofName? (s : String) : Option RuleId :=
  all.find? (·.name == s)

end RuleId

/-- A set of rules. -/
structure RuleSet where
  ids : List RuleId := []
  deriving Repr

namespace RuleSet

instance : Membership RuleId RuleSet := ⟨fun s r => r ∈ s.ids⟩

instance (s : RuleSet) (r : RuleId) : Decidable (r ∈ s) :=
  inferInstanceAs (Decidable (r ∈ s.ids))

/-- The rules that give logical expressions. -/
def exploration : RuleSet := ⟨RuleId.explorations⟩

/-- The rules that give physical expressions. -/
def implementation : RuleSet := ⟨RuleId.implementations⟩

/-- Every rule. -/
def all : RuleSet := ⟨RuleId.all⟩

/-- The rules of both sets. -/
def union (s t : RuleSet) : RuleSet := ⟨s.ids ++ t.ids⟩

/-- The text of a set: the names of its rules in the order in which rules are listed. -/
def toText (s : RuleSet) : String :=
  "EnumSet(" ++ Text.joined " | " ((RuleId.all.filter (· ∈ s)).map RuleId.name) ++ ")"

end RuleSet

namespace LogicalOperator

open RuleId in
/-- The rules worth trying on expressions of an operator. -/
def candidateRules : LogicalOperator → RuleSet
  | get _ => ⟨[getToTableScan]⟩
  | dynamicGet _ => ⟨[dynamicGetToDynamicTableScan]⟩
  | values _ => ⟨[valuesToValuesScan]⟩
  | select _ => ⟨[selectToFilter]⟩
  | project _ => ⟨[projectToCompute]⟩
  | groupBy _ => ⟨[groupByToHashAggregate]⟩
  | limit _ => ⟨[limitToPhysicalLimit, pushLimitBelowProject, mergeLimits]⟩
  | join ⟨.inner, _⟩ =>
    ⟨[joinToHashJoin, joinToNestedLoopJoin, joinCommutativity, joinAssociativity,
      innerJoinSemiJoinSwap, innerJoinAntiSemiJoinSwap, innerJoinToIndexApply]⟩
  | join _ => ⟨[joinToHashJoin, joinToNestedLoopJoin]⟩
  | apply _ => ⟨[applyToIndexNestedLoopJoin]⟩
  | setOp s =>
    match s.kind with
    | .unionAll => ⟨[unionAllToPhysicalUnionAll]⟩
    | .union => ⟨[unionToUnionAllGroupBy, setOpToHashSetOp]⟩
    | .difference => ⟨[differenceToAntiJoin, setOpToHashSetOp]⟩
    | .intersect => ⟨[intersectToSemiJoin, setOpToHashSetOp]⟩
    | .differenceAll | .intersectAll => ⟨[setOpToHashSetOp]⟩
  | cteAnchor _ => ⟨[anchorToSequence]⟩
  | cteProducer _ => ⟨[producerToPhysical]⟩
  | cteConsumer _ => ⟨[consumerToPhysical]⟩

end LogicalOperator

end QueryOptimizer
