import Std.Data.HashMap
import QueryOptimizer.Derivation.Basic
import QueryOptimizer.Operator.Basic
import QueryOptimizer.Property.ByProperty
import QueryOptimizer.Rule.Id

/-!
# The memo

The memo holds every expression that an optimization knows. Equivalent expressions are together
in a group, and the inputs of an expression are groups, so one expression stands for all plans
that can be made by choosing an expression for each group below it.

No expression is stored twice: `Memo.index` leads from an operator with input groups to the one
expression that consists of them. Groups never merge. An expression that a rule makes for one
group stays in the group where it was found first.
-/

namespace QueryOptimizer

/-- The number of a group of the memo. -/
abbrev GroupId := Nat

/-- The place of an expression: its group and its position there. -/
structure ExprId where
  group : GroupId
  index : Nat
  deriving DecidableEq, Repr

namespace ExprId

/-- The text of a place. -/
def toText (id : ExprId) : String :=
  toString id.group ++ "." ++ toString id.index

end ExprId

/-- What makes up an expression: an operator applied to groups. -/
structure ExprKey where
  operator : Operator
  inputs : List GroupId
  deriving BEq, Hashable

/-- A way in which an expression delivers a physical property. -/
structure Delivery (K : Type) where
  /-- The cost of the expression together with everything below it. -/
  cost : K
  /-- The property that is required of each input. -/
  requires : List PhysicalProperty

/-- An expression of a group. -/
structure Expr (K : Type) extends ExprKey where
  /-- The rules that have been applied to the expression. -/
  applied : RuleSet := {}
  /-- The cheapest known way to deliver each property. -/
  deliveries : ByProperty (Delivery K) := {}

/-- The cheapest expression of a group for some property. -/
structure Winner (K : Type) where
  cost : K
  expr : ExprId

/-- A group of equivalent expressions. Its logical property and its statistics are those of its
first expression. -/
structure Group (K : Type) extends Relation K where
  /-- The number of the group, which is its position in the memo. -/
  id : GroupId
  exprs : Array (Expr K) := #[]
  /-- The cheapest expression for each property that one was found for. -/
  winners : ByProperty (Winner K) := {}
  /-- Whether all logical expressions have been explored. -/
  explored : Bool := false

/-- All expressions that an optimization knows, in groups. -/
structure Memo (K : Type) where
  index : Std.HashMap ExprKey ExprId := {}
  groups : Array (Group K) := #[]
  /-- The group of the whole query. -/
  root : GroupId := 0
  ctes : CteTable K := []

variable {K : Type}

namespace Group

/-- The places of the expressions of group `id` that pass a test. -/
def placesOf (g : Group K) (id : GroupId) (p : Operator → Bool) : List ExprId :=
  (List.range g.exprs.size).filterMap fun i =>
    if (g.exprs[i]?).any (p ·.operator) then some ⟨id, i⟩ else none

/-- The places of the logical expressions of group `id`. -/
def logicalPlaces (g : Group K) (id : GroupId) : List ExprId :=
  g.placesOf id (·.isLogical)

/-- The places of the physical expressions of group `id` that are no enforcers. -/
def implementationPlaces (g : Group K) (id : GroupId) : List ExprId :=
  g.placesOf id fun op => !op.isLogical && !op.isEnforcer

end Group

namespace Memo

/-- A group, which must exist. -/
def group (m : Memo K) (id : GroupId) : OptResult (Group K) :=
  match m.groups[id]? with
  | some g => .ok g
  | none => .error (.outOfRange "group" id)

/-- An expression, which must exist. -/
def expr (m : Memo K) (id : ExprId) : OptResult (Expr K) := do
  match (← m.group id.group).exprs[id.index]? with
  | some e => return e
  | none => throw (.outOfRange "expression" id.index)

/-- What is derived about the groups in a list. -/
def relations (m : Memo K) (ids : List GroupId) : OptResult (Inputs K) :=
  ids.mapM fun id => return (← m.group id).toRelation

/-- The columns of the groups in a list. -/
def columnSets (m : Memo K) (ids : List GroupId) : OptResult (List ColumnSet) :=
  return (← m.relations ids).map (·.property.output)

/-- Changes one group. -/
def modifyGroup (m : Memo K) (id : GroupId) (f : Group K → Group K) : Memo K :=
  { m with groups := m.groups.modify id f }

/-- Changes one expression. -/
def modifyExpr (m : Memo K) (id : ExprId) (f : Expr K → Expr K) : Memo K :=
  m.modifyGroup id.group fun g => { g with exprs := g.exprs.modify id.index f }

end Memo

/-- Computations on a memo. What they have changed stays changed when they fail. -/
abbrev MemoM (K : Type) := ExceptT OptError (StateM (Memo K))

end QueryOptimizer
