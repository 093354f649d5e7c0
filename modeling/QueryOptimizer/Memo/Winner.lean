import QueryOptimizer.Memo.Basic
import QueryOptimizer.Number.Quantity
import QueryOptimizer.Plan.Basic

/-!
# Winners

For each property that was asked for, a group knows its cheapest expression and an expression
knows its cheapest way to deliver it. An offer replaces what is known only if it costs less, so
among equally cheap offers the first one stays.

`Memo.bestPlan` reads the cheapest plan off the winners, from the root downwards: the winner of
a group requires properties of its inputs, for which their groups have winners in turn.
-/

namespace QueryOptimizer

variable {K : Type} [Quantity K]

/-- Sets the value of a property, unless it has one that costs no more. -/
def ByProperty.offer {α : Type} (cost : α → K) (m : ByProperty α) (p : PhysicalProperty)
    (a : α) : ByProperty α :=
  match m.get? p with
  | some old => if cost old ≤ cost a then m else m.insert p a
  | none => m.insert p a

namespace Memo

/-- Offers a way for an expression to deliver a property, to the expression itself and to its
group. -/
def offer (m : Memo K) (id : ExprId) (delivers : PhysicalProperty) (d : Delivery K) : Memo K :=
  let m := m.modifyExpr id fun e =>
    { e with deliveries := e.deliveries.offer Delivery.cost delivers d }
  m.modifyGroup id.group fun g =>
    { g with winners := g.winners.offer Winner.cost delivers ⟨d.cost, id⟩ }

/-- The winner of a group for a property. -/
def winner? (m : Memo K) (id : GroupId) (p : PhysicalProperty) : Option (Winner K) :=
  m.groups[id]?.bind (·.winners.get? p)

end Memo

/-! ### A new search -/

/-- An expression without its deliveries. -/
def Expr.reset (e : Expr K) : Expr K :=
  { e with deliveries := {} }

/-- A group without its winners, unexplored. -/
def Group.reset (g : Group K) : Group K :=
  { g with exprs := g.exprs.map Expr.reset, winners := {}, explored := false }

namespace Memo

/-- The memo at the start of a search: all expressions are kept, along with the rules that have
been applied to them, and everything else that former searches found is forgotten. -/
def reset (m : Memo K) : Memo K :=
  { m with groups := m.groups.map Group.reset }

/-! ### The cheapest plan -/

/-- The number of winners in the memo. -/
def winnerCount (m : Memo K) : Nat :=
  m.groups.foldl (fun count g => count + g.winners.size) 0

/-- A group together with a property that is required of it. -/
abbrev Goal := GroupId × PhysicalProperty

/-- The error of a plan that contains itself. -/
def circular (goal : Goal) : OptError :=
  .circularPlan goal.1 goal.2.toText

/-- Where the cheapest plan for a goal comes from: the winner, its expression, and how the
expression delivers the property. -/
def bestChoice (m : Memo K) (goal : Goal) : OptResult (Winner K × Expr K × Delivery K) := do
  let (id, p) := goal
  match (← m.group id).winners.get? p with
  | none => throw (.noPlanFound id p.toText)
  | some w =>
    let e ← m.expr w.expr
    match e.deliveries.get? p with
    | none => throw (.winnerWithoutInputs w.expr.toText id p.toText)
    | some d => return (w, e, d)

/-- The cheapest plan for a goal below the goals in `above`. The state is the id of the last
node that was made. The plan is no deeper than there are winners, because a goal below itself
is an error; `depth` is the number of levels that are left. -/
def bestPlanBelow (m : Memo K) (depth : Nat) (above : List Goal) (goal : Goal) :
    StateT Nat OptResult (Plan K) := do
  let (winner, e, d) ← m.bestChoice goal
  if above.contains goal then throw (circular goal)
  match depth with
  | 0 => throw (circular goal)
  | depth + 1 =>
    let id ← modifyGet fun last => (last + 1, last + 1)
    let inputs ← (e.inputs.zip d.requires).mapM (m.bestPlanBelow depth (goal :: above))
    let relation := (← m.group goal.1).toRelation
    return {
      id, operator := e.operator, inputs
      estimate := some { relation, delivers := goal.2, cost := winner.cost } }

/-- The cheapest plan for a property of the whole query. -/
def bestPlan (m : Memo K) (required : PhysicalProperty) : OptResult (Plan K) :=
  (m.bestPlanBelow m.winnerCount [] (m.root, required)).run' 0

end Memo

end QueryOptimizer
