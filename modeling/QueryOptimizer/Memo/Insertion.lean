import QueryOptimizer.Derivation.Statistics
import QueryOptimizer.Memo.Tree
import QueryOptimizer.Plan.Basic

/-!
# Insertion into the memo

An expression is looked up before it is entered. If it is new it joins the group that it was
made for, or starts a group of its own, whose logical property and statistics are derived from
it. Only logical expressions can start a group.

`Memo.insertTree` enters a tree that a rule made, its inputs first. If that fails in the
middle, the groups that were made for the inputs are dropped again.
-/

namespace QueryOptimizer

variable {K : Type} [Quantity K]

namespace Memo

/-- Appends an expression to a group. -/
def addExpr (m : Memo K) (id : GroupId) (key : ExprKey) : OptResult (Memo K × ExprId) := do
  let place : ExprId := ⟨id, (← m.group id).exprs.size⟩
  let m := m.modifyGroup id fun g => { g with exprs := g.exprs.push { key with } }
  return ({ m with index := m.index.insert key place }, place)

/-- Appends a group without expressions. The producer of a common table expression makes its
result known. -/
def addGroup (m : Memo K) (op : LogicalOperator) (relation : Relation K) : Memo K :=
  let ctes :=
    match op with
    | .cteProducer p => m.ctes.register p.id { relation with cols := p.cols }
    | _ => m.ctes
  { m with groups := m.groups.push { relation with id := m.groups.size }, ctes }

/-- Starts a group with an operator over other groups. -/
def startGroup (env : Environment K) (key : ExprKey) : MemoM K GroupId := do
  match key.operator with
  | .physical op => throw (.physicalStartsGroup op.toText)
  | .logical op =>
    let m ← get
    let relation ← op.derive env m.ctes (← m.relations key.inputs)
    set (m.addGroup op relation)
    return m.groups.size

/-- Enters an expression into a group, or into a new one if none is given, unless the memo has
it already. Gives its place, and whether it is new. -/
def insertKey (env : Environment K) (key : ExprKey) (target : Option GroupId) :
    MemoM K (ExprId × Bool) := do
  match (← get).index[key]? with
  | some place => return (place, false)
  | none =>
    let id ←
      match target with
      | some id => pure id
      | none => startGroup env key
    let (m, place) ← (← get).addExpr id key
    set m
    return (place, true)

mutual

/-- Enters a tree, its inputs first. -/
def insertNode (env : Environment K) (target : Option GroupId) :
    ExprTree → MemoM K (ExprId × Bool)
  | .expr id _ => return (id, false)
  | .group id => throw (.groupNotInsertable id)
  | .operator op inputs => do
    insertKey env ⟨op, ← insertInputs env inputs⟩ target
termination_by structural t => t

/-- Enters the inputs of a tree, each into a group of its own, and gives their groups. -/
def insertInputs (env : Environment K) : List ExprTree → MemoM K (List GroupId)
  | [] => return []
  | .group id :: ts => return id :: (← insertInputs env ts)
  | t :: ts => do
    let (place, _) ← insertNode env none t
    return place.group :: (← insertInputs env ts)
termination_by structural ts => ts

end

/-- Drops all groups but the first `count`, along with their expressions. -/
def truncate (m : Memo K) (count : Nat) : Memo K :=
  if m.groups.size ≤ count then m
  else
    { m with
      groups := m.groups.take count
      index := m.index.filter fun _ place => place.group < count }

/-- Enters a tree that a rule made, or leaves the memo with the groups it had. Gives the place
of the root, and whether it is new. -/
def insertTree (env : Environment K) (t : ExprTree) (target : Option GroupId) :
    MemoM K (ExprId × Bool) := do
  let count := (← get).groups.size
  tryCatch (insertNode env target t) fun e => do
    modify (·.truncate count)
    throw e

mutual

/-- Enters a plan, its inputs first, and gives the group of its root. The groups of nodes that
have been entered before are in the state; such a node is not entered again. -/
def loadNode (env : Environment K) :
    Plan K → StateT (Std.HashMap Nat GroupId) (MemoM K) GroupId
  | ⟨id, op, inputs, _⟩ => do
    match (← get)[id]? with
    | some group => return group
    | none =>
      let key : ExprKey := ⟨op, ← loadInputs env inputs⟩
      let (place, _) ← insertKey env key none
      modify (·.insert id place.group)
      return place.group
termination_by structural p => p

/-- Enters the inputs of a plan and gives their groups. -/
def loadInputs (env : Environment K) :
    List (Plan K) → StateT (Std.HashMap Nat GroupId) (MemoM K) (List GroupId)
  | [] => return []
  | p :: ps => return (← loadNode env p) :: (← loadInputs env ps)
termination_by structural ps => ps

end

/-- The memo of a plan. Nodes that are used in several places get one group, and so do equal
parts of the plan. -/
def ofPlan (env : Environment K) (plan : Plan K) : OptResult (Memo K) :=
  match ((loadNode env plan).run {}).run.run {} with
  | (.ok (root, _), m) => .ok { m with root }
  | (.error e, _) => .error e

end Memo

end QueryOptimizer
