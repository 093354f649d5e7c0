import QueryOptimizer.Cost
import QueryOptimizer.Delivery.Alternative
import QueryOptimizer.Delivery.Enforcement
import QueryOptimizer.Memo.Insertion
import QueryOptimizer.Memo.Winner
import QueryOptimizer.Rule.Basic
import QueryOptimizer.Rule.Binding
import QueryOptimizer.Search.Bound

/-!
# Tasks of the search

The search is a sequence of small tasks, each of which does one thing to the memo and names the
tasks that have to be done next, in their order:

* a group is optimized by optimizing its expressions, physical ones first;
* a group is explored by exploring its logical expressions;
* a logical expression is optimized by exploring its inputs and then applying rules to it, or
  only explored by applying exploration rules;
* a rule is applied to all bindings of its pattern, and what it makes is optimized in turn;
* a physical expression is optimized by going through its alternatives. For each of them the
  inputs are optimized one by one; then the expression is offered to its group as a winner.
-/

namespace QueryOptimizer

variable {K : Type} [Quantity K]

/-- What is wanted of a group: a property, at a cost within a bound. -/
structure Request (K : Type) where
  required : PhysicalProperty
  bound : CostBound K

/-- How far the optimization of a physical expression has come. -/
inductive Progress (K : Type) where
  /-- Nothing has been done. -/
  | start
  /-- An input is about to be optimized for the current alternative. The cost is that of the
  operator and of the inputs before. -/
  | before (current : Alternative) (rest : List Alternative) (input : Nat) (cost : K)
  /-- The input has been optimized. -/
  | after (current : Alternative) (rest : List Alternative) (input : Nat) (cost : K)
  /-- All inputs have been optimized. -/
  | complete (current : Alternative) (rest : List Alternative) (cost : K)

/-- A step of the search. A task without a request only explores. -/
inductive Task (K : Type) where
  | optimizeGroup (id : GroupId) (request : Request K)
  | exploreGroup (id : GroupId)
  | optimizeExpr (id : ExprId) (request : Option (Request K))
  | applyRule (rule : RuleId) (id : ExprId) (request : Option (Request K))
  | optimizeInputs (id : ExprId) (request : Request K) (progress : Progress K)

namespace Task

/-! ### Groups -/

/-- Optimizes a group, unless it has a winner for the property. -/
def optimizingGroup (id : GroupId) (r : Request K) : MemoM K (List (Task K)) := do
  let g ← (← get).group id
  if (g.winners.get? r.required).isSome then return []
  return (g.implementationPlaces id).reverse.map (optimizeInputs · r .start) ++
    (g.logicalPlaces id).reverse.map (optimizeExpr · (some r))

/-- Explores a group once. -/
def exploringGroup (id : GroupId) : MemoM K (List (Task K)) := do
  let g ← (← get).group id
  if g.explored then return []
  modify (·.modifyGroup id ({ · with explored := true }))
  return (g.logicalPlaces id).reverse.map (optimizeExpr · none)

/-! ### Logical expressions -/

/-- All rules in the order in which they are tried: the most promising ones first, of equally
promising ones the last one first. -/
def trialOrder : List RuleId :=
  (RuleId.all.mergeSort fun r s => r.promise.rank ≤ s.promise.rank).reverse

/-- Whether a rule is to be tried on an expression. -/
def isCandidate (rules : RuleSet) (e : Expr K) (op : LogicalOperator) (exploreOnly : Bool)
    (r : RuleId) : Bool :=
  r ∈ op.candidateRules && r ∈ rules && (!exploreOnly || r ∈ RuleSet.exploration) &&
    r ∉ e.applied

/-- Explores the inputs of an expression and then applies the enabled rules to it. -/
def optimizingExpr (rules : RuleSet) (id : ExprId) (r? : Option (Request K)) :
    MemoM K (List (Task K)) := do
  let e ← (← get).expr id
  match e.operator with
  | .physical op => throw (.physicalNotExplored op.toText)
  | .logical op =>
    let candidates := trialOrder.filter (isCandidate rules e op r?.isNone)
    return e.inputs.reverse.map exploreGroup ++ candidates.map (applyRule · id r?)

/-- What is to be done with a new expression. -/
def followUp (id : ExprId) (r? : Option (Request K)) : MemoM K (List (Task K)) := do
  let e ← (← get).expr id
  if e.operator.isLogical then return [optimizeExpr id r?]
  match r? with
  | some r => return [optimizeInputs id r .start]
  | none => return []

/-- Applies a rule to one binding and enters what it makes into the group of the expression. -/
def applyTo (env : Environment K) (rule : RuleId) (id : ExprId) (r? : Option (Request K))
    (t : ExprTree) : MemoM K (List (Task K)) := do
  match ← rule.apply (← get) t with
  | none => return []
  | some result =>
    let (place, isNew) ← Memo.insertTree env result (some id.group)
    if isNew then followUp place r? else return []

/-- Applies a rule to all bindings of its pattern at an expression, once. -/
def applyingRule (env : Environment K) (rule : RuleId) (id : ExprId)
    (r? : Option (Request K)) :
    MemoM K (List (Task K)) := do
  let m ← get
  if rule ∈ (← m.expr id).applied then return []
  let tasks ← (m.bindings rule.pattern id).mapM (applyTo env rule id r?)
  modify (·.modifyExpr id fun e => { e with applied := ⟨rule :: e.applied.ids⟩ })
  return tasks.flatten.reverse

/-! ### Physical expressions -/

/-- The cost of the operator of an expression without its inputs. -/
def operatorCost (env : Environment K) (m : Memo K) (id : ExprId) : OptResult K := do
  let e ← m.expr id
  match e.operator with
  | .logical op => throw (.logicalNotCosted op.toText)
  | .physical op =>
    let inputs ← m.relations e.inputs
    Cost.ofOperator env.config op (← m.group id.group).statistics (inputs.map (·.statistics))

/-- Puts enforcers on top of one another above an expression of a group that delivers a
property, offers each of them to the group, and the last one also for the required property.
Gives the cost of the last one. -/
def enforce (env : Environment K) (group : GroupId) (required delivered : PhysicalProperty)
    (cost : K) : List Enforcer → MemoM K (Option K)
  | [] => return none
  | e :: rest => do
    let (place, _) ← Memo.insertKey env ⟨.physical e.operator, [group]⟩ (some group)
    let stats := (← (← get).group group).statistics
    let cost := cost + (← Cost.ofOperator env.config e.operator stats [stats])
    modify (·.offer place e.delivers ⟨cost, [delivered]⟩)
    match rest with
    | [] =>
      modify (·.offer place required ⟨cost, [delivered]⟩)
      return some cost
    | _ :: _ => enforce env group required e.delivers cost rest

/-- Offers an expression to its group for what an alternative delivers and for what is
required, with enforcers on top where they are needed. Gives the cost of meeting the
requirement, `none` if that is impossible. -/
def recordWinner (env : Environment K) (id : ExprId) (required : PhysicalProperty)
    (a : Alternative) (cost : K) : MemoM K (Option K) := do
  modify (·.offer id a.delivers ⟨cost, a.requires⟩)
  if a.delivers.satisfies required then
    modify (·.offer id required ⟨cost, a.requires⟩)
    return some cost
  enforce env id.group required a.delivers cost (required.enforcers a.delivers env.flags)

/-- Turns to the next alternative, if there is one. -/
def nextAlternative (env : Environment K) (id : ExprId) (r : Request K) :
    List Alternative → MemoM K (List (Task K))
  | [] => return []
  | a :: rest => do
    let m ← get
    let cost ← operatorCost env m id
    if (← m.expr id).inputs.isEmpty then return [optimizeInputs id r (.complete a rest cost)]
    return [optimizeInputs id r (.before a rest 0 cost)]

/-- The input of an expression at a position, and what an alternative requires of it. -/
def inputGoal (e : Expr K) (a : Alternative) (input : Nat) : OptResult Memo.Goal := do
  return (← elementAt "input" e.inputs input, ← elementAt "requirement" a.requires input)

/-- Takes the optimization of a physical expression one step further. -/
def optimizingInputs (env : Environment K) (id : ExprId) (r : Request K) :
    Progress K → MemoM K (List (Task K))
  | .start => do
    let m ← get
    let e ← m.expr id
    match e.operator with
    | .logical op => throw (.logicalNotCosted op.toText)
    | .physical op =>
      nextAlternative env id r (← op.alternatives r.required (← m.columnSets e.inputs))
  | .before a rest input cost => do
    let (group, required) ← inputGoal (← (← get).expr id) a input
    return [
      optimizeGroup group ⟨required, r.bound.less cost⟩,
      optimizeInputs id r (.after a rest input cost)]
  | .after a rest input cost => do
    let m ← get
    let e ← m.expr id
    let (group, required) ← inputGoal e a input
    match m.winner? group required with
    | none => nextAlternative env id r rest
    | some w =>
      let cost := cost + w.cost
      if input + 1 == e.inputs.length then return [optimizeInputs id r (.complete a rest cost)]
      return [optimizeInputs id r (.before a rest (input + 1) cost)]
  | .complete a rest cost => do
    if !r.bound.admits cost then return ← nextAlternative env id r rest
    match ← recordWinner env id r.required a cost with
    | some total => nextAlternative env id { r with bound := r.bound.tighten total } rest
    | none => nextAlternative env id r rest

/-! ### Tasks -/

/-- Does a task with some rules enabled. Gives the tasks that have to be done
next, in order. -/
def run (env : Environment K) (rules : RuleSet) : Task K → MemoM K (List (Task K))
  | optimizeGroup id r => optimizingGroup id r
  | exploreGroup id => exploringGroup id
  | optimizeExpr id r? => optimizingExpr rules id r?
  | applyRule rule id r? => applyingRule env rule id r?
  | optimizeInputs id r p => optimizingInputs env id r p

end Task

end QueryOptimizer
