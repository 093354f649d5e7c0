import QueryOptimizer.Search.Task

/-!
# Search stages

A search goes through stages. Each stage has its own rules, a time limit and a cost that is
good enough to leave out the stages after it. Implementation rules are enabled in every
stage, so each can give a plan. The memo keeps its expressions from stage to stage, but
winners are searched anew.

In a stage tasks are done one after the other; those that a task names come before all that
were waiting. This schedule ends when no task is left, when the time is up, or when the
budget of tasks is spent. In each case what has been found so far stays in the memo. A
cancellation is an error.
-/

namespace QueryOptimizer

variable {K : Type} [Quantity K]

/-! ### Schedules -/

/-- Why a schedule ended. -/
inductive ScheduleEnd where
  | finished
  | timeUp
  | budgetSpent
  deriving DecidableEq, Repr

/-- Whether a time limit has been reached when so many tasks have been done. -/
def Environment.isTimeUp (env : Environment K) (limit : Option Nat) (executed : Nat) : Bool :=
  limit.any (· ≤ env.elapsed executed)

/-- Does the waiting tasks, of which `executed` have been done before and at most
`budget` are done now. -/
def schedule (env : Environment K) (rules : RuleSet) (limit : Option Nat) :
    (budget executed : Nat) → List (Task K) → MemoM K ScheduleEnd
  | _, _, [] => return .finished
  | 0, _, _ :: _ => return .budgetSpent
  | budget + 1, executed, task :: waiting => do
    if env.isCancelled then throw .cancelled
    if env.isTimeUp limit executed then return .timeUp
    let next ← task.run env rules
    schedule env rules limit budget (executed + 1) (next ++ waiting)

/-! ### Stages -/

/-- A stage of the search, with the plan it found and its cost once it is complete. -/
structure Stage (K : Type) where
  rules : RuleSet
  /-- The time limit in nanoseconds. -/
  timeLimit : Option Nat := none
  /-- Later stages are left out when the best cost is at most this. -/
  costLimit : Option K := none
  best : Option (Plan K × K) := none

namespace Stage

/-- A fresh stage with some rules enabled beside the implementation rules. -/
def ofRules (rules : RuleSet) (timeLimit : Option Nat) (costLimit : Option K) : Stage K :=
  { rules := rules.union .implementation, timeLimit, costLimit }

/-- The stages of a search unless others are given: one stage with all exploration rules
and without limits. -/
def defaults : List (Stage K) :=
  [ofRules .exploration none none]

/-- Records the best plan of a stage. A stage is completed only once. -/
def complete (s : Stage K) (plan : Plan K) (cost : K) : OptResult (Stage K) :=
  if s.best.isSome then .error .stageAlreadyCompleted
  else .ok { s with best := some (plan, cost) }

/-- Whether the best plan is cheap enough to leave out the other stages. -/
def isGoodEnough (s : Stage K) : Bool :=
  match s.best, s.costLimit with
  | some (_, cost), some limit => cost ≤ limit
  | _, _ => false

/-- Searches the memo for the cheapest plan with a property, with the rules and within the
limits of the stage. The stage is completed if a plan is found. -/
def run (env : Environment K) (budget : Nat) (required : PhysicalProperty) (s : Stage K) :
    MemoM K (Stage K) := do
  modify Memo.reset
  let root := (← get).root
  let _ ← schedule env s.rules s.timeLimit budget 0
    [.optimizeGroup root ⟨required, .unlimited⟩]
  let m ← get
  match m.winner? root required with
  | some w => s.complete (← m.bestPlan required) w.cost
  | none => return s

end Stage

end QueryOptimizer
