import QueryOptimizer.Search.Stage

/-!
# Optimization

An optimization runs the stages of a search in order, up to the first one that is good
enough, and gives the cheapest plan that any stage has found. A stage that fails ends the
optimization with its error.

`Optimization` is the outcome: the result together with the stages, the memo and the reports
that were asked for, which are there after an error as well.
-/

namespace QueryOptimizer

variable {K : Type} [Quantity K]

/-- The stages after a run of them. -/
structure StageRun (K : Type) where
  stages : List (Stage K)
  memo : Memo K
  /-- The numbers and rules of the stages that were started. -/
  started : List (Nat × RuleSet) := []
  failure : Option OptError := none

/-- Runs stages in order, the first of which has number `number`. -/
def runStages (env : Environment K) (budget : Nat) (required : PhysicalProperty)
    (number : Nat) :
    List (Stage K) → Memo K → StageRun K
  | [], m => { stages := [], memo := m }
  | s :: rest, m =>
    let started := (number, s.rules)
    match (s.run env budget required).run.run m with
    | (.error e, m) => { stages := s :: rest, memo := m, started := [started], failure := e }
    | (.ok s, m) =>
      if s.isGoodEnough then { stages := s :: rest, memo := m, started := [started] }
      else
        let others := runStages env budget required (number + 1) rest m
        { others with
          stages := s :: others.stages
          started := started :: others.started }

/-- The plan with the least cost, the first one of several. -/
def cheapest? : List (Plan K × K) → Option (Plan K)
  | [] => none
  | first :: others =>
    some (others.foldl (fun a b => if Quantity.sortsBefore a.2 b.2 then a else b) first).1

/-- The outcome of an optimization. -/
structure Optimization (K : Type) where
  result : OptResult (Plan K)
  stages : List (Stage K)
  memo : Memo K
  /-- A message for each stage that was started, if the stages are reported. -/
  messages : List String := []
  /-- The memo at the end of the search, if it is reported. -/
  reported : Option (Memo K) := none

/-- The message that a stage is started. -/
def startMessage (number : Nat) (rules : RuleSet) : String :=
  "Starting search stage " ++ toString number ++ ": " ++ rules.toText

/-- Searches the memo for the cheapest plan with a property. Each stage does at most `budget`
tasks. -/
def optimize (env : Environment K) (budget : Nat) (required : PhysicalProperty)
    (stages : List (Stage K)) (m : Memo K) : Optimization K :=
  let run := runStages env budget required 0 stages m
  let messages :=
    if env.flags.reportStages then run.started.map fun (n, r) => startMessage n r else []
  match run.failure with
  | some e => { result := .error e, stages := run.stages, memo := run.memo, messages }
  | none =>
    let result :=
      match cheapest? (run.stages.filterMap (·.best)) with
      | some plan => .ok plan
      | none => .error (.noPlanFound run.memo.root required.toText)
    let reported := if env.flags.reportMemo then some run.memo else none
    { result, stages := run.stages, memo := run.memo, messages, reported }

/-- Loads a plan into a memo and searches it with the default stages. -/
def Plan.optimize (env : Environment K) (budget : Nat) (required : PhysicalProperty)
    (plan : Plan K) : OptResult (Plan K) := do
  (QueryOptimizer.optimize env budget required Stage.defaults (← Memo.ofPlan env plan)).result

end QueryOptimizer
