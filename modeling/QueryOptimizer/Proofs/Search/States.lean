import QueryOptimizer.Proofs.Number.Quantity
import QueryOptimizer.Proofs.Plan.Loading
import QueryOptimizer.Search.Optimization

/-!
# States of a search

A search goes through states. Each of them consists of a memo and of the tasks that are waiting
(`Memo.Searched`). Here any waiting task may be done next, with any rules enabled, and the
tasks that it names take its place. The schedule of a stage always takes the first task.

## Main results

* `Memo.Searched.schedule`: a schedule only goes through states of a search.
* `Memo.searched_optimize`: the memo at the end of an optimization belongs to such a state.
* `Memo.of_optimize`: the plan that is returned was read off such a state.
* `Sample.optimize_entered`: a small search, task by task.
-/

namespace QueryOptimizer

variable {K : Type} [Quantity K] {env : Environment K} {m₀ m m' : Memo K}
  {tasks : List (Task K)}

/-- A schedule goes on after a task. -/
theorem exec_schedule_of_ok {rules : RuleSet} {limit : Option Nat} {budget executed : Nat}
    {t : Task K} {waiting next : List (Task K)} (going : env.isCancelled = false)
    (early : env.isTimeUp limit executed = false)
    (run : (t.run env rules).exec m = (.ok next, m')) :
    (schedule env rules limit (budget + 1) executed (t :: waiting)).exec m =
      (schedule env rules limit budget (executed + 1) (next ++ waiting)).exec m' := by
  simp only [schedule, going, early]
  exact MemoM.exec_bind_of_ok run

/-- A schedule ends with the error of a task. -/
theorem exec_schedule_of_error {rules : RuleSet} {limit : Option Nat} {budget executed : Nat}
    {t : Task K} {waiting : List (Task K)} {e : OptError} (going : env.isCancelled = false)
    (early : env.isTimeUp limit executed = false)
    (run : (t.run env rules).exec m = (.error e, m')) :
    (schedule env rules limit (budget + 1) executed (t :: waiting)).exec m =
      (.error e, m') := by
  simp only [schedule, going, early]
  exact (MemoM.exec_bind _ _ m).trans (by rw [run])

omit [Quantity K] in
/-- The stages that are not given are fresh. -/
theorem Stage.best_of_mem_defaults {s : Stage K} (h : s ∈ Stage.defaults) : s.best = none := by
  obtain rfl := List.mem_singleton.1 h
  rfl

/-- A stage does what its schedule does to the memo without winners, and reads
its plan off the end. -/
theorem Stage.exec_run (s : Stage K) (budget : Nat) (required : PhysicalProperty) :
    (s.run env budget required).exec m =
      match (schedule env s.rules s.timeLimit budget 0
        [.optimizeGroup m.root ⟨required, .unlimited⟩]).exec m.reset with
      | (.error e, m') => (.error e, m')
      | (.ok _, m') =>
        match m'.winner? m.root required with
        | some w => (do s.complete (← m'.bestPlan required) w.cost, m')
        | none => (.ok s, m') := by
  have root : m.reset.root = m.root := rfl
  simp only [run, MemoM.exec_bind, MemoM.exec_modify, MemoM.exec_get, root]
  rcases (schedule env s.rules s.timeLimit budget 0
    [.optimizeGroup m.root ⟨required, .unlimited⟩]).exec m.reset with ⟨e | _, m'⟩
  · rfl
  · dsimp only
    cases m'.winner? m.root required with
    | none => rfl
    | some w =>
      simp only [MemoM.exec_bind, MemoM.exec_lift]
      cases m'.bestPlan required <;> rfl

/-- The stages end with one that fails. -/
theorem runStages_of_error {s : Stage K} {rest : List (Stage K)} {budget number : Nat}
    {required : PhysicalProperty} {e : OptError}
    (failed : (s.run env budget required).exec m = (.error e, m')) :
    runStages env budget required number (s :: rest) m =
      { stages := s :: rest, memo := m', started := [(number, s.rules)], failure := e } := by
  have ran : (s.run env budget required).run.run m = (.error e, m') := failed
  simp only [runStages, ran]

/-- The stages go on after one whose plan is not good enough. -/
theorem runStages_of_ok {s s' : Stage K} {rest : List (Stage K)} {budget number : Nat}
    {required : PhysicalProperty} (done : (s.run env budget required).exec m = (.ok s', m')) :
    runStages env budget required number (s :: rest) m =
      if s'.isGoodEnough then
        { stages := s' :: rest, memo := m', started := [(number, s.rules)] }
      else
        { runStages env budget required (number + 1) rest m' with
          stages := s' :: (runStages env budget required (number + 1) rest m').stages
          started := (number, s.rules) ::
            (runStages env budget required (number + 1) rest m').started } := by
  have ran : (s.run env budget required).run.run m = (.ok s', m') := done
  simp only [runStages, ran]

/-- The cheapest plan is one of the plans. -/
theorem mem_of_cheapest? {plans : List (Plan K × K)} {plan : Plan K}
    (h : cheapest? plans = some plan) : ∃ cost, (plan, cost) ∈ plans := by
  have chosen (plans : List (Plan K × K)) (first : Plan K × K) :
      plans.foldl (fun a b => if Quantity.sortsBefore a.2 b.2 then a else b) first ∈
      first :: plans := by
    induction plans generalizing first with
    | nil => simp
    | cons second plans ih =>
      rw [List.foldl_cons]
      split
      · rcases List.mem_cons.1 (ih first) with same | mem
        · rw [same]
          exact List.mem_cons_self
        · exact List.mem_cons_of_mem _ (List.mem_cons_of_mem _ mem)
      · exact List.mem_cons_of_mem _ (ih second)
  cases plans with
  | nil => cases h
  | cons first plans =>
    obtain rfl := Option.some.inj h
    exact ⟨_, chosen plans first⟩

namespace Memo

/-- The states that a search on a memo goes through. A stage may begin at any time, with
the task to optimize the root. A task that fails is the last one of its stage and leaves
what it has changed. -/
inductive Searched (env : Environment K) (m₀ : Memo K) : Memo K → List (Task K) → Prop
  | start : Searched env m₀ m₀ []
  | stage {m : Memo K} {tasks : List (Task K)} (h : Searched env m₀ m tasks)
      (required : PhysicalProperty) :
      Searched env m₀ m.reset [.optimizeGroup m.root ⟨required, .unlimited⟩]
  | task {m m' : Memo K} {before after next : List (Task K)} {t : Task K}
      (h : Searched env m₀ m (before ++ t :: after)) (rules : RuleSet)
      (run : (t.run env rules).exec m = (.ok next, m')) :
      Searched env m₀ m' (before ++ next ++ after)
  | failed {m m' : Memo K} {before after : List (Task K)} {t : Task K} {e : OptError}
      (h : Searched env m₀ m (before ++ t :: after)) (rules : RuleSet)
      (run : (t.run env rules).exec m = (.error e, m')) : Searched env m₀ m' []

namespace Searched

/-- The first task is done. -/
theorem first {waiting next : List (Task K)} {t : Task K}
    (h : Searched env m₀ m (t :: waiting)) (rules : RuleSet)
    (run : (t.run env rules).exec m = (.ok next, m')) : Searched env m₀ m' (next ++ waiting) :=
  have h : Searched env m₀ m ([] ++ t :: waiting) := h
  h.task rules run

/-- A schedule only goes through states of a search. -/
theorem schedule (h : Searched env m₀ m tasks) (rules : RuleSet) (limit : Option Nat)
    (budget executed : Nat) :
    ∃ tasks',
      Searched env m₀ ((schedule env rules limit budget executed tasks).exec m).2 tasks' := by
  induction budget generalizing executed tasks m with
  | zero => cases tasks <;> exact ⟨_, h⟩
  | succ budget ih =>
    cases tasks with
    | nil => exact ⟨_, h⟩
    | cons t waiting =>
      simp only [QueryOptimizer.schedule]
      split
      · exact ⟨_, h⟩
      · split
        · exact ⟨_, h⟩
        · rw [MemoM.exec_bind]
          rcases run : (t.run env rules).exec m with ⟨e | next, m'⟩
          · have h : Searched env m₀ m ([] ++ t :: waiting) := h
            exact ⟨[], h.failed rules run⟩
          · exact ih (h.first rules run) (executed + 1)

/-- A stage leads from a state of a search to another one. -/
theorem runStage (h : Searched env m₀ m tasks) (budget : Nat) (required : PhysicalProperty)
    (s : Stage K) :
    ∃ tasks', Searched env m₀ ((s.run env budget required).exec m).2 tasks' := by
  obtain ⟨tasks', later⟩ := (h.stage required).schedule s.rules s.timeLimit budget 0
  refine ⟨tasks', ?_⟩
  rw [Stage.exec_run]
  split
  · rename_i run
    rwa [run] at later
  · rename_i run
    rw [run] at later
    split
    · exact later
    · exact later

/-- Stages lead from a state of a search to another one. -/
theorem runStages (h : Searched env m₀ m tasks) (budget : Nat) (required : PhysicalProperty)
    (number : Nat) (stages : List (Stage K)) :
    ∃ tasks', Searched env m₀ (runStages env budget required number stages m).memo tasks' := by
  induction stages generalizing number m tasks with
  | nil => exact ⟨_, h⟩
  | cons s rest ih =>
    obtain ⟨tasks', later⟩ := h.runStage budget required s
    rcases run : (s.run env budget required).exec m with ⟨e | s', m'⟩
    · rw [run] at later
      rw [runStages_of_error run]
      exact ⟨tasks', later⟩
    · rw [run] at later
      rw [runStages_of_ok run]
      split
      · exact ⟨tasks', later⟩
      · exact ih later (number + 1)

end Searched

/-- An optimization leaves the memo as its stages do. -/
theorem memo_optimize (budget : Nat) (required : PhysicalProperty) (stages : List (Stage K))
    (m : Memo K) :
    (optimize env budget required stages m).memo =
      (runStages env budget required 0 stages m).memo := by
  simp only [optimize]
  split <;> rfl

/-- The memo at the end of an optimization belongs to a state of a search. -/
theorem searched_optimize (budget : Nat) (required : PhysicalProperty)
    (stages : List (Stage K)) (m : Memo K) :
    ∃ tasks, Searched env m (optimize env budget required stages m).memo tasks := by
  have begun : Searched env m m [] := .start
  obtain ⟨tasks, later⟩ := begun.runStages budget required 0 stages
  exact ⟨tasks, memo_optimize budget required stages m ▸ later⟩

/-! ### Plans that are returned -/

/-- Whether a plan was read off a state of a search. -/
def ReadOff (env : Environment K) (m₀ : Memo K) (required : PhysicalProperty) (plan : Plan K) :
    Prop :=
  ∃ m tasks, Searched env m₀ m tasks ∧ m.bestPlan required = .ok plan

section Returned

variable {required : PhysicalProperty} {P : Plan K → Prop}
  (of_readOff : ∀ plan, ReadOff env m₀ required plan → P plan)
include of_readOff

/-- A stage reads its plan off a state of the search, unless it has one already. -/
theorem Searched.best_of_runStage (h : Searched env m₀ m tasks) {budget : Nat} {s s' : Stage K}
    (known : ∀ best ∈ s.best, P best.1)
    (done : ((s.run env budget required).exec m).1 = .ok s') : ∀ best ∈ s'.best, P best.1 := by
  obtain ⟨tasks', later⟩ := (h.stage required).schedule s.rules s.timeLimit budget 0
  rw [Stage.exec_run] at done
  split at done
  · cases done
  · rename_i run
    rw [run] at later
    split at done
    · obtain ⟨plan, read, completed⟩ := OptResult.bind_eq_ok.1 done
      unfold Stage.complete at completed
      split at completed
      · cases completed
      · obtain rfl := Except.ok.inj completed
        intro best hbest
        obtain rfl := Option.some.inj hbest
        exact of_readOff plan ⟨_, tasks', later, read⟩
    · obtain rfl := Except.ok.inj done
      exact known

/-- What holds of every plan that can be read off a state holds of the best
plans of stages. -/
theorem Searched.best_of_runStages (h : Searched env m₀ m tasks) (budget number : Nat)
    {stages : List (Stage K)} (known : ∀ s ∈ stages, ∀ best ∈ s.best, P best.1) :
    ∀ s ∈ (QueryOptimizer.runStages env budget required number stages m).stages,
      ∀ best ∈ s.best, P best.1 := by
  induction stages generalizing number m tasks with
  | nil => simp [QueryOptimizer.runStages]
  | cons s rest ih =>
    obtain ⟨first, others⟩ := List.forall_mem_cons.1 known
    obtain ⟨tasks', later⟩ := h.runStage budget required s
    have done {s' : Stage K} (hs' : ((s.run env budget required).exec m).1 = .ok s') :
        ∀ best ∈ s'.best, P best.1 := h.best_of_runStage of_readOff first hs'
    rcases run : (s.run env budget required).exec m with ⟨e | s', m'⟩
    · rw [runStages_of_error run]
      exact List.forall_mem_cons.2 ⟨first, others⟩
    · rw [run] at later done
      rw [runStages_of_ok run]
      split
      · exact List.forall_mem_cons.2 ⟨done rfl, others⟩
      · exact List.forall_mem_cons.2 ⟨done rfl, ih later (number + 1) others⟩

end Returned

/-- The plan that an optimization returns was read off a state of a search, or one of the
stages had it already. So it has every property that these plans have. -/
theorem of_optimize {required : PhysicalProperty} {P : Plan K → Prop}
    (of_readOff : ∀ plan, ReadOff env m required plan → P plan) {budget : Nat}
    {stages : List (Stage K)} (known : ∀ s ∈ stages, ∀ best ∈ s.best, P best.1) {plan : Plan K}
    (returned : (optimize env budget required stages m).result = .ok plan) : P plan := by
  have begun : Searched env m m [] := .start
  simp only [optimize] at returned
  split at returned
  · cases returned
  · split at returned
    · rename_i found
      obtain rfl := Except.ok.inj returned
      obtain ⟨cost, mem⟩ := mem_of_cheapest? found
      obtain ⟨s, hs, hbest⟩ := List.mem_filterMap.1 mem
      exact begun.best_of_runStages of_readOff budget 0 known s hs _ hbest
    · cases returned

end Memo

/-! ### An example -/

namespace Sample

open Memo MemoM

variable {K : Type} [ExactQuantity K]

/-- No tables are known. -/
def bareSetting : Environment K where
  catalog := .failing (.notFound .table "lines")
  config := .default

def literals : Values := ⟨[wanted], [[.integer .int64 1], [.integer .int64 3]]⟩

def rising : SortOrder := ⟨[⟨wanted, true, false⟩]⟩

def rowsKey : ExprKey := ⟨.logical (.values literals), []⟩

def scanKey : ExprKey := ⟨.physical (.valuesScan literals), []⟩

def sortKey : ExprKey := ⟨.physical (.sort rising), [0]⟩

/-- The numbers 1 and 3. -/
def rowsPlan : Plan K where
  id := 0
  operator := rowsKey.operator
  inputs := []

/-- The numbers are wanted in rising order, on whichever segments. -/
def inOrder : PhysicalProperty := ⟨.any, rising⟩

def request : Request K := ⟨inOrder, .unlimited⟩

/-- A memo of one group. -/
def memo (r : Relation K) (exprs : List (Expr K))
    (winners : List (PhysicalProperty × Winner K)) : Memo K where
  index := exprs.zipIdx.foldl (fun index (e, i) => index.insert e.toExprKey ⟨0, i⟩) {}
  groups := #[{ r with id := 0, exprs := exprs.toArray, winners := ⟨winners⟩ }]

def rows : Expr K := { rowsKey with }

def exploredRows : Expr K := { rowsKey with applied := ⟨[.valuesToValuesScan]⟩ }

def scanCost (r : Relation K) : K :=
  r.statistics.rows * Cost.handleRow

def sortedCost (r : Relation K) : K :=
  let rows := Quantity.larger r.statistics.rows 1.0
  scanCost r + rows * Quantity.larger (Quantity.log2 rows) 1.0 * Cost.handleRow

/-- The scan of the rows, which delivers them on one segment. -/
def offeredScan (r : Relation K) : Expr K :=
  { scanKey with deliveries := ⟨[(.singleton, ⟨scanCost r, []⟩)]⟩ }

/-- The sort on top of the scan. -/
def offeredSort (r : Relation K) : Expr K :=
  let d : Delivery K := ⟨sortedCost r, [.singleton]⟩
  { sortKey with deliveries := ⟨[(⟨.singleton, rising⟩, d), (inOrder, d)]⟩ }

/-- The memo of the plan. -/
def entered (r : Relation K) : Memo K :=
  memo r [rows] []

/-- The memo with the rows implemented. -/
def implemented (r : Relation K) : Memo K :=
  memo r [exploredRows, { scanKey with }] []

/-- The memo with the scan on offer. -/
def scanned (r : Relation K) : Memo K :=
  memo r [exploredRows, offeredScan r] [(.singleton, ⟨scanCost r, ⟨0, 1⟩⟩)]

/-- The memo with the sort on offer. -/
def optimized (r : Relation K) : Memo K :=
  memo r [exploredRows, offeredScan r, offeredSort r] [(.singleton, ⟨scanCost r, ⟨0, 1⟩⟩),
    (⟨.singleton, rising⟩, ⟨sortedCost r, ⟨0, 2⟩⟩), (inOrder, ⟨sortedCost r, ⟨0, 2⟩⟩)]

/-- The plan that is found. -/
def sortedPlan (r : Relation K) : Plan K where
  id := 1
  operator := sortKey.operator
  inputs := [⟨2, scanKey.operator, [], some ⟨r, .singleton, scanCost r⟩⟩]
  estimate := some ⟨r, inOrder, sortedCost r⟩

/-- What is derived about the rows. -/
theorem exists_derived : ∃ r : Relation K,
    (LogicalOperator.values literals).derive (bareSetting (K := K)) [] [] = .ok r ∧
      r.statistics = .ofRows literals.cols literals.rows :=
  ⟨_, rfl, rfl⟩

variable {r : Relation K}

/-- Neither the rows of the sample nor their width are negative. -/
theorem nonneg_of_derived (h : r.statistics = .ofRows literals.cols literals.rows) :
    0 ≤ r.statistics.rows ∧ 0 ≤ r.statistics.rowWidth := by
  rw [h]
  constructor
  · change 0 ≤ Quantity.larger (Quantity.ofNat 2) Estimate.minRows
    rw [Quantity.larger_eq_max, ExactQuantity.ofNat_eq]
    exact le_max_of_le_left (Nat.cast_nonneg 2)
  · change 0 ≤ Quantity.sum [Quantity.ofNat wanted.width]
    rw [Quantity.sum_eq, ExactQuantity.ofNat_eq, List.sum_singleton]
    exact Nat.cast_nonneg _

/-- The sample is loaded into one group. -/
theorem ofPlan_rowsPlan
    (derived : (LogicalOperator.values literals).derive (bareSetting (K := K)) [] [] = .ok r) :
    Memo.ofPlan bareSetting rowsPlan = .ok (entered r) := by
  have relations : (({} : Memo K).relations [] >>= (LogicalOperator.values literals).derive
      bareSetting []) = .ok r := derived
  have started : (insertKey (bareSetting (K := K)) rowsKey none).exec {} =
      (.ok (⟨0, 0⟩, true), entered r) := by
    rw [exec_insertKey_none, Std.HashMap.getElem?_empty, rowsKey, exec_startGroup]
    simp only [relations]
    rfl
  have below : ((loadInputs (bareSetting (K := K)) []).run {}).exec {} = (.ok ([], {}), {}) :=
    rfl
  have loaded : ((loadNode (bareSetting (K := K)) rowsPlan).run {}).exec {} =
      (.ok (0, ({} : Std.HashMap Nat GroupId).insert 0 0), entered r) := by
    rw [rowsPlan, run_loadNode, Std.HashMap.getElem?_empty]
    exact (exec_bind_of_ok below).trans ((exec_bind_of_ok started).trans rfl)
  rw [ofPlan_eq, loaded]
  rfl

omit [ExactQuantity K] in
/-- The sample is well formed. -/
theorem wellFormed_rowsPlan : (rowsPlan (K := K)).WellFormed where
  fits := by
    simp only [rowsPlan, Plan.nodes, Plan.nodesBelow, List.mem_singleton, forall_eq]
    exact ⟨_, rfl, .values (List.nodup_singleton _) (by decide)⟩
  closed := rfl
  sameNode := by
    simp only [rowsPlan, Plan.nodes, Plan.nodesBelow, List.mem_singleton,
      forall_eq, implies_true]
  oneProducer := by
    simp only [rowsPlan, Plan.nodes, Plan.nodesBelow, List.mem_singleton, forall_eq]
    rintro a b producer
    cases producer

/-! #### The tasks -/

variable {rules : RuleSet}

theorem run_optimizeGroup :
    ((Task.optimizeGroup 0 request).run bareSetting rules).exec (entered r) =
      (.ok [.optimizeExpr ⟨0, 0⟩ (some request)], entered r) :=
  rfl

/-- The optimization of the logical expression begins with the rule that applies to it. -/
theorem run_optimizeExpr :
    ((Task.optimizeExpr ⟨0, 0⟩ (some request)).run bareSetting
      (.union .exploration .implementation)).exec (entered r) =
      (.ok [.applyRule .valuesToValuesScan ⟨0, 0⟩ (some request)], entered r) := by
  have all : Task.trialOrder.Perm RuleId.all :=
    (List.reverse_perm _).trans (List.mergeSort_perm _ _)
  have tried : Task.trialOrder.filter (Task.isCandidate (.union .exploration .implementation)
      (rows : Expr K) (.values literals) false) = [.valuesToValuesScan] :=
    List.perm_singleton.1 (all.filter _)
  exact congrArg (fun rules : List RuleId => (Except.ok (rules.map
    (Task.applyRule · ⟨0, 0⟩ (some request))), entered r)) tried

/-- The rule adds a scan of the constant table. -/
theorem run_applyRule :
    ((Task.applyRule .valuesToValuesScan ⟨0, 0⟩ (some request)).run bareSetting rules).exec
      (entered r) = (.ok [.optimizeInputs ⟨0, 1⟩ request .start], implemented r) := by
  have other : (rowsKey == scanKey) = false := rfl
  have new : (entered r).index[scanKey]? = none := by
    simp [entered, memo, rows, other]
  let added : Memo K := memo r [rows, { scanKey with }] []
  have key : (insertKey bareSetting scanKey (some 0)).exec (entered r) =
      (.ok (⟨0, 1⟩, true), added) := by
    rw [exec_insertKey_some, new]
    rfl
  have node :
    (insertNode bareSetting (some 0) (.operator scanKey.operator [])).exec (entered r) =
      (.ok (⟨0, 1⟩, true), added) :=
    (exec_bind_of_ok (a := []) rfl).trans key
  have tree :
    (insertTree bareSetting (.operator scanKey.operator []) (some 0)).exec (entered r) =
      (.ok (⟨0, 1⟩, true), added) := by
    rw [insertTree, exec_bind, exec_get]
    simp only [exec_tryCatch, node]
  have applied : (Task.applyTo bareSetting .valuesToValuesScan ⟨0, 0⟩ (some request)
      (.expr ⟨0, 0⟩ [])).exec (entered r) =
        (.ok [.optimizeInputs ⟨0, 1⟩ request .start], added) :=
    (exec_bind_of_ok (a := entered r) rfl).trans <| (exec_bind_of_ok rfl).trans <|
      (exec_bind_of_ok tree).trans rfl
  have mapped : ([ExprTree.expr ⟨0, 0⟩ []].mapM
      (Task.applyTo bareSetting .valuesToValuesScan ⟨0, 0⟩ (some request))).exec (entered r) =
        (.ok [[.optimizeInputs ⟨0, 1⟩ request .start]], added) := by
    rw [List.mapM_cons, List.mapM_nil]
    exact exec_bind_of_ok applied
  exact (exec_bind_of_ok (a := entered r) rfl).trans <| (exec_bind_of_ok rfl).trans <|
    (exec_bind_of_ok mapped).trans rfl

theorem run_optimizeInputs :
    ((Task.optimizeInputs ⟨0, 1⟩ request .start).run bareSetting rules).exec (implemented r) =
      (.ok [.optimizeInputs ⟨0, 1⟩ request (.complete (.leaf .singleton) [] (scanCost r))],
        implemented r) :=
  rfl

/-- The scan is offered for what it delivers, and sorted for what is required. -/
theorem run_complete : ((Task.optimizeInputs ⟨0, 1⟩ request
    (.complete (.leaf .singleton) [] (scanCost r))).run bareSetting rules).exec
      (implemented r) =
      (.ok [], optimized r) := by
  have other : (rowsKey == sortKey) = false ∧ (scanKey == sortKey) = false := ⟨rfl, rfl⟩
  have new : (scanned r).index[sortKey]? = none := by
    simp [scanned, memo, exploredRows, offeredScan, other]
  have key : (insertKey bareSetting sortKey (some 0)).exec (scanned r) = (.ok (⟨0, 2⟩, true),
      memo r [exploredRows, offeredScan r, { sortKey with }]
      [(.singleton, ⟨scanCost r, ⟨0, 1⟩⟩)]) := by
    rw [exec_insertKey_some, new]
    rfl
  have enforced : (Task.enforce bareSetting 0 inOrder .singleton (scanCost r)
      [⟨.sort rising, ⟨.singleton, rising⟩⟩]).exec (scanned r) =
        (.ok (some (sortedCost r)), optimized r) :=
    (exec_bind_of_ok key).trans rfl
  have offered : (modify (·.offer ⟨0, 1⟩ .singleton ⟨scanCost r, []⟩) : MemoM K PUnit).exec
      (implemented r) = (.ok ⟨⟩, scanned r) := rfl
  have recorded :
    (Task.recordWinner bareSetting ⟨0, 1⟩ inOrder (.leaf .singleton) (scanCost r)).exec
      (implemented r) = (.ok (some (sortedCost r)), optimized r) :=
    (exec_bind_of_ok offered).trans enforced
  have admitted : request.bound.admits (scanCost r) = true := BEq.rfl (a := scanCost r)
  simp only [Task.run, Task.optimizingInputs, admitted]
  exact (exec_bind_of_ok recorded).trans rfl

/-! #### The search -/

/-- The search for rows in order takes five tasks. -/
theorem schedule_entered : (schedule bareSetting (.union .exploration .implementation) none 5 0
    [.optimizeGroup 0 request]).exec (entered r) = (.ok .finished, optimized r) :=
  (exec_schedule_of_ok rfl rfl run_optimizeGroup).trans <|
    (exec_schedule_of_ok rfl rfl run_optimizeExpr).trans <|
    (exec_schedule_of_ok rfl rfl run_applyRule).trans <|
    (exec_schedule_of_ok rfl rfl run_optimizeInputs).trans <|
    (exec_schedule_of_ok rfl rfl run_complete).trans rfl

/-- A stage finds the sorted scan. -/
theorem run_stage : ((Stage.ofRules .exploration none none).run bareSetting 5 inOrder).exec
    (entered r) = (.ok { Stage.ofRules .exploration none none with
      best := some (sortedPlan r, sortedCost r) }, optimized r) := by
  have reset : (modify Memo.reset : MemoM K PUnit).exec (entered r) = (.ok ⟨⟩, entered r) := by
    simp [entered, memo, rows, Memo.reset, Group.reset, Expr.reset]
  exact (exec_bind_of_ok reset).trans <| (exec_bind_of_ok (a := entered r) rfl).trans <|
    (exec_bind_of_ok schedule_entered).trans rfl

/-- The optimization gives what the stage finds. -/
theorem optimize_of_run_stage {budget : Nat}
    (run : ((Stage.ofRules .exploration none none).run bareSetting budget inOrder).exec
      (entered r) =
      (.ok { Stage.ofRules .exploration none none
        with best := some (sortedPlan r, sortedCost r) },
        optimized r)) :
    (optimize bareSetting budget inOrder Stage.defaults (entered r)).result =
      .ok (sortedPlan r) ∧
      (optimize bareSetting budget inOrder Stage.defaults (entered r)).memo = optimized r := by
  have stages : runStages bareSetting budget inOrder 0 Stage.defaults (entered r) =
      { stages := [{ Stage.ofRules .exploration none none with
          best := some (sortedPlan r, sortedCost r) }]
        memo := optimized r
        started := [(0, .union .exploration .implementation)] } := by
    simp only [Stage.defaults, runStages]
    change (match ((Stage.ofRules .exploration none none).run bareSetting budget inOrder).exec
        (entered r) with
      | (.error e, m) => _
      | (.ok s, m) => _ : StageRun K) = _
    rw [run]
    rfl
  simp only [optimize, stages, and_true]
  rfl

/-- The optimization finds the plan. -/
theorem optimize_entered :
    (optimize bareSetting 5 inOrder Stage.defaults (entered r)).result = .ok (sortedPlan r) ∧
      (optimize bareSetting 5 inOrder Stage.defaults (entered r)).memo = optimized r :=
  optimize_of_run_stage run_stage

end Sample

end QueryOptimizer
