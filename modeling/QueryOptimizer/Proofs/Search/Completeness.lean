import QueryOptimizer.Proofs.Memo.Coherence
import QueryOptimizer.Proofs.Search.Promises

/-!
# An optimization finds a plan

The memo of a well-formed plan is in order and ready for a search, and so is what each stage
leaves. A stage begins with a task that promises a winner at the root: the schedule finishes,
and the promise is kept as long as costs are finite. The winner is founded, so a plan can be
read off. So every stage finds one.

Costs may be rounded: nothing is asked of them but to be an `OrderedQuantity`, as doubles are.
It is not enough that each operator has a finite cost: a sum of such costs may be infinite, and
then nothing definite is left of the bound for the next input. So costs are finite here if
their sums are (`Memo.FiniteCosts`).

## Main results

* `Memo.Orderly.exists_runStage`: a stage finds a winner for a feasible property of the root.
* `Memo.Orderly.exists_runStages`: every stage finds a plan.
* `Memo.exists_plan_of_optimize`: an optimization does not lose all plans.
-/

namespace QueryOptimizer

variable {K : Type} {m m' m₀ : Memo K} {base : List LogicalOperator} {n : Nat}

/-! ### Plans -/

/-- The set operations of a well-formed plan have inputs. -/
theorem Plan.WellFormed.inputs_ne_nil {plan : Plan K} (wf : plan.WellFormed) :
    ∀ s ∈ plan.operators.flatMap LogicalOperator.operations, s.inputs ≠ [] := by
  intro s mem
  obtain ⟨op, hop, hs⟩ := List.mem_flatMap.1 mem
  obtain ⟨q, hq, hop⟩ := List.mem_filterMap.1 hop
  obtain ⟨op', same, fits⟩ := wf.fits q hq
  rw [same] at hop
  obtain rfl := Option.some.inj hop
  generalize q.inputs = inputs at fits
  cases fits with
  | setOp _ _ someInput _ aligned =>
    obtain rfl := List.mem_singleton.1 hs
    rintro none
    rw [none] at aligned
    cases aligned
    exact someInput rfl
  | _ => cases hs

/-- Whether a stage is fresh: it has no plan yet and no time limit, and all
implementation rules are enabled. -/
structure Stage.Fresh (s : Stage K) : Prop where
  best : s.best = none
  unlimited : s.timeLimit = none
  implementation : ∀ r ∈ RuleSet.implementation, r ∈ s.rules

/-- The stages that are taken by default are fresh. -/
theorem Stage.fresh_of_mem_defaults {s : Stage K} (h : s ∈ Stage.defaults) : s.Fresh := by
  obtain rfl := List.mem_singleton.1 h
  exact ⟨rfl, rfl, fun _ mem => List.mem_append_right _ mem⟩

namespace Memo

/-- In the memo of a well-formed plan no rule has been applied yet. -/
theorem implemented_of_ofPlan [Quantity K] {env : Environment K} {plan : Plan K}
    (wf : plan.WellFormed) (made : Memo.ofPlan env plan = .ok m) : m.Implemented := by
  have logical : m.Stores fun k => k.operator.isLogical = true :=
    stores_of_ofPlan
      (fun q hq _ _ => by obtain ⟨op, same, -⟩ := wf.fits q hq; rw [same]; rfl) made
  exact .of_logical (fun hk => logical _ _ hk) (marks_of_ofPlan made)

/-! ### Stages -/

section Stage

variable [Quantity K] {env : Environment K} {s : Stage K} {budget : Nat}
  {required : PhysicalProperty}

/-- A stage leaves what its schedule leaves. -/
theorem Finishes.memo_runStage (unlimited : s.timeLimit = none)
    (h : Finishes env s.rules budget m.reset
      [.optimizeGroup m.root ⟨required, .unlimited⟩] m') :
    ((s.run env budget required).exec m).2 = m' := by
  rw [Stage.exec_run, unlimited, h]
  dsimp only
  split <;> rfl

/-- A stage whose schedule finishes with a winner at the root completes with the best plan. -/
theorem Finishes.exec_runStage (unlimited : s.timeLimit = none)
    (h : Finishes env s.rules budget m.reset [.optimizeGroup m.root ⟨required, .unlimited⟩] m')
    {w : Winner K} (won : m'.winner? m.root required = some w) :
    (s.run env budget required).exec m =
      (do s.complete (← m'.bestPlan required) w.cost, m') := by
  rw [Stage.exec_run, unlimited, h]
  simp only [won]

/-- What a stage has left only grows in the stages after it. -/
theorem Orderly.extends_runStages [OrderedQuantity K] {rest : List (Stage K)}
    (h : ((s.run env budget required).exec m).2.Orderly base n) (number : Nat) :
    ((s.run env budget required).exec m).2.Extends
      (runStages env budget required number (s :: rest) m).memo := by
  rcases run : (s.run env budget required).exec m with ⟨e | s', m'⟩
  · rw [runStages_of_error run]
    exact .refl m'
  · rw [run] at h
    have begun : Searched env m' m' [] := .start
    obtain ⟨_, ended⟩ := begun.runStages budget required (number + 1) rest
    rw [runStages_of_ok run]
    split
    · exact .refl m'
    · exact (ended.reached.staysOrderly h).extended

end Stage

section Search

variable [Quantity K] [OrderedQuantity K] {env : Environment K} (answers : env.catalog.Answers)
  (going : env.isCancelled = false)
  (operations : ∀ s ∈ base.flatMap LogicalOperator.operations, s.inputs ≠ [])
  (allows : env.flags.AllowsMotions) {required : PhysicalProperty}
  (feasible : required.Feasible)

section Stages

include answers going operations allows feasible

/-- The schedule of a stage finishes if the budget is large enough. If costs are finite, there
is a winner for a feasible property of the root then. -/
theorem Orderly.exists_runStage (h : m.Orderly base n) (implemented : m.Implemented)
    (inside : m.root < m.groups.size) {rules : RuleSet}
    (implementation : ∀ r ∈ RuleSet.implementation, r ∈ rules) :
    ∃ spent m', m'.Reliable env base n [] ∧ m.Extends m' ∧
      (∀ budget ≥ spent,
        Finishes env rules budget m.reset [.optimizeGroup m.root ⟨required, .unlimited⟩] m') ∧
      (m'.FiniteCosts env → (m'.winner? m.root required).isSome) := by
  have begun :
      m.reset.Reliable env base n ([.optimizeGroup m.root ⟨required, .unlimited⟩] ++ []) :=
    h.reliable_reset implemented inside required
  obtain ⟨spent, m', ends⟩ :=
    begun.prepared.exists_finishes answers going operations rules begun.ready
  obtain ⟨reliable, remembers⟩ := (ends spent le_rfl).reliable answers going operations begun
  refine ⟨spent, m', reliable, (Extends.ofLike (.reset m)).trans remembers.extended, ends,
    fun finite => ?_⟩
  exact Task.fulfills answers going operations allows implementation spent
    begun feasible .group (ends spent le_rfl) finite

/-- Every stage finds a plan if the budget is large enough and costs are finite. -/
theorem Orderly.exists_runStages (h : m.Orderly base n) (implemented : m.Implemented)
    (inside : m.root < m.groups.size) {stages : List (Stage K)} (fresh : ∀ s ∈ stages, s.Fresh)
    (number : Nat) : ∃ spent, ∀ budget ≥ spent,
      (runStages env budget required number stages m).memo.FiniteCosts env →
        (runStages env budget required number stages m).failure = none ∧
        (stages ≠ [] → ∃ s ∈ (runStages env budget required number stages m).stages,
          s.best ≠ none) := by
  induction stages generalizing m number with
  | nil => exact ⟨0, fun _ _ _ => ⟨rfl, fun some => absurd rfl some⟩⟩
  | cons s rest ih =>
    obtain ⟨⟨new, unlimited, implementation⟩, others⟩ := List.forall_mem_cons.1 fresh
    obtain ⟨spent, m', reliable, extended, ends, found⟩ :=
      h.exists_runStage answers going operations allows feasible implemented
        inside implementation
    have inside' : m'.root < m'.groups.size :=
      extended.root ▸ Nat.lt_of_lt_of_le inside extended.size_le
    obtain ⟨spent', ends'⟩ :=
      ih reliable.orderly reliable.implemented inside' others (number + 1)
    refine ⟨max spent spent', fun budget le finite => ?_⟩
    have ended := ends budget ((le_max_left _ _).trans le)
    obtain rfl : ((s.run env budget required).exec m).2 = m' := ended.memo_runStage unlimited
    -- The sums over the memo of the stage are finite because it only grows afterwards.
    obtain ⟨w, won⟩ := Option.isSome_iff_exists.1
      (found (finite.of_extends (reliable.orderly.extends_runStages number)))
    generalize ((s.run env budget required).exec m).2 = m' at *
    have grounded : m'.Grounded (m'.root, required) :=
      reliable.founded.grounded (extended.root ▸ won)
    obtain ⟨best, read⟩ := grounded.exists_bestPlan
    have completed : s.complete best w.cost = .ok { s with best := some (best, w.cost) } :=
      if_neg (by simp [new])
    have ran : (s.run env budget required).exec m =
        (.ok { s with best := some (best, w.cost) }, m') := by
      rw [ended.exec_runStage unlimited won, read, ← completed]
      rfl
    rw [runStages_of_ok ran] at finite ⊢
    split
    · exact ⟨rfl, fun _ => ⟨_, List.mem_cons_self, Option.some_ne_none _⟩⟩
    · rename_i notYet
      rw [if_neg notYet] at finite
      obtain ⟨ok, -⟩ := ends' budget ((le_max_right _ _).trans le) finite
      exact ⟨ok, fun _ => ⟨_, List.mem_cons_self, Option.some_ne_none _⟩⟩

end Stages

omit [OrderedQuantity K] in
/-- If no stage fails and one of them has a plan, an optimization has one. -/
theorem exists_result_of_runStages {budget : Nat} {stages : List (Stage K)}
    (finished : (runStages env budget required 0 stages m).failure = none)
    (found : ∃ s ∈ (runStages env budget required 0 stages m).stages, s.best ≠ none) :
    ∃ best, (optimize env budget required stages m).result = .ok best := by
  obtain ⟨s, hs, some⟩ := found
  obtain ⟨plan, hplan⟩ := Option.ne_none_iff_exists'.1 some
  have mem := List.mem_filterMap.2 ⟨s, hs, hplan⟩
  simp only [optimize, finished]
  cases plans : (runStages env budget required 0 stages m).stages.filterMap (·.best) with
  | nil =>
    rw [plans] at mem
    cases mem
  | cons first others => exact ⟨_, rfl⟩

end Search

end Memo

namespace Sample

open Memo

variable [ExactQuantity K]

/-- The catalog of the sample answers. -/
theorem answers_bareSetting : (bareSetting (K := K)).catalog.Answers :=
  ⟨fun _ _ _ => ⟨_, rfl⟩, fun _ => ⟨_, rfl⟩⟩

/-- The search that finds the plan does not need more budget. -/
theorem optimize_entered_of_le {r : Relation K} {budget : Nat} (le : 5 ≤ budget) :
    (optimize bareSetting budget inOrder Stage.defaults (entered r)).result =
      .ok (sortedPlan r) ∧
      (optimize bareSetting budget inOrder Stage.defaults (entered r)).memo = optimized r := by
  have reset : (entered r).reset = entered r := by
    simp [entered, memo, rows, Memo.reset, Group.reset, Expr.reset]
  have finishes :
    Finishes bareSetting (.union .exploration .implementation) 5 (entered r).reset
      [.optimizeGroup 0 request] (optimized r) := by
    rw [reset]
    exact schedule_entered
  have stage {budget : Nat} (le : 5 ≤ budget) :=
    (finishes.mono rfl le).exec_runStage (s := .ofRules .exploration none none) rfl rfl
  exact optimize_of_run_stage ((stage le).trans ((stage le_rfl).symm.trans run_stage))

end Sample

namespace Memo

/-- An optimization does not lose all plans. On the memo of a well-formed plan, with a catalog
that answers and nothing that keeps the optimizer from moving rows, it has an outcome for every
required property that asks for no distribution or for one that a motion leads to, and for all
fresh stages. The outcome does not depend on the budget if that is large enough, and it is a
plan if costs are finite: all sums of the costs of operators, of inputs and of enforcers on top
of them, rounded as the search rounds them. -/
theorem exists_plan_of_optimize [Quantity K] [OrderedQuantity K] {env : Environment K}
    {required : PhysicalProperty} {plan : Plan K} (wf : plan.WellFormed)
    (made : Memo.ofPlan env plan = .ok m₀) (answers : env.catalog.Answers)
    (going : env.isCancelled = false) (allows : env.flags.AllowsMotions)
    (feasible : required.Feasible) {stages : List (Stage K)} (some : stages ≠ [])
    (fresh : ∀ s ∈ stages, s.Fresh) :
    ∃ outcome, (∃ spent, ∀ budget ≥ spent, optimize env budget required stages m₀ = outcome) ∧
      (outcome.memo.FiniteCosts env → ∃ best, outcome.result = .ok best) := by
  obtain ⟨n, orderly⟩ := exists_orderly_of_ofPlan wf made
  obtain ⟨spent, same⟩ :=
    orderly.toRanked.exists_optimize env required fun s hs => (fresh s hs).unlimited
  obtain ⟨spent', ends⟩ := orderly.exists_runStages answers going
    wf.inputs_ne_nil allows feasible (implemented_of_ofPlan wf made)
    (Coherent.root_lt_of_ofPlan made) fresh 0
  refine ⟨_, ⟨spent, same⟩, fun finite => ?_⟩
  rw [← same (max spent spent') (le_max_left _ _)] at finite ⊢
  obtain ⟨finished, found⟩ := ends _ (le_max_right _ _)
    (memo_optimize (max spent spent') required stages m₀ ▸ finite)
  exact exists_result_of_runStages finished (found some)

open Sample in
/-- The numbers 1 and 3 are wanted in order. In exact arithmetic no sum of costs
is infinite. -/
theorem exists_plan_of_optimize_sample : ∃ m₀ : Memo ℝ, (rowsPlan (K := ℝ)).WellFormed ∧
    Memo.ofPlan bareSetting rowsPlan = .ok m₀ ∧ inOrder.Feasible ∧
    ∃ outcome,
      (∃ spent, ∀ budget ≥ spent,
        optimize bareSetting budget inOrder Stage.defaults m₀ = outcome) ∧
      outcome.memo.FiniteCosts bareSetting ∧ ∃ best, outcome.result = .ok best := by
  obtain ⟨r, derived, statistics⟩ := exists_derived (K := ℝ)
  have made : Memo.ofPlan bareSetting rowsPlan = .ok (entered r) := ofPlan_rowsPlan derived
  have feasible : inOrder.Feasible := .any
  obtain ⟨outcome, ⟨spent, same⟩, returned⟩ := exists_plan_of_optimize wellFormed_rowsPlan made
    answers_bareSetting rfl ⟨rfl, rfl, rfl⟩ feasible (List.cons_ne_nil _ _) fun _ =>
      Stage.fresh_of_mem_defaults
  have memo : outcome.memo = optimized r := by
    rw [← same (max spent 5) (le_max_left _ _)]
    exact (optimize_entered_of_le (le_max_right _ _)).2
  have finite : outcome.memo.FiniteCosts bareSetting := by
    rw [memo]
    exact (nonnegCosts_optimized statistics).finite
  exact ⟨entered r, wellFormed_rowsPlan, made, feasible, outcome, ⟨spent, same⟩, finite,
    returned finite⟩

end Memo

end QueryOptimizer
