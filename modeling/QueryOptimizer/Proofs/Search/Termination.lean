import QueryOptimizer.Proofs.Search.Height

/-!
# Searches end

A search state is a memo with the tasks that are waiting. Each task leaves less work on the
memo, or the same work and lower tasks in its place. Both cannot go on for ever, whatever the
rules are and whatever is asked for: a multiset in which an element is again and again
replaced by lower ones becomes empty. So a schedule without a time limit does all of its tasks
unless one of them fails.

## Main results

* `Memo.Ranked.exists_schedule`: a schedule comes to an end that does not depend on the budget.
* `Memo.terminates_of_ofPlan`: so does every search on the memo of a well-formed plan.
-/

namespace QueryOptimizer

variable {K : Type} {m m' m₀ : Memo K} {base : List LogicalOperator} {n : Nat}

namespace Memo

/-! ### What is left of a search -/

/-- What is left to do on a memo, and the heights of the tasks that are waiting. -/
noncomputable def load (base : List LogicalOperator) (n : Nat) (m : Memo K)
    (tasks : List (Task K)) :
    (Multiset (ℕ ×ₗ ℕ) × ℕ × ℕ) × Multiset ((ℕ ×ₗ ℕ) ×ₗ ℕ ×ₗ ℕ ×ₗ ℕ ×ₗ ℕ) :=
  (m.work base n, (tasks.map (Task.height m) : List _))

/-- Whether a load is lighter than another one. -/
def Lighter : (Multiset (ℕ ×ₗ ℕ) × ℕ × ℕ) × Multiset ((ℕ ×ₗ ℕ) ×ₗ ℕ ×ₗ ℕ ×ₗ ℕ ×ₗ ℕ) →
    (Multiset (ℕ ×ₗ ℕ) × ℕ × ℕ) × Multiset ((ℕ ×ₗ ℕ) ×ₗ ℕ ×ₗ ℕ ×ₗ ℕ ×ₗ ℕ) → Prop :=
  Prod.Lex Less (Relation.CutExpand (· < ·))

/-- Tasks do not get lighter for ever. -/
theorem wellFounded_lighter : WellFounded Lighter :=
  wellFounded_less.prod_lex wellFounded_lt.cutExpand

section Search

variable [Quantity K] {env : Environment K} {rules : RuleSet} {t : Task K}
  {before after next : List (Task K)}

/-- A task that is done makes the load lighter. -/
theorem Ranked.lighter (h : m.Ranked base n)
    (run : (t.run env rules).exec m = (.ok next, m')) :
    Lighter (m'.load base n (before ++ next ++ after))
      (m.load base n (before ++ t :: after)) := by
  rcases t.declines_or_settled h run with declines | ⟨settled, lower⟩
  · exact .left _ _ declines
  · have heights (ts : List (Task K)) : ts.map (Task.height m') = ts.map (Task.height m) :=
      List.map_congr_left fun t _ => t.height_settled settled h
    rw [load, load, settled.work_eq h, ← heights]
    refine .right _ ⟨(next.map (Task.height m') : List _), t.height m', fun a mem => ?_, ?_⟩
    · obtain ⟨t', ht', rfl⟩ := List.mem_map.1 (Multiset.mem_coe.1 mem)
      exact lower t' ht'
    · simp only [List.map_append, List.map_cons, ← Multiset.coe_add, ← Multiset.cons_coe,
        ← Multiset.singleton_add]
      abel

/-- A memo that a task has been done on, or the start of a new search. -/
def Successor (env : Environment K) (m m' : Memo K) : Prop :=
  (∃ rules next, ∃ t : Task K, (t.run env rules).exec m = (.ok next, m')) ∨ m' = m.reset

/-- A successor of a memo that was reached is reached. -/
theorem Successor.reached (successor : Successor env m m') (reached : Reached env m₀ m) :
    Reached env m₀ m' := by
  obtain ⟨rules, next, t, run⟩ | rfl := successor
  · have step : Reached env m₀ ((t.run env rules).exec m).2 := reached.task rules t
    rwa [run] at step
  · exact .reset reached

/-- A successor has less left to do, or has settled. -/
theorem Successor.declines_or_settled (successor : Successor env m m') (h : m.Ranked base n) :
    Declines base n m m' ∨ m.Settled m' := by
  obtain ⟨rules, next, t, run⟩ | rfl := successor
  · exact (t.declines_or_settled h run).imp_right And.left
  · exact .inr (.ofLike (.reset m) fun place _ => marks_reset m place)

/-- From some point on nothing but enforcers is added. -/
theorem Ranked.exists_settled {memos : ℕ → Memo K} (h : (memos 0).Ranked base n)
    (steps : ∀ i, Successor env (memos i) (memos (i + 1))) :
    ∃ i, ∀ j ≥ i, (memos i).Settled (memos j) := by
  have ranked (i : ℕ) : (memos i).Ranked base n := by
    have reached : Reached env (memos 0) (memos i) := by
      induction i with
      | zero => exact .start
      | succ i ih => exact (steps i).reached ih
    exact reached.ranked h
  obtain ⟨_, ⟨i, rfl⟩, least⟩ :=
    wellFounded_less.has_min (Set.range fun i => (memos i).work base n) ⟨_, 0, rfl⟩
  refine ⟨i, fun j le => ?_⟩
  induction j, le using Nat.le_induction with
  | base => exact .refl _
  | succ j _ ih =>
    rcases (steps j).declines_or_settled (ranked j) with declines | settled
    · rw [Declines, ih.work_eq (ranked i)] at declines
      exact absurd declines (least _ ⟨j + 1, rfl⟩)
    · exact trans_of Settled ih settled

/-! ### Schedules -/

/-- A schedule without a time limit finishes or fails, and spends no more than
some budget on that. -/
theorem Ranked.exists_schedule (h : m.Ranked base n) (env : Environment K) (rules : RuleSet)
    (tasks : List (Task K)) :
    ∃ spent outcome, (∀ stop, outcome.1 = .ok stop → stop = .finished) ∧
      ∀ budget ≥ spent, ∀ executed,
      (schedule env rules none budget executed tasks).exec m = outcome := by
  induction load : m.load base n tasks using wellFounded_lighter.induction
    generalizing m tasks with
  | h _ ih =>
    subst load
    cases tasks with
    | nil =>
      refine ⟨0, (.ok .finished, m), fun stop same => (Except.ok.inj same).symm,
        fun budget _ executed => ?_⟩
      cases budget <;> rfl
    | cons t waiting =>
      have positive {spent budget : ℕ} (le : spent + 1 ≤ budget) :
          ∃ rest ≥ spent, budget = rest + 1 :=
        ⟨budget - 1, by omega, by omega⟩
      cases going : env.isCancelled with
      | true =>
        refine ⟨1, (.error .cancelled, m), fun stop same => (by cases same),
          fun budget le executed => ?_⟩
        obtain ⟨rest, -, rfl⟩ := positive le
        simp only [schedule, going]
        rfl
      | false =>
        rcases run : (t.run env rules).exec m with ⟨e | next, m'⟩
        · refine ⟨1, (.error e, m'), fun stop same => (by cases same),
            fun budget le executed => ?_⟩
          obtain ⟨rest, -, rfl⟩ := positive le
          exact exec_schedule_of_error going rfl run
        · have reached : Reached env m ((t.run env rules).exec m).2 := .task rules t .start
          rw [run] at reached
          have lighter : Lighter (m'.load base n ([] ++ next ++ waiting))
              (m.load base n ([] ++ t :: waiting)) :=
            h.lighter run
          obtain ⟨spent, outcome, emptied, ends⟩ :=
            ih _ lighter (reached.ranked h) (next ++ waiting) rfl
          refine ⟨spent + 1, outcome, emptied, fun budget le executed => ?_⟩
          obtain ⟨rest, enough, rfl⟩ := positive le
          rw [exec_schedule_of_ok going rfl run]
          exact ends rest enough (executed + 1)

/-! ### Stages -/

/-- Enough budget for the schedule of a stage is enough for the stage. -/
theorem Ranked.exists_runStage (h : m.Ranked base n) (env : Environment K)
    (required : PhysicalProperty) {s : Stage K} (unlimited : s.timeLimit = none) :
    ∃ spent outcome, outcome.2.Ranked base n ∧ ∀ budget ≥ spent,
      (s.run env budget required).exec m = outcome := by
  obtain ⟨spent, ⟨stop, m'⟩, -, ends⟩ := (h.like (.reset m)).exists_schedule env s.rules
    [.optimizeGroup m.root ⟨required, .unlimited⟩]
  have begun : Searched env m m [] := .start
  obtain ⟨tasks, searched⟩ := begun.runStage spent required s
  refine ⟨spent, _, searched.reached.ranked h, fun budget le => ?_⟩
  rw [Stage.exec_run, Stage.exec_run, unlimited, ends budget le, ends spent le_rfl]

/-- Stages without a time limit end, and a larger budget changes nothing. -/
theorem Ranked.exists_runStages (h : m.Ranked base n) (env : Environment K)
    (required : PhysicalProperty)
    {stages : List (Stage K)} (unlimited : ∀ s ∈ stages, s.timeLimit = none) (number : Nat) :
    ∃ spent, ∀ budget ≥ spent, runStages env budget required number stages m =
      runStages env spent required number stages m := by
  induction stages generalizing m number with
  | nil => exact ⟨0, fun _ _ => rfl⟩
  | cons s rest ih =>
    obtain ⟨first, others⟩ := List.forall_mem_cons.1 unlimited
    obtain ⟨spent, ⟨r, m'⟩, ranked, ends⟩ := h.exists_runStage env required first
    obtain ⟨spent', ends'⟩ := ih ranked others (number + 1)
    have stage {budget : ℕ} (le : spent ≤ budget) :
        (s.run env budget required).run.run m = (r, m') := ends budget le
    refine ⟨max spent spent', fun budget le => ?_⟩
    simp only [runStages, stage ((le_max_left _ _).trans le), stage (le_max_left spent spent')]
    cases r with
    | error e => rfl
    | ok s' =>
      have same : runStages env budget required (number + 1) rest m' =
          runStages env (max spent spent') required (number + 1) rest m' :=
        (ends' budget ((le_max_right _ _).trans le)).trans (ends' _ (le_max_right _ _)).symm
      simp only [same]

/-- Enough budget for all stages is enough for an optimization. -/
theorem Ranked.exists_optimize (h : m.Ranked base n) (env : Environment K)
    (required : PhysicalProperty)
    {stages : List (Stage K)} (unlimited : ∀ s ∈ stages, s.timeLimit = none) :
    ∃ spent, ∀ budget ≥ spent, optimize env budget required stages m =
      optimize env spent required stages m := by
  obtain ⟨spent, ends⟩ := h.exists_runStages env required unlimited 0
  exact ⟨spent, fun budget le => by simp only [optimize, ends budget le]⟩

/-! ### Plans -/

/-- Whether an expression of the second group that is no enforcer has the first
group as an input. -/
def Below (m : Memo K) (i j : GroupId) : Prop :=
  ∃ place k, place.group = j ∧ m.key? place = some k ∧
    k.operator.isEnforcer = false ∧ i ∈ k.inputs

omit [Quantity K] in
/-- Groups do not go down for ever. -/
theorem Ranked.wellFounded_below (h : m.Ranked base n) : WellFounded m.Below := by
  refine Subrelation.wf (fun {i j} below => ?_) (InvImage.wf m.rank wellFounded_lt)
  obtain ⟨place, k, rfl, hk, plain, mem⟩ := below
  exact h.descends hk plain i mem

/-- Every search on the memo of a well-formed plan ends. In each memo that it reaches, the
groups below a group cannot be followed for ever. From some point on, no groups and no
expressions but enforcers are added. Each schedule without a time limit does all of its
tasks or fails, and so an optimization has an outcome that does not depend on the budget if
that is large enough. -/
theorem terminates_of_ofPlan {plan : Plan K} (wf : plan.WellFormed)
    (made : Memo.ofPlan env plan = .ok m₀) :
    (∀ m, Reached env m₀ m → WellFounded m.Below) ∧
    (∀ memos : ℕ → Memo K, memos 0 = m₀ → (∀ i, Successor env (memos i) (memos (i + 1))) →
      ∃ i, ∀ j ≥ i, (memos j).groups.size = (memos i).groups.size ∧
        ∀ place k, k.operator.isEnforcer = false →
          ((memos j).key? place = some k ↔ (memos i).key? place = some k)) ∧
    (∀ m, Reached env m₀ m → ∀ rules tasks,
      ∃ spent outcome, (∀ stop, outcome.1 = .ok stop → stop = .finished) ∧
        ∀ budget ≥ spent, ∀ executed,
        (schedule env rules none budget executed tasks).exec m = outcome) ∧
    ∀ required, ∀ stages : List (Stage K), (∀ s ∈ stages, s.timeLimit = none) →
      ∃ spent, ∀ budget ≥ spent, optimize env budget required stages m₀ =
        optimize env spent required stages m₀ := by
  obtain ⟨n, start⟩ := exists_ranked_of_ofPlan wf made
  refine ⟨fun m reached => (reached.ranked start).wellFounded_below,
    fun memos first steps => ?_, fun m reached rules tasks =>
      (reached.ranked start).exists_schedule env rules tasks,
    fun required stages unlimited => start.exists_optimize env required unlimited⟩
  subst first
  obtain ⟨i, settled⟩ := start.exists_settled steps
  refine ⟨i, fun j le => ⟨(settled j le).size, fun place k plain =>
    ⟨fun hk => ?_, (settled j le).extended.key place k⟩⟩⟩
  cases known : (memos i).key? place with
  | none => exact absurd ((settled j le).enforcers hk known).1 (by simp [plain])
  | some k' => exact ((settled j le).extended.key _ _ known).symm.trans hk

end Search

open Sample in
/-- The search for a join with a list of numbers ends. -/
theorem terminates_of_ofPlan_sample :
    ∃ m₀, plan.WellFormed ∧ Memo.ofPlan setting plan = .ok m₀ ∧
    ∃ spent, ∀ budget ≥ spent, optimize setting budget .any Stage.defaults m₀ =
      optimize setting spent .any Stage.defaults m₀ := by
  obtain ⟨m₀, made⟩ := exists_ofPlan
  have unlimited : ∀ s ∈ Stage.defaults (K := Binary64), s.timeLimit = none :=
    List.forall_mem_singleton.2 rfl
  exact ⟨m₀, wellFormed, made, (terminates_of_ofPlan wellFormed made).2.2.2 .any _ unlimited⟩

end Memo

end QueryOptimizer
