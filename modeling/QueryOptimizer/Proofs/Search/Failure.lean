import QueryOptimizer.Proofs.Search.Completeness
import QueryOptimizer.Proofs.Search.Founding

/-!
# How an optimization can fail

The errors of an optimizer are of two kinds. Some come from outside: the catalog cannot say
whether an operator exists, or the host has asked to stop. The others would say that the
optimizer's own data are inconsistent. None of these can occur: not a binding that is not what
its rule expects, not an expression of the wrong kind, not an input, a group or a requirement
that does not exist, and not a plan that contains itself.

This is so for the memo of every well-formed plan, after any number of earlier optimizations,
in environments of any kind, whether these have failed or not. Costs may be rounded, and they
may be infinite or no numbers at all.

## Main results

* `Memo.Underway.schedule`: a schedule only fails as the outside world does.
* `Memo.Orderly.runStage`: so does a stage, unless it has been completed before.
* `Memo.foreseen_of_optimize`: the ways in which an optimization can fail.
-/

namespace QueryOptimizer

variable {K : Type} {env : Environment K} {m m' : Memo K}
  {base : List LogicalOperator} {n : Nat}

/-- The errors that the outside world raises in a search. -/
inductive Environment.Raises (env : Environment K) : OptError → Prop
  | comparison {op : BinaryOp} {s t : DataType} {cause : CatalogError}
      (failed : env.catalog.comparisonExists op s t = .error cause) :
      Raises env (.catalog cause)
  | scalarOp {op : BinaryOp} {cause : CatalogError}
      (failed : env.catalog.scalarOp? op = .error cause) :
      Raises env (.catalog cause)
  | cancelled (asked : env.isCancelled = true) : Raises env .cancelled

/-- An environment raises no errors but its own. -/
theorem Environment.answersUnless_raises (env : Environment K) :
    env.AnswersUnless env.Raises := by
  have failed {α : Type} {answer : CatalogAnswer α} {e : OptError}
    (h : answer.orFail = .error e) :
      ∃ cause, answer = .error cause ∧ e = .catalog cause := by
    cases answer with
    | error cause => exact ⟨cause, rfl, (Except.error.inj h).symm⟩
    | ok a => cases h
  refine ⟨⟨fun op s t e h => ?_, fun op e h => ?_⟩, .cancelled⟩
  · obtain ⟨cause, answer, rfl⟩ := failed h
    exact .comparison answer
  · obtain ⟨cause, answer, rfl⟩ := failed h
    exact .scalarOp answer

variable [Quantity K] [OrderedQuantity K]

namespace Memo

open MemoM

/-! ### Schedules -/

variable (operations : ∀ s ∈ base.flatMap LogicalOperator.operations, s.inputs ≠ [])
include operations

/-- A schedule only fails as the outside world does. -/
theorem Underway.schedule {tasks : List (Task K)} (h : m.Underway base n tasks)
    (rules : RuleSet) (limit : Option Nat) (budget executed : Nat) :
    YieldsUnless env.Raises m (schedule env rules limit budget executed tasks) fun _ m' =>
      (∃ tasks', m'.Underway base n tasks') ∧ m.Extends m' := by
  induction budget generalizing executed tasks m with
  | zero => cases tasks <;> exact .pure ⟨⟨_, h⟩, .refl m⟩
  | succ budget ih =>
    cases tasks with
    | nil => exact .pure ⟨⟨_, h⟩, .refl m⟩
    | cons t waiting =>
      simp only [QueryOptimizer.schedule]
      split
      · rename_i asked
        exact .inr ⟨_, m, rfl, .cancelled asked⟩
      · split
        · exact .pure ⟨⟨_, h⟩, .refl m⟩
        · refine (h.run env.answersUnless_raises operations rules).bind ?_
          rintro next m' ⟨underway, extended⟩
          exact (ih underway (executed + 1)).mono fun _ _ h => ⟨h.1, extended.trans h.2⟩

/-! ### Stages -/

section Stages

variable (h : m.Orderly base n) (inside : m.root < m.groups.size)
include h inside

/-- A stage that has not been completed only fails as the outside world does. -/
theorem Orderly.runStage (budget : Nat) (required : PhysicalProperty) (s : Stage K) :
    YieldsUnless (fun e => env.Raises e ∨ e = .stageAlreadyCompleted ∧ s.best.isSome = true) m
      (s.run env budget required) fun _ m' => m'.Orderly base n ∧ m.Extends m' := by
  have like : m.Like m.reset := .reset m
  have begun : m.reset.Underway base n [.optimizeGroup m.root ⟨required, .unlimited⟩] :=
    h.underway_reset inside required
  rcases begun.schedule operations s.rules s.timeLimit budget 0 with
    ⟨_, m', run, ⟨tasks, underway⟩, extended⟩ | ⟨e, m', failed, raised⟩
  · have extended : m.Extends m' := (Extends.ofLike like).trans extended
    have ended : (s.run env budget required).exec m = _ := s.exec_run budget required
    rw [run] at ended
    dsimp only at ended
    cases won : m'.winner? m.root required with
    | none =>
      rw [won] at ended
      exact .inl ⟨s, m', ended, underway.orderly, extended⟩
    | some w =>
      have grounded : m'.Grounded (m'.root, required) :=
        underway.founded.grounded (extended.root ▸ won)
      obtain ⟨best, read⟩ := grounded.exists_bestPlan
      simp only [won, read] at ended
      by_cases done : s.best.isSome = true
      · refine .inr ⟨_, m', ended.trans (congrArg (·, m') (if_pos done)), .inr ⟨rfl, done⟩⟩
      · exact .inl
          ⟨_, m', ended.trans (congrArg (·, m') (if_neg done)), underway.orderly, extended⟩
  · refine .inr ⟨e, m', ?_, .inl raised⟩
    rw [Stage.exec_run, failed]

/-- The first stage that fails does so as the outside world does, unless it has
been completed before. -/
theorem Orderly.raises_of_runStages {budget : Nat} {required : PhysicalProperty}
    {stages : List (Stage K)} (number : Nat) {e : OptError}
    (failed : (runStages env budget required number stages m).failure = some e) :
    env.Raises e ∨ e = .stageAlreadyCompleted ∧ ∃ s ∈ stages, s.best.isSome = true := by
  induction stages generalizing m number with
  | nil => cases failed
  | cons s rest ih =>
    have stage : YieldsUnless
      (fun e => env.Raises e ∨ e = .stageAlreadyCompleted ∧ s.best.isSome = true) m
        (s.run env budget required) fun _ m' => m'.Orderly base n ∧ m.Extends m' :=
      h.runStage operations inside budget required s
    rcases run : (s.run env budget required).exec m with ⟨e' | s', m'⟩
    · rw [runStages_of_error run] at failed
      obtain rfl := Option.some.inj failed
      exact (stage.of_error run).imp_right fun h => ⟨h.1, s, List.mem_cons_self, h.2⟩
    · obtain ⟨orderly, extended⟩ := stage.of_exec run
      have inside' : m'.root < m'.groups.size :=
        extended.root ▸ Nat.lt_of_lt_of_le inside extended.size_le
      rw [runStages_of_ok run] at failed
      split at failed
      · cases failed
      · refine (ih orderly inside' (number + 1) failed).imp_right ?_
        rintro ⟨same, t, ht, done⟩
        exact ⟨same, t, List.mem_cons_of_mem s ht, done⟩

end Stages

omit operations

/-! ### Optimizations -/

/-- The memos that come from a plan: it is loaded, and then it may be optimized any number of
times. The environment may be another one each time. -/
inductive ComesFrom (plan : Plan K) : Memo K → Prop
  | loaded {env : Environment K} {m : Memo K} (made : Memo.ofPlan env plan = .ok m) :
      ComesFrom plan m
  | optimized {m : Memo K} (h : ComesFrom plan m) (env : Environment K) (budget : Nat)
      (required : PhysicalProperty) (stages : List (Stage K)) :
      ComesFrom plan (optimize env budget required stages m).memo

/-- An optimization keeps a memo in order. -/
theorem Orderly.staysOrderly_optimize (h : m.Orderly base n) (env : Environment K)
    (budget : Nat) (required : PhysicalProperty) (stages : List (Stage K)) :
    StaysOrderly base n m (optimize env budget required stages m).memo := by
  have reached : Reached env m (optimize env budget required stages m).memo :=
    reached_optimize budget required stages m
  exact reached.staysOrderly h

/-- The memos that come from a well-formed plan are in order. -/
theorem ComesFrom.exists_orderly {plan : Plan K} (wf : plan.WellFormed)
    (h : ComesFrom plan m) :
    ∃ n, m.Orderly plan.operators n ∧ m.root < m.groups.size := by
  induction h with
  | loaded made =>
    obtain ⟨n, orderly⟩ := exists_orderly_of_ofPlan wf made
    exact ⟨n, orderly, Coherent.root_lt_of_ofPlan made⟩
  | @optimized m _ env budget required stages ih =>
    obtain ⟨n, orderly, inside⟩ := ih
    obtain ⟨extended, orderly'⟩ := orderly.staysOrderly_optimize env budget required stages
    exact ⟨n, orderly', extended.root ▸ Nat.lt_of_lt_of_le inside extended.size_le⟩

/-- How an optimization can fail: as the outside world does, because one of its stages has been
completed before, or because no plan was found. -/
inductive Foreseen (env : Environment K) (m : Memo K) (required : PhysicalProperty)
    (stages : List (Stage K)) :
    OptError → Prop
  | raised {e : OptError} (h : env.Raises e) : Foreseen env m required stages e
  | completed {s : Stage K} (mem : s ∈ stages) (done : s.best.isSome = true) :
      Foreseen env m required stages .stageAlreadyCompleted
  | notFound : Foreseen env m required stages (.noPlanFound m.root required.toText)

/-- Whatever is required of a well-formed plan, with any stages, on what earlier optimizations
have left, an optimization only fails with an error that the outside world has raised, because
a stage is to be completed again, or because it has found no plan. -/
theorem foreseen_of_optimize {plan : Plan K} (wf : plan.WellFormed) (h : ComesFrom plan m)
    (env : Environment K) (budget : Nat) (required : PhysicalProperty)
    (stages : List (Stage K)) {e : OptError}
    (failed : (optimize env budget required stages m).result = .error e) :
    Foreseen env m required stages e := by
  obtain ⟨n, orderly, inside⟩ := h.exists_orderly wf
  have root : (runStages env budget required 0 stages m).memo.root = m.root := by
    rw [← memo_optimize]
    exact (orderly.staysOrderly_optimize env budget required stages).extended.root
  simp only [optimize] at failed
  split at failed
  · rename_i e' ended
    obtain rfl := Except.error.inj failed
    rcases orderly.raises_of_runStages wf.inputs_ne_nil inside 0 ended
      with raised | ⟨rfl, s, mem, done⟩
    · exact .raised raised
    · exact .completed mem done
  · split at failed
    · cases failed
    · obtain rfl := Except.error.inj failed
      rw [root]
      exact .notFound

open Sample in
/-- The host asks to stop in the second optimization. -/
theorem foreseen_of_optimize_sample :
    ∃ (m : Memo ℝ) (env : Environment ℝ), (rowsPlan (K := ℝ)).WellFormed ∧
    ComesFrom rowsPlan m ∧ (m.winner? m.root inOrder).isSome = true ∧
    (optimize env 5 inOrder Stage.defaults m).result = .error .cancelled ∧
      Foreseen env m inOrder Stage.defaults .cancelled := by
  obtain ⟨r, derived, -⟩ := exists_derived (K := ℝ)
  have made : Memo.ofPlan bareSetting rowsPlan = .ok (entered r) := ofPlan_rowsPlan derived
  have first :
      (optimize bareSetting 5 inOrder Stage.defaults (entered r)).memo = optimized r :=
    optimize_entered.2
  have once : ComesFrom rowsPlan (optimized r) :=
    first ▸ .optimized (.loaded made) bareSetting 5 inOrder Stage.defaults
  let stopped : Environment ℝ := { bareSetting with isCancelled := true }
  have failed : (optimize stopped 5 inOrder Stage.defaults (optimized r)).result =
    .error .cancelled := rfl
  exact ⟨optimized r, stopped, wellFormed_rowsPlan, once, rfl, failed,
    foreseen_of_optimize wellFormed_rowsPlan once stopped 5 inOrder Stage.defaults failed⟩

end Memo

end QueryOptimizer
