import QueryOptimizer.Proofs.Rule.Binding
import QueryOptimizer.Proofs.Rule.Soundness
import QueryOptimizer.Proofs.Search.Recording
import QueryOptimizer.Proofs.Search.States

/-!
# Memos that a search reaches

The tasks of a search change a memo in three ways: they keep books, they enter what a rule made
of a binding, and they put enforcers into groups. A relation between memos that holds for each
of these steps (`StepRelation`) holds for every task, and for every memo that a search can
reach, whichever rules are enabled and in whichever order the tasks are done. So every memo
that can be reached from a modelled one is modelled.

## Main results

* `Task.run_leads_steps`: a task leads to a related memo.
* `Memo.Reached.of_steps`: so does a whole search.
* `Memo.reached_optimize`: the memo at the end of an optimization has been reached.
* `Memo.stepRelation_continues`: a step leaves a modelled memo modelled.
* `Memo.Reached.later`: so does a whole search.
-/

namespace QueryOptimizer

variable {K : Type} [Quantity K] {env : Environment K} {m m' : Memo K}

/-- Whether a relation between memos holds for each step that a task can consist of. A memo
that is related to itself is one that the steps may start from. -/
structure StepRelation (env : Environment K) (R : Memo K → Memo K → Prop) : Prop extends
    IsTrans (Memo K) R where
  self : ∀ {m m'}, R m m' → R m' m'
  extended : ∀ {m m'}, R m m' → m.Extends m'
  like : ∀ {m m'}, R m m → m.Like m' → R m m'
  tree : ∀ {m} {id : ExprId} {rule : RuleId} {t t'}, R m m → id.group < m.groups.size →
    t.rootGroup = .ok id.group → m.Binds rule.pattern t → rule.apply m t = .ok (some t') →
    (Memo.insertTree env t' (some id.group)).Leads R m fun _ _ => True
  enforcer : ∀ {m} {op : PhysicalOperator} {group : GroupId}, R m m → op.isEnforcer = true →
    (Memo.insertKey env ⟨.physical op, [group]⟩ (some group)).Leads R m fun _ _ => True

/-- A relation that holds for each step of a task holds for what is recorded. -/
theorem StepRelation.records {R : Memo K → Memo K → Prop} (steps : StepRelation env R) :
    RecordRelation env R where
  toIsTrans := steps.toIsTrans
  self := steps.self
  offer h := steps.like h (.offer _ _ _ _)
  enforcer := steps.enforcer

namespace Task

open MemoM

variable {R : Memo K → Memo K → Prop} {id : ExprId} {group : GroupId}

omit [Quantity K] in
/-- Following up an expression takes the steps of a task. -/
theorem followUp_leads_steps (h : R m m) (r? : Option (Request K)) :
    (followUp id r?).Leads R m fun _ _ => True := by
  refine .get_bind (.lift_bind h fun e _ => ?_)
  split
  · exact .pure h trivial
  · split
    · exact .pure h trivial
    · exact .pure h trivial

section Steps

variable (steps : StepRelation env R)
include steps

/-! ### Rules -/

/-- Applying a rule to a binding takes the steps of a task. -/
theorem applyTo_leads_steps (h : R m m) {rule : RuleId} (r? : Option (Request K))
    {t : ExprTree} (inside : id.group < m.groups.size) (root : t.rootGroup = .ok id.group)
    (binds : m.Binds rule.pattern t) :
    (applyTo env rule id r? t).Leads R m fun _ _ => True := by
  have := steps.toIsTrans
  refine .get_bind (.lift_bind h fun made hmade => ?_)
  cases made with
  | none => exact .pure h trivial
  | some made =>
    refine (steps.tree h inside root binds hmade).bind fun ⟨place, isNew⟩ m' step _ => ?_
    dsimp only
    split
    · exact followUp_leads_steps (steps.self step) r?
    · exact .pure (steps.self step) trivial

/-- Applying a rule takes the steps of a task. -/
theorem applyingRule_leads_steps (h : R m m) (rule : RuleId) (r? : Option (Request K)) :
    (applyingRule env rule id r?).Leads R m fun _ _ => True := by
  have := steps.toIsTrans
  refine .get_bind (.lift_bind h fun e he => ?_)
  split
  · exact .pure h trivial
  · have each : ((m.bindings rule.pattern id).mapM (applyTo env rule id r?)).Leads R m
        fun tasks _ => List.Forall₂ (fun _ _ => True) (m.bindings rule.pattern id) tasks := by
      refine .mapM h (fun _ => steps.self) (fun _ _ _ _ _ _ => trivial) fun t ht m' step => ?_
      obtain ⟨root, binds⟩ := Memo.binds_of_mem_bindings he ht
      have inside : id.group < m.groups.size := Memo.lt_of_key? (Memo.key?_of_expr he)
      exact applyTo_leads_steps steps (steps.self step) r?
        (Nat.lt_of_lt_of_le inside (steps.extended step).size_le) root
        (binds.extends (steps.extended step))
    refine each.bind fun tasks m' step _ => ?_
    have marked :
        R m' (m'.modifyExpr id fun e => { e with applied := ⟨rule :: e.applied.ids⟩ }) :=
      steps.like (steps.self step) (.modifyExpr m' id fun _ => rfl)
    exact Leads.bind (.modify marked) fun _ m'' step' _ => .pure (steps.self step') trivial

/-! ### Tasks -/

/-- A task leads to a related memo. -/
theorem run_leads_steps (h : R m m) (rules : RuleSet) (t : Task K) :
    (t.run env rules).Leads R m fun _ _ => True := by
  have := steps.toIsTrans
  cases t with
  | optimizeGroup group r =>
    refine .get_bind (.lift_bind h fun g _ => ?_)
    split
    · exact .pure h trivial
    · exact .pure h trivial
  | exploreGroup group =>
    refine .get_bind (.lift_bind h fun g _ => ?_)
    split
    · exact .pure h trivial
    · have marked : R m (m.modifyGroup group ({ · with explored := true })) :=
        steps.like h (.modifyGroup m group (fun _ => rfl) (fun _ => rfl) fun _ _ => rfl)
      exact Leads.bind (.modify marked) fun _ m' step _ => .pure (steps.self step) trivial
  | optimizeExpr id r? =>
    refine .get_bind (.lift_bind h fun e _ => ?_)
    split
    · exact .throw h _
    · exact .pure h trivial
  | applyRule rule id r? => exact applyingRule_leads_steps steps h rule r?
  | optimizeInputs id r p =>
    exact (optimizingInputs_leads steps.records h r p).mono fun _ _ _ _ => trivial

end Steps

end Task

/-! ### Searches -/

namespace Memo

/-- The memos that a search on a memo can reach: tasks may be done in any order, with
any rules enabled, and a new search may begin at any time. A task that fails leaves
what it has changed. -/
inductive Reached (env : Environment K) (m : Memo K) : Memo K → Prop
  | start : Reached env m m
  | reset {m' : Memo K} : Reached env m m' → Reached env m m'.reset
  | task {m' : Memo K} (rules : RuleSet) (t : Task K) :
    Reached env m m' → Reached env m ((t.run env rules).exec m').2

/-- What holds for each step holds for a search. -/
theorem Reached.of_steps {R : Memo K → Memo K → Prop} (steps : StepRelation env R)
    (self : R m m) (h : Reached env m m') : R m m' := by
  have := steps.toIsTrans
  induction h with
  | start => exact self
  | reset _ ih => exact trans_of R ih (steps.like (steps.self ih) (.reset _))
  | task rules t _ ih =>
    exact trans_of R ih (Task.run_leads_steps steps (steps.self ih) rules t).1

/-- The memo in each state of a search has been reached. -/
theorem Searched.reached {m₀ : Memo K} {tasks : List (Task K)} (h : Searched env m₀ m tasks) :
    Reached env m₀ m := by
  induction h with
  | start => exact .start
  | stage _ _ ih => exact .reset ih
  | @task m _ _ _ _ t _ rules run ih | @failed m _ _ _ t _ _ rules run ih =>
    have step : Reached env m₀ ((t.run env rules).exec m).2 := ih.task rules t
    rwa [run] at step

/-- The memo at the end of an optimization has been reached from the one at its start. -/
theorem reached_optimize (budget : Nat) (required : PhysicalProperty) (stages : List (Stage K))
    (m : Memo K) : Reached env m (optimize env budget required stages m).memo := by
  obtain ⟨tasks, searched⟩ :
      ∃ tasks, Searched env m (optimize env budget required stages m).memo tasks :=
    searched_optimize budget required stages m
  exact searched.reached

end Memo

/-! ### Modelled memos

Each step of a task leaves a modelled memo modelled: keeping books, entering what a rule made
of a binding, and putting an enforcer into a group.
-/

section Modelled

variable {K : Type} [Quantity K] {env : Environment K} {I : Interpretation} {db : Database}
  {A : Analysis env I db} {m m' : Memo K} {μ μ' : GroupId → Meaning}

namespace Memo

/-- Whether a modelled memo has grown into one that goes on modelling what it modelled. -/
structure Continues (A : Analysis env I db) (m m' : Memo K) : Prop where
  modelled : ∃ μ, m.Models A μ
  later : ∀ μ, m.Models A μ → ∃ μ', Later A m μ m' μ'

/-- A memo with a model continues itself. -/
theorem Continues.refl (h : m.Models A μ) : Continues A m m :=
  ⟨⟨μ, h⟩, fun ν hν => ⟨ν, .refl hν⟩⟩

/-- A memo that continues another one extends it. -/
theorem Continues.extended (h : Continues A m m') : m.Extends m' := by
  obtain ⟨μ, models⟩ := h.modelled
  obtain ⟨μ', later⟩ := h.later μ models
  exact later.extended

/-- A memo that continues another one continues itself. -/
theorem Continues.self (h : Continues A m m') : Continues A m' m' := by
  obtain ⟨μ, models⟩ := h.modelled
  obtain ⟨μ', later⟩ := h.later μ models
  exact .refl later.models

instance : IsTrans (Memo K) (Continues A) where
  trans _ _ _ h h' := by
    refine ⟨h.modelled, fun μ models => ?_⟩
    obtain ⟨μ', later⟩ := h.later μ models
    obtain ⟨μ'', later'⟩ := h'.later μ' later.models
    exact ⟨μ'', later.trans later'⟩

/-- Putting an enforcer into a group. The memo stays as it is if the group does not exist. -/
theorem Models.insertEnforcer (h : m.Models A μ) (op : PhysicalOperator) (group : GroupId) :
    ∃ μ', Later A m μ
      ((Memo.insertKey env ⟨.physical op, [group]⟩ (some group)).exec m).2 μ' := by
  by_cases inside : group < m.groups.size
  · let key : ExprKey := ⟨.physical op, [group]⟩
    obtain ⟨models, extended, -⟩ :
      ((Memo.insertKey env key (some group)).exec m).2.Models A μ ∧
        m.Extends ((Memo.insertKey env key (some group)).exec m).2 ∧
        ∀ e, ((Memo.insertKey env key (some group)).exec m).1 = .error e →
          ((Memo.insertKey env key (some group)).exec m).2 = m :=
      h.insertKey (by simpa [key] using inside) fun op hop => by cases hop
    exact ⟨μ, models, extended, fun _ _ => rfl⟩
  · have outside : m.group group = .error (.outOfRange "group" group) := by
      simp [Memo.group, Nat.le_of_not_lt inside]
    have failed : m.addExpr group ⟨.physical op, [group]⟩ =
        .error (.outOfRange "group" group) := by
      simp only [Memo.addExpr, outside]
      rfl
    rw [exec_insertKey_some, failed]
    split
    · exact ⟨μ, .refl h⟩
    · exact ⟨μ, .refl h⟩

/-- Each step of a task leaves a modelled memo modelled. -/
theorem stepRelation_continues (A : Analysis env I db) : StepRelation env (Continues A) where
  self := Continues.self
  extended := Continues.extended
  like h like := ⟨h.modelled, fun μ models =>
    ⟨μ, models.like like, .ofLike like, fun _ _ => rfl⟩⟩
  tree h inside root binds made := by
    refine ⟨⟨h.modelled, fun μ models => ?_⟩, fun _ _ => trivial⟩
    obtain ⟨op, inputs, rfl, below, logical⟩ := RuleId.apply_replaces models root binds made
    exact models.insertTree inside below logical
  enforcer h _ := ⟨⟨h.modelled, fun μ models => models.insertEnforcer _ _⟩, fun _ _ => trivial⟩

/-- A search leaves a modelled memo modelled, and only adds to it. -/
theorem Reached.later (h : m.Models A μ) (reached : Reached env m m') :
    ∃ μ', Later A m μ m' μ' :=
  (reached.of_steps (stepRelation_continues A) (.refl h)).later μ h

end Memo

end Modelled

end QueryOptimizer
