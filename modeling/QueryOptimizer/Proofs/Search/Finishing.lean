import QueryOptimizer.Proofs.Search.Implementation
import QueryOptimizer.Proofs.Search.Termination

/-!
# Schedules that finish

The tasks that a task names come before all that were waiting. So a schedule that finishes can
be taken apart: the tasks in front are done, with everything that follows from them, before the
others begin (`Memo.Finishes.append`). On a memo that is prepared for it no ready task fails,
and then the schedule does finish.

While other tasks are done, a rule that is left to apply to an expression stays so, unless one
of them leads there. Tasks that are about groups of lower rank or about other expressions of
the group are away from it (`Task.Away`).

## Main results

* `Memo.Finishes.append`: a schedule that finishes does one part of its tasks after the other.
* `Memo.Prepared.exists_finishes`: a schedule of ready tasks finishes if the
  budget is large enough.
* `Memo.Finishes.pending`: tasks that are away from the application of a rule
  leave it to be done.
-/

namespace QueryOptimizer

variable {K : Type} {m m' m'' : Memo K} {base : List LogicalOperator} {n : Nat}

/-- A schedule without a time limit does not depend on how much has been done before. -/
theorem schedule_executed [Quantity K] (env : Environment K) (rules : RuleSet)
    (budget executed : Nat) (tasks : List (Task K)) :
    schedule env rules none budget executed tasks =
      schedule env rules none budget 0 tasks := by
  induction budget generalizing executed tasks with
  | zero => cases tasks <;> rfl
  | succ budget ih =>
    cases tasks with
    | nil => rfl
    | cons t waiting =>
      simp only [schedule, Environment.isTimeUp, Option.any_none,
        ih (executed + 1), ih (0 + 1)]

namespace Memo

/-! ### Schedules in parts -/

section Finishes

variable [Quantity K] {env : Environment K} {rules : RuleSet} {budget : Nat}
  {t : Task K} {ts us waiting : List (Task K)}

/-- Whether a schedule without a time limit finishes within a budget and leaves
another memo. -/
def Finishes (env : Environment K) (rules : RuleSet) (budget : Nat) (m : Memo K)
    (tasks : List (Task K)) (m' : Memo K) : Prop :=
  (schedule env rules none budget 0 tasks).exec m = (.ok .finished, m')

/-- Without tasks a schedule has finished. -/
theorem finishes_nil : Finishes env rules budget m [] m' ↔ m' = m := by
  cases budget <;> exact ⟨fun h => (congrArg Prod.snd h).symm, fun same => same ▸ rfl⟩

section Parts

variable (going : env.isCancelled = false)
include going

/-- The first task is done, and then the tasks that it names before those that were waiting. -/
theorem finishes_cons : Finishes env rules (budget + 1) m (t :: waiting) m' ↔
    ∃ next m₁, (t.run env rules).exec m = (.ok next, m₁) ∧
      Finishes env rules budget m₁ (next ++ waiting) m' := by
  rcases run : (t.run env rules).exec m with ⟨e | next, m₁⟩
  · rw [Finishes, exec_schedule_of_error going rfl run]
    exact ⟨fun h => (by cases h), fun ⟨_, _, h, _⟩ => (by cases h)⟩
  · rw [Finishes, exec_schedule_of_ok going rfl run, schedule_executed]
    exact ⟨fun h => ⟨next, m₁, rfl, h⟩, fun ⟨_, _, h, h'⟩ => (by cases h; exact h')⟩

/-- Induction on a schedule, task after task. -/
theorem Finishes.induction {motive : ∀ budget m ts, Finishes env rules budget m ts m' → Prop}
    (nil : ∀ budget, motive budget m' [] (finishes_nil.2 rfl))
    (cons : ∀ {budget m m₁ t waiting next} (run : (t.run env rules).exec m = (.ok next, m₁))
      (h : Finishes env rules budget m₁ (next ++ waiting) m'),
      motive budget m₁ (next ++ waiting) h →
      motive (budget + 1) m (t :: waiting) ((finishes_cons going).2 ⟨next, m₁, run, h⟩))
    {budget : Nat} {m : Memo K} {ts : List (Task K)} (h : Finishes env rules budget m ts m') :
    motive budget m ts h := by
  induction budget generalizing m ts with
  | zero =>
    cases ts with
    | nil =>
      obtain rfl := finishes_nil.1 h
      exact nil 0
    | cons t waiting => cases h
  | succ budget ih =>
    cases ts with
    | nil =>
      obtain rfl := finishes_nil.1 h
      exact nil (budget + 1)
    | cons t waiting =>
      obtain ⟨next, m₁, run, h⟩ := (finishes_cons going).1 h
      exact cons run h (ih h)

/-- What comes first is done before the others begin. -/
theorem Finishes.append (h : Finishes env rules budget m (ts ++ us) m'') :
    ∃ first ≤ budget, ∃ second ≤ budget, ∃ m',
      Finishes env rules first m ts m' ∧ Finishes env rules second m' us m'' := by
  generalize all : ts ++ us = tasks at h
  induction h using Finishes.induction going generalizing ts with
  | nil budget =>
    obtain ⟨rfl, rfl⟩ := List.append_eq_nil_iff.1 all
    exact ⟨0, Nat.zero_le _, 0, Nat.zero_le _, _, finishes_nil.2 rfl, finishes_nil.2 rfl⟩
  | @cons budget m m₁ t waiting next run h ih =>
    cases ts with
    | nil =>
      obtain rfl : us = t :: waiting := all
      exact ⟨0, Nat.zero_le _, budget + 1, le_rfl, m, finishes_nil.2 rfl,
        (finishes_cons going).2 ⟨next, m₁, run, h⟩⟩
    | cons t' ts =>
      obtain ⟨rfl, rfl⟩ := List.cons.inj all
      obtain ⟨first, le, second, le', m', done, later⟩ := ih (List.append_assoc ..)
      exact ⟨first + 1, Nat.succ_le_succ le, second, Nat.le_succ_of_le le', m',
        (finishes_cons going).2 ⟨next, m₁, run, done⟩, later⟩

/-- More budget changes nothing. -/
theorem Finishes.mono (h : Finishes env rules budget m ts m') {more : Nat}
    (le : budget ≤ more) :
    Finishes env rules more m ts m' := by
  induction h using Finishes.induction going generalizing more with
  | nil => exact finishes_nil.2 rfl
  | @cons budget m m₁ t waiting next run h ih =>
    obtain ⟨more, rfl⟩ : ∃ rest, more = rest + 1 := ⟨more - 1, by omega⟩
    exact (finishes_cons going).2 ⟨next, m₁, run, ih (Nat.le_of_succ_le_succ le)⟩

end Parts

end Finishes

/-! ### Prepared memos -/

/-- A memo on which no ready task fails, whatever has been searched before. -/
structure Prepared (base : List LogicalOperator) (n : Nat) (m : Memo K) : Prop extends
    m.Ranked base n where
  implemented : m.Implemented

/-- A prepared memo stays so when it is reset. -/
theorem Prepared.reset (h : m.Prepared base n) : m.reset.Prepared base n :=
  ⟨h.toRanked.like (.reset m),
    h.implemented.settled (.ofLike (.reset m) fun place _ => marks_reset m place)⟩

section Prepared

variable [Quantity K] {env : Environment K} (answers : env.catalog.Answers)
  (going : env.isCancelled = false)
  (operations : ∀ s ∈ base.flatMap LogicalOperator.operations, s.inputs ≠ [])
include answers going operations

variable {rules : RuleSet} {budget : Nat} {t : Task K} {tasks next : List (Task K)}

/-- What a task leaves is prepared, and it has all winners. -/
theorem Prepared.of_run (h : m.Prepared base n) (ready : t.Ready m)
    (run : (t.run env rules).exec m = (.ok next, m')) :
    m'.Prepared base n ∧ m.Remembers m' ∧ ∀ t ∈ next, t.Ready m' := by
  have reached : Reached env m ((t.run env rules).exec m).2 := .task rules t .start
  obtain ⟨remembers, -⟩ := Task.run_leads_remembers env h.toFiled rules t
  rw [run] at reached remembers
  have follow :=
    (t.run_yields_ready answers going operations h.toRanked rules ready).of_exec run
  exact ⟨⟨reached.ranked h.toRanked,
    Task.implemented_of_run answers going operations h.implemented h.toRanked ready run⟩,
      remembers, follow⟩

/-- Tasks that are ready do not fail, so their schedule finishes if the budget
is large enough. -/
theorem Prepared.exists_finishes (h : m.Prepared base n) (rules : RuleSet)
    (ready : ∀ t ∈ tasks, t.Ready m) :
    ∃ spent m', ∀ budget ≥ spent, Finishes env rules budget m tasks m' := by
  have noError (budget : Nat) : ((schedule env rules none budget 0 tasks).exec m).1.isOk := by
    induction budget generalizing m tasks with
    | zero => cases tasks <;> rfl
    | succ budget ih =>
      cases tasks with
      | nil => rfl
      | cons t waiting =>
        obtain ⟨first, others⟩ := List.forall_mem_cons.1 ready
        obtain ⟨next, m₁, run, follow⟩ :=
          t.run_yields_ready answers going operations h.toRanked rules first
        obtain ⟨prepared, remembers, -⟩ := h.of_run answers going operations first run
        rw [exec_schedule_of_ok going rfl run, schedule_executed]
        exact ih prepared (List.forall_mem_append.2 ⟨follow,
          fun t ht => (others t ht).extends remembers.extended⟩)
  obtain ⟨spent, ⟨stop, m'⟩, finished, ends⟩ := h.toRanked.exists_schedule env rules tasks
  refine ⟨spent, m', fun budget le => ?_⟩
  have ok := noError budget
  rw [ends budget le 0] at ok
  cases stop with
  | error e => cases ok
  | ok stop => rw [Finishes, ends budget le 0, finished stop rfl]

/-- What ready tasks leave is prepared, and it has all winners. -/
theorem Finishes.prepared (h : Finishes env rules budget m tasks m')
    (prepared : m.Prepared base n) (ready : ∀ t ∈ tasks, t.Ready m) :
    m'.Prepared base n ∧ m.Remembers m' := by
  induction h using Finishes.induction going with
  | nil => exact ⟨prepared, .refl prepared.toFiled⟩
  | cons run h ih =>
    obtain ⟨first, others⟩ := List.forall_mem_cons.1 ready
    obtain ⟨prepared, remembers, follow⟩ := prepared.of_run answers going operations first run
    obtain ⟨prepared, later⟩ := ih prepared (List.forall_mem_append.2 ⟨follow,
      fun t ht => (others t ht).extends remembers.extended⟩)
    exact ⟨prepared, trans_of Remembers remembers later⟩

end Prepared

end Memo

/-! ### Tasks away from the application of a rule -/

namespace Task

open Memo

/-- Whether a task cannot lead to the application of a rule to an expression. It is about a
group of lower rank, or about another expression of the group, or it applies another rule. -/
inductive Away (m : Memo K) (p : ExprId × RuleId) : Task K → Prop
  | below {t : Task K} (lower : m.rank t.group < m.rank p.1.group) : Away m p t
  | inputs {id : ExprId} (here : id.group = p.1.group)
      (plain : m.isPlain id = true) (r : Request K) (progress : Progress K) :
      Away m p (optimizeInputs id r progress)
  | expr {id : ExprId} (here : id.group = p.1.group) (other : id ≠ p.1)
      (r? : Option (Request K)) :
      Away m p (optimizeExpr id r?)
  | rule {id : ExprId} {rule : RuleId} (here : id.group = p.1.group) (other : (id, rule) ≠ p)
      (r? : Option (Request K)) : Away m p (applyRule rule id r?)

variable {t : Task K} {p : ExprId × RuleId}

/-- A task that is ready is for a group of the memo. -/
theorem Ready.inside (h : t.Ready m) : t.group < m.groups.size := by
  cases t with
  | optimizeGroup | exploreGroup => exact h
  | optimizeExpr | applyRule | optimizeInputs =>
    obtain ⟨_, _, hk, -⟩ := h
    exact lt_of_key? hk

/-- A task that stays away from a rule goes on doing so. -/
theorem Away.later (h : t.Away m p) (ranked : m.Ranked base n) (ready : t.Ready m)
    (stored : m.key? p.1 ≠ none) (extended : m.Extends m') : t.Away m' p := by
  obtain ⟨k, hk⟩ := Option.ne_none_iff_exists'.1 stored
  cases h with
  | below lower =>
    refine .below ?_
    rwa [ranked.rank_extends extended ready.inside,
      ranked.rank_extends extended (lt_of_key? hk)]
  | inputs here plain r progress =>
    obtain ⟨_, _, hk, -⟩ := ready
    refine .inputs here ?_ r progress
    rwa [isPlain, extended.key _ _ hk, ← hk]
  | expr here other r? => exact .expr here other r?
  | rule here other r? => exact .rule here other r?

section Run

variable [Quantity K] {env : Environment K} (answers : env.catalog.Answers)
  (going : env.isCancelled = false)
  (operations : ∀ s ∈ base.flatMap LogicalOperator.operations, s.inputs ≠ [])
include answers going operations

variable {rules : RuleSet} {budget : Nat} {tasks next : List (Task K)}

/-- What follows from a task is not about groups of higher rank. -/
theorem rank_le_of_run (h : m.Ranked base n) (ready : t.Ready m)
    (run : (t.run env rules).exec m = (.ok next, m')) :
    ∀ t' ∈ next, m'.rank t'.group ≤ m'.rank t.group := by
  by_cases applies : ∃ rule id r?, t = applyRule rule id r?
  swap
  · obtain ⟨-, lower⟩ :=
      settled_of_run h run fun rule id r? same => applies ⟨rule, id, r?, same⟩
    intro t' mem
    rcases Prod.Lex.lt_iff.1 (lower t' mem) with lt | ⟨same, -⟩
    · exact le_of_lt lt
    · exact le_of_eq same
  obtain ⟨rule, id, r?, rfl⟩ := applies
  obtain ⟨op, ids, hk, -⟩ := ready
  have run : (applyingRule env rule id r?).exec m = (.ok next, m') := run
  rcases (applyingRule_yields answers going operations h hk rule r?).of_exec run with
    ⟨-, -, rfl⟩ | ⟨-, -, new⟩
  · simp
  · intro t' mem
    cases new t' mem with
    | logical here | physical here => exact le_of_eq (congrArg m'.rank here)

/-- A rule is left to apply until it is applied. -/
theorem pending_of_run (h : m.Ranked base n) (ready : t.Ready m) (pending : m.Pending p)
    (other : ∀ r?, t ≠ applyRule p.2 p.1 r?)
    (run : (t.run env rules).exec m = (.ok next, m')) :
    m'.Pending p := by
  by_cases applies : ∃ rule id r?, t = applyRule rule id r?
  swap
  · obtain ⟨settled, -⟩ :=
      settled_of_run h run fun rule id r? same => applies ⟨rule, id, r?, same⟩
    exact (settled.pending p).2 pending
  obtain ⟨rule, id, r?, rfl⟩ := applies
  obtain ⟨op, ids, hk, -⟩ := ready
  have run : (applyingRule env rule id r?).exec m = (.ok next, m') := run
  rcases (applyingRule_yields answers going operations h hk rule r?).of_exec run with
    ⟨-, rfl, -⟩ | ⟨-, ⟨m₁, enters, rfl⟩, -⟩
  · exact pending
  · refine ⟨pending.1.extends
      (enters.extended.trans (.ofLike (.modifyExpr m₁ id fun _ => rfl))), fun mark => ?_⟩
    rcases (enters.mem_marks hk).1 mark with old | ⟨same, same'⟩
    · exact pending.2 old
    · exact other r? (by rw [same, same'])

/-- A rule that is left to apply stays so if a task is away from that, and so are
the tasks that follow. -/
theorem Away.run (h : t.Away m p) (prepared : m.Prepared base n) (ready : t.Ready m)
    (pending : m.Pending p) (run : (t.run env rules).exec m = (.ok next, m')) :
    m'.Pending p ∧ ∀ t' ∈ next, t'.Away m' p := by
  have ranked := prepared.toRanked
  obtain ⟨prepared', remembers, -⟩ := prepared.of_run answers going operations ready run
  have ranked' := prepared'.toRanked
  refine ⟨pending_of_run answers going operations ranked ready pending
    (fun r? same => ?_) run, ?_⟩
  · subst same
    cases h with
    | below lower => exact lt_irrefl _ lower
    | rule _ other => exact other rfl
  obtain ⟨⟨op, ids, hp, -⟩, -⟩ := pending
  -- The inputs of an expression of the group rank lower than the group.
  have lower {id : ExprId} {k : ExprKey} (here : id.group = p.1.group)
      (hk : m'.key? id = some k) (plain : k.operator.isEnforcer = false) {i : GroupId}
      (mem : i ∈ k.inputs) :
      m'.rank i < m'.rank p.1.group := here ▸ ranked'.descends hk plain i mem
  cases h with
  | below lower =>
    have before := ranked.rank_extends remembers.extended ready.inside
    have after := ranked.rank_extends remembers.extended (lt_of_key? hp)
    intro t' mem
    have le := rank_le_of_run answers going operations ranked ready run t' mem
    exact .below (lt_of_le_of_lt le (before.symm ▸ after.symm ▸ lower))
  | @inputs id here plain r progress =>
    have run : (optimizingInputs env id r progress).exec m = (.ok next, m') := run
    have leads : (optimizingInputs env id r progress).Leads Settled m fun next m' =>
        ∀ t ∈ next, m'.Follows id progress t :=
          optimizingInputs_leads recordRelation_settled (.refl m) r progress
    obtain ⟨-, follows⟩ := leads
    rw [run] at follows
    obtain ⟨op', ids', hk, -⟩ := ready
    have notEnforcer : op'.isEnforcer = false := by
      simpa [isPlain, hk, Operator.isEnforcer] using plain
    intro t' mem
    cases follows next rfl t' mem with
    | input known mem =>
      obtain rfl := Option.some.inj ((remembers.extended.key _ _ hk).symm.trans known)
      exact .below (lower here known notEnforcer mem)
    | later r' lt =>
      refine .inputs here ?_ r' _
      rw [isPlain, remembers.extended.key _ _ hk, ← hk]
      exact plain
  | @expr id here other r? =>
    obtain ⟨op', ids', hk, -⟩ := ready
    obtain ⟨e, he, same⟩ := exists_expr_of_key? hk
    have kind : e.operator = .logical op' := congrArg ExprKey.operator same
    have run : (optimizingExpr rules id r?).exec m = (.ok next, m') := run
    rw [exec_optimizingExpr he kind] at run
    cases run
    intro t' mem
    rcases List.mem_append.1 mem with mem | mem
    · obtain ⟨i, hi, rfl⟩ := List.mem_map.1 mem
      have notEnforcer : e.toExprKey.operator.isEnforcer = false := by rw [kind]; rfl
      exact .below (lower here (key?_of_expr he) notEnforcer (List.mem_reverse.1 hi))
    · obtain ⟨rule, -, rfl⟩ := List.mem_map.1 mem
      exact .rule here (fun same => other (congrArg Prod.fst same)) r?
  | @rule id rule here other r? =>
    obtain ⟨op, ids, hk, -⟩ := ready
    have run : (applyingRule env rule id r?).exec m = (.ok next, m') := run
    rcases (applyingRule_yields answers going operations ranked hk rule r?).of_exec run with
      ⟨-, -, rfl⟩ | ⟨-, -, new⟩
    · simp
    · intro t' mem
      cases new t' mem with
      | logical same notThere hk' r? =>
        refine .expr (same.trans here) (fun same => ?_) r?
        rw [same, hp] at notThere
        cases notThere
      | physical same notThere hk' plain r =>
        exact .inputs (same.trans here)
          (by simp [isPlain, hk', Operator.isEnforcer, plain]) r .start

end Run

end Task

/-- While tasks are done that are away from the application of a rule, it is
left to be done. -/
theorem Memo.Finishes.pending [Quantity K] {env : Environment K}
    (answers : env.catalog.Answers) (going : env.isCancelled = false)
    (operations : ∀ s ∈ base.flatMap LogicalOperator.operations, s.inputs ≠ [])
    {rules : RuleSet} {budget : Nat} {tasks : List (Task K)}
    (h : Finishes env rules budget m tasks m') (prepared : m.Prepared base n)
    {p : ExprId × RuleId} (pending : m.Pending p) (ready : ∀ t ∈ tasks, t.Ready m)
    (away : ∀ t ∈ tasks, t.Away m p) : m'.Pending p := by
  induction h using Finishes.induction going with
  | nil => exact pending
  | @cons _ m m₁ t waiting next run h ih =>
    obtain ⟨first, others⟩ := List.forall_mem_cons.1 ready
    obtain ⟨firstAway, othersAway⟩ := List.forall_mem_cons.1 away
    obtain ⟨prepared', remembers, follow⟩ := prepared.of_run answers going operations first run
    obtain ⟨pending', followAway⟩ :=
      firstAway.run answers going operations prepared first pending run
    obtain ⟨⟨op, ids, hp, -⟩, -⟩ := pending
    have stored : m.key? p.1 ≠ none := by rw [hp]; exact Option.some_ne_none _
    refine ih prepared' pending' (List.forall_mem_append.2 ⟨follow, fun t ht =>
      (others t ht).extends remembers.extended⟩)
        (List.forall_mem_append.2 ⟨followAway, fun t ht => ?_⟩)
    exact (othersAway t ht).later prepared.toRanked (others t ht) stored remembers.extended

end QueryOptimizer
