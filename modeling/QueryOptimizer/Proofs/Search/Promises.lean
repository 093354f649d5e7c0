import QueryOptimizer.Proofs.Search.Finishing
import QueryOptimizer.Proofs.Search.Spending

/-!
# Tasks that find a winner

A task promises a winner for a property of a group if it is certain to find one unless there is
one already. Optimizing the group without a bound does, because the logical expression that the
group began with has been implemented or will be. So does the application of the rule that
implements it, and the optimization of a physical expression that has an alternative left whose
inputs can all be had.

An alternative is dropped when an input has no winner, or when it costs more than the bound
allows. The bound stays away until there is a winner, as long as the costs that the search adds
up are finite (`Memo.FiniteCosts`). So the inputs are optimized without a bound as well, and
those of a feasible alternative promise winners in turn.

Another task may use up the rule before the task that was going to apply it. None that comes
earlier does, for those are away from it (`Memo.Finishes.pending`).

## Main results

* `Memo.Reliable.of_run`: a task leaves a memo on which no task fails, and all
  costs accounted for.
* `Task.fulfills`: tasks keep their promises.
-/

namespace QueryOptimizer

variable {K : Type} {m m' : Memo K} {base : List LogicalOperator} {n : Nat}

/-! ### Without a bound -/

namespace CostBound

variable [Quantity K] {cost : K}

/-- Paying a finite cost leaves no bound. -/
theorem less_unlimited (finite : Quantity.isFinite cost = true) :
    unlimited.less cost = unlimited := by
  simp only [less, unlimited, isAffordable, finite, Bool.true_or, if_true]

/-- Every number is within no bound. -/
theorem admits_unlimited (number : (cost == cost) = true) : unlimited.admits cost = true :=
  number

end CostBound

/-! ### Memos on which no task fails -/

namespace Memo

/-- A memo in the middle of a search on which no task fails, with tasks that are waiting. The
costs of winners and of tasks are accounted for. -/
structure Reliable [Quantity K] (env : Environment K) (base : List LogicalOperator) (n : Nat)
    (m : Memo K) (tasks : List (Task K)) : Prop extends m.Underway base n tasks where
  implemented : m.Implemented
  accounted : m.Accounted env
  spent : ∀ t ∈ tasks, t.Accounted env m

section Reliable

variable [Quantity K] {env : Environment K} {t : Task K} {ts us waiting next : List (Task K)}

/-- A memo that is reliable is prepared. -/
theorem Reliable.prepared (h : m.Reliable env base n ts) : m.Prepared base n :=
  ⟨h.orderly.toRanked, h.implemented⟩

/-- The tasks of a memo that is reliable are ready. -/
theorem Reliable.ready (h : m.Reliable env base n ts) : ∀ t ∈ ts, t.Ready m :=
  fun t ht => (h.waiting t ht).1

/-- Fewer tasks may be waiting. -/
theorem Reliable.of_subset (h : m.Reliable env base n us) (fewer : ts ⊆ us) :
    m.Reliable env base n ts where
  orderly := h.orderly
  delivering := h.delivering
  founded := h.founded
  waiting t ht := h.waiting t (fewer ht)
  implemented := h.implemented
  accounted := h.accounted
  spent t ht := h.spent t (fewer ht)

/-- A stage begins without winners, with the task to optimize the root. -/
theorem Orderly.reliable_reset (h : m.Orderly base n) (implemented : m.Implemented)
    (inside : m.root < m.groups.size) (required : PhysicalProperty) :
    m.reset.Reliable env base n [.optimizeGroup m.root ⟨required, .unlimited⟩] where
  toUnderway := h.underway_reset inside required
  implemented := (Prepared.reset ⟨h.toRanked, implemented⟩).implemented
  accounted := .of_empty (h.toFiled.like (.reset m)) (winners_reset m)
  spent := List.forall_mem_singleton.2 trivial

variable [OrderedQuantity K] (answers : env.catalog.Answers) (going : env.isCancelled = false)
  (operations : ∀ s ∈ base.flatMap LogicalOperator.operations, s.inputs ≠ [])
include answers going operations

variable {rules : RuleSet} {budget : Nat}

/-- After a task the tasks that it names are waiting in its place. No winner is lost. -/
theorem Reliable.of_run (h : m.Reliable env base n (t :: waiting))
    (run : (t.run env rules).exec m = (.ok next, m')) :
    m'.Reliable env base n (next ++ waiting) ∧ m.Remembers m' := by
  obtain ⟨ready, -, supplied⟩ := h.waiting t List.mem_cons_self
  obtain ⟨first, others⟩ := List.forall_mem_cons.1 h.spent
  obtain ⟨prepared, remembers, -⟩ := h.prepared.of_run answers going operations ready run
  have anything : env.AnswersUnless fun _ => True :=
    ⟨⟨fun _ _ _ _ _ => trivial, fun _ _ _ => trivial⟩, fun _ => trivial⟩
  obtain ⟨underway, -⟩ := (h.toUnderway.run anything operations rules).of_exec run
  obtain ⟨accounts, follow⟩ := t.run_leads_accounts h.accounted rules supplied first
  rw [run] at accounts follow
  refine ⟨⟨underway, prepared.implemented, accounts.accounted, List.forall_mem_append.2
    ⟨follow next rfl, fun t ht => (others t ht).extends remembers.extended⟩⟩, remembers⟩

/-- When tasks are done the others are still waiting. No winner is lost. -/
theorem Finishes.reliable (h : Finishes env rules budget m ts m')
    (reliable : m.Reliable env base n (ts ++ us)) :
    m'.Reliable env base n us ∧ m.Remembers m' := by
  induction h using Finishes.induction going with
  | nil => exact ⟨reliable, .refl reliable.orderly.toFiled⟩
  | @cons _ m m₁ t waiting next run h ih =>
    obtain ⟨after, remembers⟩ := reliable.of_run answers going operations run
    have after : m₁.Reliable env base n (next ++ (waiting ++ us)) := after
    rw [← List.append_assoc] at after
    obtain ⟨others, later⟩ := ih after
    exact ⟨others, trans_of Remembers remembers later⟩

end Reliable

end Memo

/-! ### Promises -/

/-- Whether an optimization over some inputs still goes through an alternative all of
whose inputs can be had. -/
def Progress.Promises (m : Memo K) (ids : List GroupId) : Progress K → Prop
  | start | complete .. => True
  | before a rest _ _ => ∃ b ∈ a :: rest, b.Feasible
  | after a rest input _ =>
    (a.Feasible ∧ ∃ i p, ids[input]? = some i ∧ a.requires[input]? = some p ∧
      (m.winner? i p).isSome) ∨ ∃ b ∈ rest, b.Feasible

namespace Task

/-- Whether a task is certain to find a winner for a property of a group, without a bound. -/
inductive Promises (m : Memo K) (group : GroupId) (p : PhysicalProperty) : Task K → Prop
  | group : Promises m group p (optimizeGroup group ⟨p, .unlimited⟩)
  | expr {id : ExprId} {op : LogicalOperator} {ids : List GroupId} (here : id.group = group)
      (hk : m.key? id = some ⟨.logical op, ids⟩) (unmarked : op.implementer ∉ m.marks id) :
      Promises m group p (optimizeExpr id (some ⟨p, .unlimited⟩))
  | rule {id : ExprId} {op : LogicalOperator} {op' : PhysicalOperator} {ids : List GroupId}
      {rule : RuleId} (here : id.group = group) (hk : m.key? id = some ⟨.logical op, ids⟩)
      (implements : rule.Implements op op') (unmarked : rule ∉ m.marks id) :
      Promises m group p (applyRule rule id (some ⟨p, .unlimited⟩))
  | inputs {id : ExprId} {op : PhysicalOperator} {ids : List GroupId} {progress : Progress K}
      (here : id.group = group) (hk : m.key? id = some ⟨.physical op, ids⟩)
      (plain : op.isEnforcer = false) (promises : progress.Promises m ids) :
      Promises m group p (optimizeInputs id ⟨p, .unlimited⟩ progress)

open Memo MemoM

/-- Whether tasks keep their promises that are done within a budget, as long as
costs are finite. -/
def Fulfills [Quantity K] (env : Environment K) (rules : RuleSet) (base : List LogicalOperator)
    (n : Nat) (budget : Nat) : Prop :=
  ∀ {m m' : Memo K} {t : Task K} {group : GroupId} {p : PhysicalProperty},
    m.Reliable env base n [t] → p.Feasible → t.Promises m group p →
      Finishes env rules budget m [t] m' → m'.FiniteCosts env → (m'.winner? group p).isSome

/-- Whether there is a winner, or one of the tasks that follow will promise it
when its turn comes. -/
def Passes [Quantity K] (env : Environment K) (rules : RuleSet) (budget : Nat) (m : Memo K)
    (group : GroupId) (p : PhysicalProperty) (next : List (Task K)) : Prop :=
  (m.winner? group p).isSome ∨ ∃ before t after, next = before ++ t :: after ∧
    ∀ budget' ≤ budget, ∀ m', Finishes env rules budget' m before m' → m.Remembers m' →
      m'.FiniteCosts env → t.Promises m' group p

/-- Every rule is tried. -/
theorem mem_trialOrder (r : RuleId) : r ∈ trialOrder :=
  List.mem_reverse.2 ((List.mergeSort_perm _ _).mem_iff.2 r.mem_all)

section Steps

variable [Quantity K] {env : Environment K} {rules : RuleSet} {budget : Nat} {group : GroupId}
  {p : PhysicalProperty} {next : List (Task K)}

/-- A task that promises a winner passes the promise on. -/
theorem Passes.single {t : Task K} (promises : t.Promises m group p) :
    Passes env rules budget m group p [t] := by
  refine .inr ⟨[], t, [], rfl, fun budget' _ m' done _ _ => ?_⟩
  obtain rfl := finishes_nil.1 done
  exact promises

section Catalog

variable (answers : env.catalog.Answers) (going : env.isCancelled = false)
  (operations : ∀ s ∈ base.flatMap LogicalOperator.operations, s.inputs ≠ [])
include answers going operations

/-- If the tasks that follow keep their promises, there is a winner in the end. -/
theorem Passes.isSome_winner? [OrderedQuantity K]
    (passes : Passes env rules budget m group p next)
    (fulfills : ∀ budget' ≤ budget, Fulfills env rules base n budget')
    (h : Finishes env rules budget m next m') (reliable : m.Reliable env base n next)
    (feasible : p.Feasible) (finite : m'.FiniteCosts env) : (m'.winner? group p).isSome := by
  rcases passes with won | ⟨before, t, after, rfl, promises⟩
  · rw [← List.append_nil next] at reliable
    exact (h.reliable answers going operations reliable).2.won won
  obtain ⟨spent, le, rest, le', m₁, done, h⟩ := h.append going
  obtain ⟨reliable₁, remembers⟩ := done.reliable answers going operations reliable
  have h : Finishes env rules rest m₁ ([t] ++ after) m' := h
  obtain ⟨rest', le'', _, -, m₂, found, h⟩ := h.append going
  have reliable₁ : m₁.Reliable env base n ([t] ++ after) := reliable₁
  obtain ⟨reliable₂, remembers₁⟩ := found.reliable answers going operations reliable₁
  rw [← List.append_nil after] at reliable₂
  obtain ⟨-, remembers₂⟩ := h.reliable answers going operations reliable₂
  have finite₂ : m₂.FiniteCosts env := finite.of_extends remembers₂.extended
  have finite₁ : m₁.FiniteCosts env := finite₂.of_extends remembers₁.extended
  have first : m₁.Reliable env base n [t] := reliable₁.of_subset (by simp)
  exact remembers₂.won (fulfills rest' (le''.trans le') first feasible
    (promises spent le m₁ done remembers finite₁) found finite₂)

/-! ### Logical expressions -/

/-- One of the tasks that follow promises to apply a rule when its turn comes, if the others
are away from that. -/
theorem Passes.of_away (prepared : m.Prepared base n) {q : ExprId × RuleId}
    (pending : m.Pending q) (ready : ∀ t ∈ next, t.Ready m) {t : Task K} (mem : t ∈ next)
    (away : ∀ t' ∈ next, t' ≠ t → t'.Away m q)
    (promises : ∀ {m' : Memo K}, m.Extends m' → m'.Pending q → t.Promises m' group p) :
    Passes env rules budget m group p next := by
  obtain ⟨before, after, rfl, notBefore⟩ := List.eq_append_cons_of_mem mem
  refine .inr
    ⟨before, t, after, rfl, fun _ _ _ done remembers _ => promises remembers.extended ?_⟩
  refine done.pending answers going operations prepared pending
    (fun t' earlier => ready t' (List.mem_append_left _ earlier)) fun t' earlier => ?_
  refine away t' (List.mem_append_left _ earlier) ?_
  rintro rfl
  exact notBefore earlier

/-- A group that is optimized without a bound has been implemented, or the expression that it
began with is left to implement. -/
theorem passes_optimizeGroup (prepared : m.Prepared base n)
    (ready : (optimizeGroup group ⟨p, .unlimited⟩).Ready m)
    (run : ((optimizeGroup group ⟨p, .unlimited⟩).run env rules).exec m = (.ok next, m')) :
    Passes env rules budget m' group p next := by
  obtain ⟨g, hg⟩ := exists_group ready
  have follow : ∀ t ∈ next, t.Ready m' :=
    (run_yields_ready answers going operations prepared.toRanked rules ready).of_exec run
  have run : (optimizingGroup group ⟨p, .unlimited⟩).exec m = (.ok next, m') := run
  rw [exec_optimizingGroup hg] at run
  split at run
  · rename_i won
    cases run
    exact .inl won
  cases run
  obtain ⟨op, ids, hk⟩ := prepared.first group ready
  obtain ⟨op', implements⟩ := op.exists_implements
  by_cases marked : op.implementer ∈ m.marks ⟨group, 0⟩
  · obtain ⟨place, here, stored⟩ := prepared.implemented.stored hk implements marked
    have plain : op'.isEnforcer = false := RuleId.isEnforcer_of_physical? implements.1
    have listed : place ∈ g.implementationPlaces group :=
      (mem_placesOf hg).2
        ⟨here, _, stored, by simp [Operator.isLogical, Operator.isEnforcer, plain]⟩
    obtain ⟨before, after, same⟩ := List.append_of_mem (List.mem_append_left
      ((g.logicalPlaces group).reverse.map (optimizeExpr · (some ⟨p, .unlimited⟩)))
      (List.mem_map_of_mem (List.mem_reverse.2 listed)))
    rw [same]
    exact .inr ⟨before, _, after, rfl, fun _ _ _ _ remembers _ =>
      .inputs here (remembers.extended.key _ _ stored) plain trivial⟩
  · have listed : ⟨group, 0⟩ ∈ g.logicalPlaces group := (mem_placesOf hg).2 ⟨rfl, _, hk, rfl⟩
    have pending : m.Pending (⟨group, 0⟩, op.implementer) := ⟨⟨op, ids, hk, trivial⟩, marked⟩
    refine .of_away answers going operations prepared pending follow
      (List.mem_append_right _ (List.mem_map_of_mem (List.mem_reverse.2 listed)))
      (fun t mem other => ?_)
      fun extended left => .expr rfl (extended.key _ _ hk) left.2
    rcases List.mem_append.1 mem with mem | mem
    · obtain ⟨place, hplace, rfl⟩ := List.mem_map.1 mem
      obtain ⟨here, k, hk', plain⟩ := (mem_placesOf hg).1 (List.mem_reverse.1 hplace)
      refine .inputs here ?_ _ _
      rw [isPlain, hk']
      exact (Bool.and_eq_true_iff.1 plain).2
    · obtain ⟨place, hplace, rfl⟩ := List.mem_map.1 mem
      refine .expr ((mem_placesOf hg).1 (List.mem_reverse.1 hplace)).1
        (fun first => other ?_) _
      exact congrArg (optimizeExpr · (some ⟨p, .unlimited⟩)) first

/-- The rule that implements an expression will be applied to it. -/
theorem passes_optimizeExpr (implementation : ∀ r ∈ RuleSet.implementation, r ∈ rules)
    (prepared : m.Prepared base n) {id : ExprId} {op : LogicalOperator} {ids : List GroupId}
    (here : id.group = group) (hk : m.key? id = some ⟨.logical op, ids⟩)
    (unmarked : op.implementer ∉ m.marks id)
    (run : ((optimizeExpr id (some ⟨p, .unlimited⟩)).run env rules).exec m = (.ok next, m')) :
    Passes env rules budget m' group p next := by
  obtain ⟨op', implements⟩ := op.exists_implements
  obtain ⟨e, he, same⟩ := exists_expr_of_key? hk
  have kind : e.operator = .logical op := congrArg ExprKey.operator same
  have pending : m.Pending (id, op.implementer) := ⟨⟨op, ids, hk, trivial⟩, unmarked⟩
  have ready : (optimizeExpr id (some ⟨p, .unlimited⟩)).Ready m := pending.1
  have follow : ∀ t ∈ next, t.Ready m' :=
    (run_yields_ready answers going operations prepared.toRanked rules ready).of_exec run
  have run : (optimizingExpr rules id (some ⟨p, .unlimited⟩)).exec m = (.ok next, m') := run
  rw [exec_optimizingExpr he kind] at run
  cases run
  have candidate : op.implementer ∈ trialOrder.filter (isCandidate rules e op false) := by
    refine List.mem_filter.2 ⟨mem_trialOrder _, ?_⟩
    have listed := op.implementer_mem_candidateRules
    have enabled := implementation _ implements.mem_implementations
    rw [marks_of_expr he] at unmarked
    have unmarked : op.implementer ∉ e.applied := unmarked
    simp [isCandidate, listed, enabled, unmarked]
  refine .of_away answers going operations prepared pending follow
    (List.mem_append_right _ (List.mem_map_of_mem candidate)) (fun t mem other => ?_)
    fun extended left => .rule here (extended.key _ _ hk) implements left.2
  rcases List.mem_append.1 mem with mem | mem
  · obtain ⟨i, hi, rfl⟩ := List.mem_map.1 mem
    have plain : e.toExprKey.operator.isEnforcer = false := by rw [kind]; rfl
    exact .below (prepared.descends (key?_of_expr he) plain i (List.mem_reverse.1 hi))
  · obtain ⟨rule, -, rfl⟩ := List.mem_map.1 mem
    refine .rule rfl (fun same => other ?_) _
    exact congrArg (applyRule · id (some ⟨p, .unlimited⟩)) (congrArg Prod.snd same)

omit answers going operations in
/-- What a rule makes that implements an expression will be optimized. -/
theorem passes_applyRule (prepared : m.Prepared base n) {id : ExprId} {op : LogicalOperator}
    {op' : PhysicalOperator} {ids : List GroupId} {rule : RuleId} (here : id.group = group)
    (hk : m.key? id = some ⟨.logical op, ids⟩) (implements : rule.Implements op op')
    (unmarked : rule ∉ m.marks id)
    (run : ((applyRule rule id (some ⟨p, .unlimited⟩)).run env rules).exec m =
      (.ok next, m')) :
    Passes env rules budget m' group p next := by
  obtain ⟨place, m₁, run', here', stored⟩ := exec_applyingRule env prepared.implemented
    prepared.toRanked hk unmarked implements (some ⟨p, .unlimited⟩)
  have run : (applyingRule env rule id (some ⟨p, .unlimited⟩)).exec m = (.ok next, m') := run
  rw [run] at run'
  cases run'
  exact .single
    (.inputs (here'.trans here) stored (RuleId.isEnforcer_of_physical? implements.1) trivial)

end Catalog

end Steps

/-! ### Physical expressions -/

section Inputs

variable [Quantity K] {env : Environment K} {rules : RuleSet} {budget : Nat} {group : GroupId}
  {p : PhysicalProperty} {next : List (Task K)} {id : ExprId} {op : PhysicalOperator}
  {ids : List GroupId}
  (h : m.Ranked base n) (here : id.group = group) (hk : m.key? id = some ⟨.physical op, ids⟩)
  (plain : op.isEnforcer = false)
include h here hk plain

/-- If one of the alternatives is feasible, the next one begins. -/
theorem passes_nextAlternative {as : List Alternative} (some : ∃ a ∈ as, a.Feasible)
    (run : (nextAlternative env id ⟨p, .unlimited⟩ as).exec m = (.ok next, m')) :
    Passes env rules budget m' group p next := by
  cases as with
  | nil =>
    obtain ⟨a, mem, -⟩ := some
    cases mem
  | cons a rest =>
    obtain ⟨cost, own⟩ := succeeds_operatorCost env hk (h.inputs hk) (h.saturated _ _ hk)
    rw [exec_nextAlternative hk own] at run
    cases run
    refine .single (.inputs here hk plain ?_)
    split
    · trivial
    · exact some

omit here plain in
/-- When all inputs have been optimized for an alternative at a cost that is a
number, there is a winner. -/
theorem winner_of_complete (allows : env.flags.AllowsMotions) (feasible : p.Feasible)
    {a : Alternative} {rest : List Alternative} {cost : K} (number : (cost == cost) = true)
    (fits : ∀ b ∈ rest, b.requires.length = op.arity) :
    Yields m (optimizingInputs env id ⟨p, .unlimited⟩ (.complete a rest cost)) fun _ m' =>
      (m'.winner? id.group p).isSome := by
  simp only [optimizingInputs, CostBound.admits_unlimited number, Bool.not_true,
    Bool.false_eq_true, if_false]
  refine ((recordWinner_yields h.toFiled hk p a cost).of_leads
    (recordWinner_leads (stepRelation_staysRanked base n).records ⟨.refl m, h⟩ p a cost)).bind
      fun total m₁ done => ?_
  obtain ⟨⟨-, won⟩, stays, -⟩ := done
  have won : (m₁.winner? id.group p).isSome := won (.inr ⟨allows, feasible⟩)
  have later {r : Request K} : Yields m₁ (nextAlternative env id r rest) fun _ m' =>
      (m'.winner? id.group p).isSome :=
    (nextAlternative_yields stays.ranked (stays.extended.key _ _ hk) fits).mono fun _ _ same =>
      same.1 ▸ won
  split
  · exact later
  · exact later

end Inputs

section Catalog

variable [Quantity K] [OrderedQuantity K] {env : Environment K} (answers : env.catalog.Answers)
  (going : env.isCancelled = false)
  (operations : ∀ s ∈ base.flatMap LogicalOperator.operations, s.inputs ≠ [])
  (allows : env.flags.AllowsMotions)
include answers going operations allows

/-- The optimization of a physical expression that still has a feasible alternative goes on,
and one that is complete finds a winner. -/
theorem passes_optimizeInputs {rules : RuleSet} {budget : Nat} {group : GroupId}
    {p : PhysicalProperty} {next : List (Task K)} {id : ExprId} {op : PhysicalOperator}
    {ids : List GroupId} {progress : Progress K} (here : id.group = group)
    (hk : m.key? id = some ⟨.physical op, ids⟩) (plain : op.isEnforcer = false)
    (fulfills : ∀ budget' ≤ budget, Fulfills env rules base n budget') (feasible : p.Feasible)
    (reliable : m.Reliable env base n [optimizeInputs id ⟨p, .unlimited⟩ progress])
    (finite : m.FiniteCosts env) (promises : progress.Promises m ids)
    (run : ((optimizeInputs id ⟨p, .unlimited⟩ progress).run env rules).exec m =
      (.ok next, m')) : Passes env rules budget m' group p next := by
  have h : m.Ranked base n := reliable.orderly.toRanked
  have length : ids.length = op.arity := h.saturated _ _ hk
  obtain ⟨op', ids', hk', fits⟩ := reliable.ready _ List.mem_cons_self
  cases Option.some.inj (hk.symm.trans hk')
  have spent : progress.Accounted env m id := reliable.spent _ List.mem_cons_self
  have follow := (reliable.of_run answers going operations run).1
  have run : (optimizingInputs env id ⟨p, .unlimited⟩ progress).exec m = (.ok next, m') := run
  cases progress with
  | start =>
    obtain ⟨outs, as, houts, listed⟩ := exists_alternatives h hk p
    rw [exec_start (r := ⟨p, .unlimited⟩) hk houts listed] at run
    exact passes_nextAlternative h here hk plain
      (PhysicalOperator.exists_feasible plain feasible listed) run
  | before a rest input cost =>
    obtain ⟨i, q, hi, hq, inside⟩ := exists_inputGoal h hk fits
    obtain ⟨_, -, sum⟩ := spent
    rw [exec_before hk hi hq, CostBound.less_unlimited (finite _ _ _ sum).2] at run
    cases run
    have first : m.Reliable env base n [optimizeGroup i ⟨q, .unlimited⟩] :=
      follow.of_subset (by simp)
    refine .inr ⟨[_], _, [], rfl, fun budget' le m₁ done remembers finite₁ =>
      .inputs here (remembers.extended.key _ _ hk) plain ?_⟩
    obtain ⟨b, mem, hb⟩ := promises
    rcases List.mem_cons.1 mem with rfl | mem
    · exact .inl ⟨hb, i, q, hi, hq,
        fulfills budget' le first (hb q (List.mem_of_getElem? hq)) .group done finite₁⟩
    · exact .inr ⟨b, mem, hb⟩
  | after a rest input cost =>
    obtain ⟨i, q, hi, hq, -⟩ := exists_inputGoal h hk fits
    cases won : m.winner? i q with
    | none =>
      rw [exec_after_none hk hi hq won] at run
      rcases promises with ⟨-, i', q', hi', hq', won'⟩ | some
      · cases Option.some.inj (hi.symm.trans hi')
        cases Option.some.inj (hq.symm.trans hq')
        rw [won] at won'
        cases won'
      · exact passes_nextAlternative h here hk plain some run
    | some w =>
      rw [exec_after_some hk hi hq won] at run
      cases run
      refine .single (.inputs here hk plain ?_)
      split
      · trivial
      · rcases promises with ⟨ha, -⟩ | ⟨b, mem, hb⟩
        · exact ⟨a, List.mem_cons_self, ha⟩
        · exact ⟨b, List.mem_cons_of_mem a mem, hb⟩
  | complete a rest cost =>
    have amount : 0.0 ≤ cost := (finite _ _ _ spent).1
    have number : (cost == cost) = true :=
      OrderedQuantity.beq_self_of_le (Quantity.le_refl_of_nonneg amount)
    exact .inl (here ▸ (winner_of_complete h hk allows feasible number fits).of_exec run)

/-! ### All tasks -/

/-- Tasks keep their promises if all implementation rules are enabled, rows can be moved
and costs are finite. -/
theorem fulfills {rules : RuleSet} (implementation : ∀ r ∈ RuleSet.implementation, r ∈ rules)
    (budget : Nat) : Fulfills env rules base n budget := by
  induction budget using Nat.strongRecOn with
  | ind budget ih =>
    intro m m' t group p reliable feasible promises h finite
    cases budget with
    | zero => cases h
    | succ budget =>
      have whole : m.Reliable env base n ([t] ++ []) := reliable
      obtain ⟨-, remembers⟩ := h.reliable answers going operations whole
      obtain ⟨next, m₁, run, h⟩ := (finishes_cons going).1 h
      rw [List.append_nil] at h
      have fulfills (budget' : Nat) (le : budget' ≤ budget) :
          Fulfills env rules base n budget' :=
        ih budget' (Nat.lt_succ_of_le le)
      have prepared : m.Prepared base n := reliable.prepared
      have ready : t.Ready m := reliable.ready t List.mem_cons_self
      have passes : Passes env rules budget m₁ group p next := by
        cases promises with
        | group => exact passes_optimizeGroup answers going operations prepared ready run
        | expr here hk unmarked =>
          exact passes_optimizeExpr answers going operations implementation prepared
            here hk unmarked run
        | rule here hk implements unmarked =>
          exact passes_applyRule prepared here hk implements unmarked run
        | inputs here hk plain promises =>
          exact passes_optimizeInputs answers going operations allows here hk plain
            fulfills feasible reliable (finite.of_extends remembers.extended) promises run
      obtain ⟨reliable₁, -⟩ := reliable.of_run answers going operations run
      rw [List.append_nil] at reliable₁
      exact passes.isSome_winner? answers going operations fulfills h reliable₁ feasible finite

end Catalog

end Task

end QueryOptimizer
