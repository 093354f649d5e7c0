import Mathlib.Algebra.Order.Field.Basic
import QueryOptimizer.Proofs.Plan.Loading
import QueryOptimizer.Proofs.Search.Extraction
import QueryOptimizer.Proofs.Search.States

/-!
# The books of a search

Every task of a search keeps the books of winners in order, if operators do not have negative
costs and the arithmetic is exact. A task that is about to offer a delivery has paid for what
the delivery is built on (`Task.Paid`).

## Main results

* `Task.recordWinner_leads_keeps`: no winner costs more than an alternative that has
  been recorded. Nothing is said about the alternatives that are left out because
  there is a winner already.
* `Task.run_leads_advances`: a task keeps the books in order.
* `Memo.Searched.booked`: so they are in every state of a search.
* `Memo.Searched.exists_plan`: there each winner is on record with its cost, none of its group
  costs less, and a plan can be read off whose costs cover what is below them.
-/

namespace QueryOptimizer

variable {K : Type} [ExactQuantity K] {env : Environment K} {m m' : Memo K}

/-! ### Costs that are not negative -/

namespace Memo

/-- Whether the operators of a memo, and the enforcers that may be put into its groups, cost
something or nothing. -/
structure NonnegCosts (env : Environment K) (m : Memo K) : Prop where
  expr : ∀ {id cost}, Task.operatorCost env m id = .ok cost → 0 ≤ cost
  enforcer : ∀ {op id r cost}, op.isEnforcer = true → m.relation? id = some r →
    Cost.ofOperator env.config op r.statistics [r.statistics] = .ok cost → 0 ≤ cost

/-- No cost was negative before if none is so when the memo has grown. -/
theorem NonnegCosts.of_extends (h : m'.NonnegCosts env) (extended : m.Extends m') :
    m.NonnegCosts env where
  expr known := h.expr (operatorCost_extends extended known)
  enforcer enforces hr := h.enforcer enforces (extended.relation _ _ hr)

/-- Operators do not have negative costs where there are no negative numbers of rows. -/
theorem NonnegCosts.of_relations (h : ∀ id r, m.relation? id = some r →
    0 ≤ r.statistics.rows ∧ 0 ≤ r.statistics.rowWidth) : m.NonnegCosts env where
  expr {id cost} known := by
    obtain ⟨op, inputs, rels, r, -, hrels, hr, hcost⟩ := operatorCost_eq_ok.1 known
    refine Cost.ofOperator_nonneg (h _ _ hr).1 (h _ _ hr).2 (fun s hs => ?_) hcost
    obtain ⟨below, mem, rfl⟩ := List.mem_map.1 hs
    obtain ⟨i, -, hi⟩ := exists_of_mem_right (relations_eq_ok.1 hrels) mem
    exact (h i below hi).1
  enforcer _ hr hcost :=
    Cost.ofOperator_nonneg (h _ _ hr).1 (h _ _ hr).2
      (List.forall_mem_singleton.2 (h _ _ hr).1) hcost

/-- Bookkeeping does not change the costs of operators. -/
theorem NonnegCosts.like (h : m.NonnegCosts env) (like : m.Like m') : m'.NonnegCosts env :=
  h.of_extends (.ofSize like.size.symm (fun id _ hr => (like.relation id).symm.trans hr)
    (fun id _ hk => (like.key id).symm.trans hk) like.root.symm)

/-- What a task has not made negative was not negative before it. -/
theorem NonnegCosts.of_run {rules : RuleSet} {t : Task K} {r : OptResult (List (Task K))}
    (costs : m'.NonnegCosts env) (delivering : m.Delivering) (sound : t.Sound m)
    (run : (t.run env rules).exec m = (r, m')) : m.NonnegCosts env := by
  have grows : m.Grows ((t.run env rules).exec m).2 :=
    (Task.run_leads_grows delivering rules sound).1
  rw [run] at grows
  exact costs.of_extends grows.extended

/-- A memo that another one has become by bookkeeping: the books are in order, and no operator
costs less than nothing. -/
structure Keeps (env : Environment K) (m m' : Memo K) : Prop extends m.Advances env m' where
  costs : m'.NonnegCosts env

instance : IsTrans (Memo K) (Keeps env) where
  trans _ _ _ h h' := ⟨trans_of (Advances env) h.toAdvances h'.toAdvances, h'.costs⟩

/-- A booked memo keeps its books. -/
theorem Keeps.refl (h : m.Booked env) (costs : m.NonnegCosts env) : m.Keeps env m :=
  ⟨.refl h, costs⟩

/-- An offer that is paid for keeps the books. -/
theorem Booked.keeps_offer (h : m.Booked env) (costs : m.NonnegCosts env) {id : ExprId}
    {key : ExprKey} (hkey : m.key? id = some key) (p : PhysicalProperty) {d : Delivery K}
    (pays : m.Pays env id (key.inputs.zip d.requires) d.cost) : m.Keeps env (m.offer id p d) :=
  ⟨h.offer hkey pays, costs.like (.offer m id p d)⟩

/-- Putting an enforcer into a group. -/
theorem Booked.insertEnforcer (h : m.Booked env) (costs : m.NonnegCosts env)
    {op : PhysicalOperator} (enforces : op.isEnforcer = true) (group : GroupId) :
    (Memo.insertKey env ⟨.physical op, [group]⟩ (some group)).Leads (Keeps env) m fun r m' =>
      r.1.group = group ∧ ∃ op', (op' == op) = true ∧
        m'.key? r.1 = some ⟨.physical op', [group]⟩ := by
  obtain ⟨fills, there⟩ :
    (Memo.insertKey env ⟨.physical op, [group]⟩ (some group)).Leads Fills m
      fun r m' => r.1.group = group ∧
        ∃ op', (op' == op) = true ∧ m'.key? r.1 = some ⟨.physical op', [group]⟩ :=
    h.toFiled.insertEnforcer enforces group
  refine ⟨⟨h.fills fills, ?_⟩, there⟩
  rw [exec_insertKey_some]
  split
  · exact costs
  · split
    · rename_i m' place added
      have relation := relation?_addExpr added
      refine ⟨fun known => ?_, fun enforces hr =>
        costs.enforcer enforces ((relation _).symm.trans hr)⟩
      obtain ⟨op', inputs, rels, r, hkey, hrels, hr, hcost⟩ := operatorCost_eq_ok.1 known
      have hrels := (relations_eq_ok.1 hrels).imp fun _ _ hr => (relation _).symm.trans hr
      rw [relation] at hr
      rw [key?_addExpr added] at hkey
      split at hkey
      · rename_i new
        obtain ⟨hop, rfl⟩ := ExprKey.mk.inj (Option.some.inj hkey)
        obtain rfl := Operator.physical.inj hop
        rw [new, group_of_addExpr added] at hr
        obtain - | ⟨first, none⟩ := hrels
        cases none
        obtain rfl := Option.some.inj (first.symm.trans hr)
        exact costs.enforcer enforces hr hcost
      · exact costs.expr
          (operatorCost_eq_ok.2
            ⟨op', inputs, rels, r, hkey, relations_eq_ok.2 hrels, hr, hcost⟩)
    · exact costs

end Memo

/-- Nothing has a negative cost in the memo of a small search. -/
theorem Sample.nonnegCosts_optimized {r : Relation K}
    (statistics : r.statistics = .ofRows literals.cols literals.rows) :
    (optimized r).NonnegCosts bareSetting := by
  refine .of_relations fun id r' hr => ?_
  cases id with
  | zero =>
    obtain rfl := Option.some.inj hr
    exact nonneg_of_derived statistics
  | succ id => cases hr

/-! ### Tasks -/

/-- Whether the cost that an optimization has come to pays for the operator and for the inputs
that have been optimized. -/
def Progress.Paid (env : Environment K) (m : Memo K) (id : ExprId) : Progress K → Prop
  | start => True
  | before a _ input cost | after a _ input cost => ∃ key, m.key? id = some key ∧
    m.Pays env id ((key.inputs.zip a.requires).take input) cost
  | complete a _ cost => ∃ key, m.key? id = some key ∧
    m.Pays env id (key.inputs.zip a.requires) cost

namespace Task

/-- Whether a task has paid for what it has come to. -/
def Paid (env : Environment K) (m : Memo K) : Task K → Prop
  | optimizeInputs id _ p => p.Paid env m id
  | _ => True

/-- What has been paid for stays so when winners get cheaper. -/
theorem Paid.later {t : Task K} (h : t.Paid env m) (extended : m.Extends m')
    (improves : m.Improves m') : t.Paid env m' := by
  have later {id : ExprId} {cost : K} {goals : ExprKey → List Memo.Goal}
      (h : ∃ key, m.key? id = some key ∧ m.Pays env id (goals key) cost) :
      ∃ key, m'.key? id = some key ∧ m'.Pays env id (goals key) cost := by
    obtain ⟨key, hkey, pays⟩ := h
    exact ⟨key, extended.key _ _ hkey, pays.later extended improves⟩
  cases t with
  | optimizeInputs id r p =>
    cases p with
    | start => trivial
    | before | after | complete => exact later h
  | _ => trivial

/-- A task that starts has nothing to pay for. -/
theorem Starts.paid {t : Task K} (h : t.Starts) (env : Environment K) (m : Memo K) :
    t.Paid env m := by
  cases t with
  | optimizeInputs id r p =>
    cases h
    trivial
  | _ => trivial

open Memo MemoM

variable {id : ExprId} {group : GroupId} {r : Request K}

/-- Enforcers on top of one another pay for what they stand on: it has a winner that
costs no more than what they were given. The winner for what is required costs no
more than the last one. -/
theorem enforce_leads_keeps (h : m.Booked env) (costs : m.NonnegCosts env)
    {required delivered : PhysicalProperty} {cost : K}
    (won : ∃ w, m.winner? group delivered = some w ∧ w.cost ≤ cost) {es : List Enforcer}
    (enforces : ∀ e ∈ es, e.operator.isEnforcer = true) :
    (enforce env group required delivered cost es).Leads (Keeps env) m fun total m' =>
      ∀ c ∈ total, ∃ w, m'.winner? group required = some w ∧ w.cost ≤ c := by
  induction es generalizing m delivered cost with
  | nil => exact .pure (.refl h costs) (by simp)
  | cons e rest ih =>
    obtain ⟨first, others⟩ := List.forall_mem_cons.1 enforces
    refine (h.insertEnforcer costs first group).bind
      fun ⟨place, isNew⟩ m' keeps ⟨hplace, op, same, hkey⟩ => ?_
    dsimp only at hplace hkey ⊢
    obtain ⟨w, hw, le⟩ := keeps.improves.le won
    have self : m'.Keeps env m' := .refl keeps.booked keeps.costs
    refine .get_bind (.lift_bind self fun g hg => .lift_bind self fun own hown => ?_)
    have relation : m'.relation? place.group = some g.toRelation :=
      hplace ▸ relation?_of_group hg
    have known : operatorCost env m' place = .ok own := by
      refine operatorCost_eq_ok.2 ⟨op, [group], [g.toRelation], g.toRelation, hkey,
        relations_eq_ok.2 (.cons (relation?_of_group hg) .nil), relation, ?_⟩
      rw [← hown]
      exact Cost.ofOperator_congr _ _ _ same
    have pays : m'.Pays env place [(group, delivered)] (cost + own) := by
      refine ⟨own, [w], known, keeps.costs.expr known, .cons hw .nil, ?_⟩
      rw [List.map_singleton, List.sum_singleton]
      linarith
    have offered := keeps.booked.keeps_offer keeps.costs hkey e.delivers
      (d := ⟨cost + own, [delivered]⟩) pays
    refine Leads.bind (.modify offered) fun _ m'' keeps' changed => ?_
    cases rest with
    | nil =>
      have hkey' := keeps'.extended.key _ _ hkey
      have again := keeps'.booked.keeps_offer keeps'.costs hkey' required
        (d := ⟨cost + own, [delivered]⟩) (pays.later keeps'.extended keeps'.improves)
      refine Leads.bind (.modify again) fun _ m₃ keeps₃ changed' =>
        .pure (.refl keeps₃.booked keeps₃.costs) fun c hc => ?_
      rw [changed', ← hplace, ← Option.some.inj hc]
      exact Booked.exists_winner_offer hkey' required ⟨cost + own, [delivered]⟩ BEq.rfl
    | cons e' rest =>
      refine ih keeps'.booked keeps'.costs ?_ others
      rw [changed, ← hplace]
      exact Booked.exists_winner_offer hkey e.delivers ⟨cost + own, [delivered]⟩ BEq.rfl

/-- Once an alternative is recorded, the winner for what it delivers costs no more than it
does, and the winner for what is required no more than meeting the requirement with it. -/
theorem recordWinner_leads_keeps (h : m.Booked env) (costs : m.NonnegCosts env) {key : ExprKey}
    (hkey : m.key? id = some key) (required : PhysicalProperty) {a : Alternative} {cost : K}
    (pays : m.Pays env id (key.inputs.zip a.requires) cost) :
    (recordWinner env id required a cost).Leads (Keeps env) m fun total m' =>
      (∃ w, m'.winner? id.group a.delivers = some w ∧ w.cost ≤ cost) ∧
      ∀ c ∈ total, ∃ w, m'.winner? id.group required = some w ∧ w.cost ≤ c := by
  have offered := h.keeps_offer costs hkey a.delivers (d := ⟨cost, a.requires⟩) pays
  refine Leads.bind (.modify offered) fun _ m' keeps changed => ?_
  have won : ∃ w, m'.winner? id.group a.delivers = some w ∧ w.cost ≤ cost :=
    changed ▸ Booked.exists_winner_offer hkey a.delivers ⟨cost, a.requires⟩ BEq.rfl
  split
  · have hkey' := keeps.extended.key _ _ hkey
    have again := keeps.booked.keeps_offer keeps.costs hkey' required
      (d := ⟨cost, a.requires⟩) (pays.later keeps.extended keeps.improves)
    refine Leads.bind (.modify again) fun _ m'' keeps' changed' =>
      .pure (.refl keeps'.booked keeps'.costs) ⟨keeps'.improves.le won, fun c hc => ?_⟩
    rw [changed', ← Option.some.inj hc]
    exact Booked.exists_winner_offer hkey' required ⟨cost, a.requires⟩ BEq.rfl
  · exact (enforce_leads_keeps keeps.booked keeps.costs won
      fun e he => PhysicalProperty.isEnforcer_of_mem_enforcers he).mono
        fun total m'' keeps' meets => ⟨keeps'.improves.le won, meets⟩

/-- At first the operator has been paid. -/
theorem nextAlternative_leads_keeps (h : m.Booked env) (costs : m.NonnegCosts env)
    (as : List Alternative) :
    (nextAlternative env id r as).Leads (Keeps env) m fun ts m' =>
      ∀ t ∈ ts, t.Paid env m' := by
  have self : m.Keeps env m := .refl h costs
  cases as with
  | nil => exact .pure self (by simp)
  | cons a rest =>
    refine .get_bind (.lift_bind self fun own hown => .lift_bind self fun e he => ?_)
    have pays : m.Pays env id [] own :=
      ⟨own, [], hown, costs.expr hown, .nil, by simp⟩
    split
    · rename_i leaf
      refine .pure self (List.forall_mem_singleton.2 ⟨e.toExprKey, key?_of_expr he, ?_⟩)
      rw [List.isEmpty_iff.1 leaf, List.zip_nil_left]
      exact pays
    · exact .pure self (List.forall_mem_singleton.2 ⟨e.toExprKey, key?_of_expr he, pays⟩)

/-- A step of an optimization keeps the books, and its tasks have paid for
what they have come to. -/
theorem optimizingInputs_leads_keeps (h : m.Booked env) (costs : m.NonnegCosts env)
    {p : Progress K} (paid : p.Paid env m id) :
    (optimizingInputs env id r p).Leads (Keeps env) m fun ts m' =>
      ∀ t ∈ ts, t.Paid env m' := by
  have self : m.Keeps env m := .refl h costs
  cases p with
  | start =>
    refine .get_bind (.lift_bind self fun e _ => ?_)
    split
    · exact .throw self _
    · exact .lift_bind self fun _ _ => .lift_bind self fun _ _ =>
        nextAlternative_leads_keeps h costs _
  | before a rest input cost =>
    refine .get_bind (.lift_bind self fun e _ => .lift_bind self fun goal _ => ?_)
    exact .pure self (by simpa using ⟨trivial, paid⟩)
  | after a rest input cost =>
    refine .get_bind (.lift_bind self fun e he => .lift_bind self fun goal hgoal => ?_)
    dsimp only
    split
    · exact nextAlternative_leads_keeps h costs rest
    · rename_i w hw
      obtain ⟨key, hkey, pays⟩ := paid
      obtain rfl := Option.some.inj ((key?_of_expr he).symm.trans hkey)
      have next : (e.inputs.zip a.requires)[input]? = some goal :=
        List.getElem?_zip_eq_some.2 (inputGoal_eq_ok.1 hgoal)
      have pays' :
          m.Pays env id ((e.inputs.zip a.requires).take (input + 1)) (cost + w.cost) := by
        rw [List.take_add_one, next]
        exact pays.snoc hw
      split
      · rename_i last
        refine .pure self (List.forall_mem_singleton.2 ⟨e.toExprKey, hkey, ?_⟩)
        rwa [List.take_of_length_le] at pays'
        rw [List.length_zip, beq_iff_eq.1 last]
        exact Nat.min_le_left _ _
      · exact .pure self (List.forall_mem_singleton.2 ⟨e.toExprKey, hkey, pays'⟩)
  | complete a rest cost =>
    obtain ⟨key, hkey, pays⟩ := paid
    simp only [optimizingInputs]
    split
    · exact nextAlternative_leads_keeps h costs rest
    · refine (recordWinner_leads_keeps h costs hkey r.required pays).bind
        fun total m' keeps _ => ?_
      split
      · exact nextAlternative_leads_keeps keeps.booked keeps.costs rest
      · exact nextAlternative_leads_keeps keeps.booked keeps.costs rest

/-- A task keeps the books in order, and the tasks after it have paid for what
they have come to. -/
theorem run_leads_advances (h : m.Booked env) (costs : m.NonnegCosts env) (rules : RuleSet)
    {t : Task K} (paid : t.Paid env m) :
    (t.run env rules).Leads (Advances env) m fun ts m' => ∀ t ∈ ts, t.Paid env m' := by
  have explored (explores : t.Explores) :
      (t.run env rules).Leads (Advances env) m fun ts m' => ∀ t ∈ ts, t.Paid env m' :=
    ((run_leads_fills h.toFiled rules explores).imp fun _ => h.fills).mono
      fun ts m' _ starts t ht => (starts t ht).paid env m'
  cases t with
  | optimizeInputs id r p =>
    exact (optimizingInputs_leads_keeps h costs paid).imp fun _ => Keeps.toAdvances
  | _ => exact explored trivial

end Task

/-! ### Searches -/

namespace Memo

variable {m₀ : Memo K} {tasks : List (Task K)}

namespace Searched

/-- In every state of a search the books are in order, and the tasks have paid for
what they have come to. -/
theorem booked (start : m₀.Delivering) (begun : m₀.Booked env) (h : Searched env m₀ m tasks)
    (costs : m.NonnegCosts env) : m.Booked env ∧ ∀ t ∈ tasks, t.Paid env m := by
  induction h with
  | start => exact ⟨begun, by simp⟩
  | @stage m _ _ required ih =>
    have like : m.Like m.reset := .reset m
    obtain ⟨booked, -⟩ := ih (costs.of_extends (.ofLike like))
    exact ⟨.of_empty (booked.like like) (deliveries_reset m) (winners_reset m),
      List.forall_mem_singleton.2 trivial⟩
  | @task m m' before after next t h rules run ih =>
    obtain ⟨delivering, sound⟩ := h.delivering start
    have costs := costs.of_run delivering (sound t (by simp)) run
    obtain ⟨booked, paid⟩ := ih costs
    simp only [List.forall_mem_append, List.forall_mem_cons] at paid ⊢
    obtain ⟨earlier, current, later⟩ := paid
    obtain ⟨advances, named⟩ := Task.run_leads_advances booked costs rules current
    rw [run] at advances named
    exact ⟨advances.booked,
      ⟨fun t ht => (earlier t ht).later advances.extended advances.improves, named next rfl⟩,
      fun t ht => (later t ht).later advances.extended advances.improves⟩
  | @failed m m' before after t e h rules run ih =>
    obtain ⟨delivering, sound⟩ := h.delivering start
    have costs := costs.of_run delivering (sound t (by simp)) run
    obtain ⟨booked, paid⟩ := ih costs
    obtain ⟨advances, -⟩ := Task.run_leads_advances booked costs rules (paid t (by simp))
    rw [run] at advances
    exact ⟨advances.booked, by simp⟩

/-- In every state of a search for a logical plan, the winner of a group for a property is an
expression of the group that delivers the property at the cost of the winner, none of the group
delivers it for less, and a plan can be read off whose root reports that cost and all of whose
nodes report costs that cover what is below them. -/
theorem exists_plan {logical : Plan K} (made : Memo.ofPlan env logical = .ok m₀)
    (searched : Searched env m₀ m tasks) (costs : m.NonnegCosts env) {id : GroupId}
    {p : PhysicalProperty} {w : Winner K} (won : m.winner? id p = some w) :
    (w.expr.group = id ∧ ∃ d, m.delivery? w.expr p = some d ∧ d.cost = w.cost) ∧
    (∀ place d, place.group = id → m.delivery? place p = some d → w.cost ≤ d.cost) ∧
    ∀ last, ∃ plan last', (m.bestPlanBelow m.winnerCount [] (id, p)).run last =
      .ok (plan, last') ∧
      (∃ r, plan.estimate = some ⟨r, p, w.cost⟩) ∧
        ∀ q ∈ plan.nodes, q.CoversCosts env.config := by
  obtain ⟨filed, deliveries, winners⟩ := filed_of_ofPlan made
  have start : m₀.Delivering := delivering_of_ofPlan made
  obtain ⟨booked, -⟩ := searched.booked start (.of_empty filed deliveries winners) costs
  obtain ⟨delivering, -⟩ := searched.delivering start
  refine ⟨booked.attained won, fun place d here delivers => ?_, fun last => ?_⟩
  · obtain ⟨best, hbest, cheap⟩ := booked.best delivers
    obtain rfl := Option.some.inj (won.symm.trans (here ▸ hbest))
    exact cheap
  · have grounded : m.Grounded (id, p) := booked.grounded won
    obtain ⟨plan, last', read⟩ : ∃ plan last',
        (m.bestPlanBelow m.winnerCount [] (id, p)).run last = .ok (plan, last') :=
      grounded.exists_bestPlanBelow (by simp) (by simp) (by simp) (by simp) last
    obtain ⟨covers, r, w', -, hw', estimate⟩ := booked.bestPlanBelow_covers delivering read
    obtain rfl := Option.some.inj (won.symm.trans hw')
    exact ⟨plan, last', read, ⟨r, estimate⟩, covers⟩

open Sample in
/-- The numbers 1 and 3 are wanted in order: a state of the search with a winner, and the
plan that is read off. -/
theorem exists_plan_sample : ∃ (m₀ m : Memo ℝ) (tasks : List (Task ℝ)) (w : Winner ℝ),
    Memo.ofPlan bareSetting rowsPlan = .ok m₀ ∧ Searched bareSetting m₀ m tasks ∧
    m.NonnegCosts bareSetting ∧ m.winner? 0 inOrder = some w ∧ w.expr.group = 0 ∧
    ∃ plan last, (m.bestPlanBelow m.winnerCount [] (0, inOrder)).run 0 = .ok (plan, last) ∧
      ∀ q ∈ plan.nodes, q.CoversCosts bareSetting.config := by
  obtain ⟨r, derived, statistics⟩ := exists_derived (K := ℝ)
  have made : Memo.ofPlan bareSetting rowsPlan = .ok (entered r) := ofPlan_rowsPlan derived
  obtain ⟨tasks, searched⟩ : ∃ tasks, Searched bareSetting (entered r)
      (optimize bareSetting 5 inOrder Stage.defaults (entered r)).memo tasks :=
    searched_optimize 5 inOrder Stage.defaults (entered r)
  rw [optimize_entered.2] at searched
  have costs : (optimized r).NonnegCosts bareSetting := nonnegCosts_optimized statistics
  have won : (optimized r).winner? 0 inOrder = some ⟨sortedCost r, ⟨0, 2⟩⟩ := rfl
  obtain ⟨⟨group, -⟩, -, read⟩ := exists_plan made searched costs won
  obtain ⟨plan, last, read, -, covers⟩ := read 0
  exact ⟨entered r, optimized r, tasks, _, made, searched, costs, won, group, plan,
    last, read, covers⟩

end Searched

end Memo

end QueryOptimizer
