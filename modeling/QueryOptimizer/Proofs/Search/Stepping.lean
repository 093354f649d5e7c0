import QueryOptimizer.Proofs.Delivery.Feasible
import QueryOptimizer.Proofs.Memo.Entering
import QueryOptimizer.Proofs.Memo.Winners
import QueryOptimizer.Proofs.Search.Exploration
import QueryOptimizer.Proofs.Search.Recording

/-!
# The steps of an optimization

What each step of the optimization of a physical expression does, provided that the expression
is there and has all its inputs: which task follows, and what is recorded.

A task may replace the winner for a property by a cheaper one, but it never takes one away
(`Memo.Remembers`).

## Main results

* `Task.exec_before`, `Task.exec_after_some` and others: what follows each step.
* `Task.recordWinner_yields`: the offer of an expression that enforcers can help
  leaves a winner.
* `Task.run_leads_remembers`: no task takes a winner away.
-/

namespace QueryOptimizer

variable {K : Type} [Quantity K] {env : Environment K} {m m' : Memo K}

/-! ### Winners stay -/

namespace Memo

/-- A memo that another one has become, with winners for all goals that had one. -/
structure Remembers (m m' : Memo K) : Prop where
  extended : m.Extends m'
  filed : m'.Filed
  won : ∀ {i p}, (m.winner? i p).isSome → (m'.winner? i p).isSome

omit [Quantity K] in
/-- A memo in order remembers its winners. -/
theorem Remembers.refl (h : m.Filed) : m.Remembers m :=
  ⟨.refl m, h, id⟩

omit [Quantity K] in
/-- A memo that grows without anything being put on record remembers its winners. -/
theorem Fills.remembers (h : m.Fills m') : m.Remembers m' :=
  ⟨h.extended, h.filed, fun won => by rwa [winner?_eq, h.winners, ← winner?_eq]⟩

instance : IsTrans (Memo K) Remembers where
  trans _ _ _ h h' := ⟨h.extended.trans h'.extended, h'.filed, fun won => h'.won (h.won won)⟩

/-- An offer leaves a winner where there was one. -/
theorem isSome_winner?_offer {i : GroupId} {q : PhysicalProperty}
    (won : (m.winner? i q).isSome) (id : ExprId) (p : PhysicalProperty) (d : Delivery K) :
    ((m.offer id p d).winner? i q).isSome := by
  unfold winner? at won
  obtain ⟨w, hw⟩ := Option.isSome_iff_exists.1 won
  obtain ⟨g, hg, hw⟩ := Option.bind_eq_some_iff.1 hw
  simp only [winner?, offer, modifyExpr, modifyGroup, Array.getElem?_modify]
  by_cases here : id.group = i
  · simp only [here, hg, if_true, Option.map_some, Option.bind_some, ByProperty.get?_offer, hw]
    split
    · split <;> rfl
    · rfl
  · simp [here, hg, hw]

/-- An offer leaves a winner for what is offered. -/
theorem isSome_winner?_offer_self {id : ExprId} {key : ExprKey} (hkey : m.key? id = some key)
    (p : PhysicalProperty) (d : Delivery K) :
    ((m.offer id p d).winner? id.group p).isSome := by
  cases won : m.winner? id.group p with
  | some w => exact isSome_winner?_offer (by simp [won]) id p d
  | none =>
    refine Option.isSome_iff_exists.2 ⟨⟨d.cost, id⟩, (winner?_offer_eq_some hkey).2
      (.inr ⟨rfl, BEq.rfl, rfl, fun old hold => ?_⟩)⟩
    rw [won] at hold
    cases hold

/-- An offer leaves a winner for each goal that had one. -/
theorem Filed.remembers_offer (h : m.Filed) (id : ExprId) (p : PhysicalProperty)
    (d : Delivery K) : m.Remembers (m.offer id p d) :=
  ⟨.ofLike (.offer m id p d), h.like (.offer m id p d), fun won =>
    isSome_winner?_offer won id p d⟩

/-- What the optimization of an expression records leaves a winner for each
goal that had one. -/
theorem recordRelation_remembers : RecordRelation env (Remembers (K := K)) where
  trans _ _ _ := trans_of Remembers
  self h := .refl h.filed
  offer h := h.filed.remembers_offer _ _ _
  enforcer h _ := ((h.filed.insertKey _ _ fun _ => rfl).imp fun _ => Fills.remembers).mono
    fun _ _ _ _ => trivial

end Memo

namespace Task

open Memo MemoM

variable {id : ExprId} {group : GroupId} {r : Request K}

variable (env) in
/-- No task takes a winner away. -/
theorem run_leads_remembers (h : m.Filed) (rules : RuleSet) (t : Task K) :
    (t.run env rules).Leads Remembers m fun _ _ => True := by
  have explored (explores : t.Explores) :
      (t.run env rules).Leads Remembers m fun _ _ => True :=
    ((run_leads_fills h rules explores).imp fun _ => Fills.remembers).mono
      fun _ _ _ _ => trivial
  cases t with
  | optimizeInputs id r p =>
    exact (optimizingInputs_leads recordRelation_remembers (.refl h) r p).mono
      fun _ _ _ _ => trivial
  | _ => exact explored trivial

/-! ### Offers -/

omit [Quantity K] in
/-- A group of the memo is found. -/
theorem exists_group (there : group < m.groups.size) : ∃ g, m.group group = .ok g :=
  ⟨m.groups[group], group_eq_ok.2 (Array.getElem?_eq_getElem there)⟩

/-- Enforcers on top of one another are offered, so the last one leaves a winner
for what is required. -/
theorem enforce_yields (h : m.Filed) (there : group < m.groups.size)
    (required delivered : PhysicalProperty) (cost : K) {es : List Enforcer}
    (enforces : ∀ e ∈ es, e.operator.isEnforcer = true) :
    Yields m (enforce env group required delivered cost es) fun total m' =>
      m.Remembers m' ∧ if es.isEmpty then total = none
        else (m'.winner? group required).isSome := by
  induction es generalizing m delivered cost with
  | nil => exact .pure ⟨.refl h, rfl⟩
  | cons e rest ih =>
    obtain ⟨first, others⟩ := List.forall_mem_cons.1 enforces
    have entered : Yields m (Memo.insertKey env ⟨.physical e.operator, [group]⟩ (some group))
        fun _ _ => True := by
      obtain ⟨r, m', run⟩ := exists_insertKey_some env ⟨.physical e.operator, [group]⟩ there
      exact ⟨r, m', run, trivial⟩
    refine (entered.of_leads (h.insertKey _ group fun _ => rfl)).bind
      fun ⟨place, isNew⟩ m₁ ⟨_, fills, key, hkey, same⟩ => ?_
    dsimp only at hkey ⊢
    obtain ⟨kind, inputs⟩ := ExprKey.beq_iff.1 same
    obtain rfl : group = place.group := by
      have own := fills.filed.enforcer hkey ((Operator.isEnforcer_congr kind).trans first)
      exact List.singleton_inj.1 (inputs.symm.trans own)
    obtain ⟨g, hg⟩ := exists_group (Nat.lt_of_lt_of_le there fills.extended.size_le)
    have one : [g.statistics].length = e.operator.arity :=
      (PhysicalOperator.arity_of_isEnforcer first).symm
    refine .get_bind (.lift_bind ⟨g, hg⟩ fun g' hg' => ?_)
    obtain rfl := Except.ok.inj (hg.symm.trans hg')
    refine .lift_bind (Cost.succeeds_ofOperator _ _ one) fun own _ => .modify_bind ?_
    have offered := fills.filed.remembers_offer place e.delivers ⟨cost + own, [delivered]⟩
    have before := trans_of Remembers fills.remembers offered
    cases rest with
    | nil =>
      refine .modify_bind
        (.pure ⟨trans_of Remembers before (offered.filed.remembers_offer _ _ _), ?_⟩)
      exact isSome_winner?_offer_self (offered.extended.key _ _ hkey) _ _
    | cons e' rest =>
      refine (ih offered.filed (Nat.lt_of_lt_of_le there before.extended.size_le)
        _ _ others).mono fun total m' ⟨remembers, meets⟩ =>
          ⟨trans_of Remembers before remembers, meets⟩

/-- The offer of an expression leaves a winner for a feasible property. -/
theorem recordWinner_yields (h : m.Filed) {key : ExprKey} (hkey : m.key? id = some key)
    (required : PhysicalProperty) (a : Alternative) (cost : K) :
    Yields m (recordWinner env id required a cost) fun total m' => m.Remembers m' ∧
      (total.isSome ∨ env.flags.AllowsMotions ∧ required.Feasible →
        (m'.winner? id.group required).isSome) := by
  have offered := h.remembers_offer id a.delivers ⟨cost, a.requires⟩
  refine .modify_bind ?_
  split
  · refine .modify_bind
      (.pure ⟨trans_of Remembers offered (offered.filed.remembers_offer _ _ _), fun _ =>
        isSome_winner?_offer_self (offered.extended.key _ _ hkey) _ _⟩)
  · rename_i unmet
    refine (enforce_yields offered.filed ?_ required a.delivers cost
      fun e he => PhysicalProperty.isEnforcer_of_mem_enforcers he).mono
        fun total m' ⟨remembers, meets⟩ =>
          ⟨trans_of Remembers offered remembers, fun possible => ?_⟩
    · exact Nat.lt_of_lt_of_le (lt_of_key? hkey) offered.extended.size_le
    · split at meets
      · rename_i nothing
        rcases possible with found | ⟨allows, feasible⟩
        · simp [meets] at found
        · exact absurd (List.isEmpty_iff.1 nothing)
            (PhysicalProperty.enforcers_ne_nil allows feasible (Bool.eq_false_iff.2 unmet))
      · exact meets

/-! ### Steps -/

omit [Quantity K] in
/-- The expressions of a group are optimized, unless there is a winner. -/
theorem exec_optimizingGroup {g : Group K} (hg : m.group group = .ok g) (r : Request K) :
    (optimizingGroup group r).exec m =
      (.ok (if (m.winner? group r.required).isSome then []
        else (g.implementationPlaces group).reverse.map (optimizeInputs · r .start) ++
          (g.logicalPlaces group).reverse.map (optimizeExpr · (some r))), m) := by
  have winners : m.winner? group r.required = g.winners.get? r.required := by
    rw [winner?, group_eq_ok.1 hg, Option.bind_some]
  simp only [optimizingGroup, exec_bind, exec_get, exec_lift, hg, winners]
  split <;> rfl

omit [Quantity K] in
/-- The inputs of a logical expression are explored, and then rules are applied to it. -/
theorem exec_optimizingExpr {op : LogicalOperator} {e : Expr K} (he : m.expr id = .ok e)
    (kind : e.operator = .logical op) (rules : RuleSet) (r? : Option (Request K)) :
    (optimizingExpr rules id r?).exec m =
      (.ok (e.inputs.reverse.map exploreGroup ++
        (trialOrder.filter (isCandidate rules e op r?.isNone)).map (applyRule · id r?)),
          m) := by
  simp only [optimizingExpr, exec_bind, exec_get, exec_lift, he, kind]
  rfl

section Steps

variable {op : PhysicalOperator} {ids : List GroupId} {cost : K}
  (hk : m.key? id = some ⟨.physical op, ids⟩)
include hk

variable (env) in
/-- An operator that has all its inputs has a cost. -/
theorem succeeds_operatorCost (inside : ∀ i ∈ ids, i < m.groups.size)
    (length : ids.length = op.arity) : (operatorCost env m id).Succeeds := by
  obtain ⟨rels, hrels⟩ := exists_relations inside
  obtain ⟨g, hg⟩ := exists_group (lt_of_key? hk)
  have same : (rels.map (·.statistics)).length = op.arity :=
    (List.length_map _).trans ((relations_eq_ok.1 hrels).length_eq.symm.trans length)
  obtain ⟨cost, hcost⟩ := Cost.succeeds_ofOperator env.config g.statistics same
  exact ⟨cost,
    operatorCost_eq_ok.2
    ⟨op, ids, rels, g.toRelation, hk, hrels, relation?_of_group hg, hcost⟩⟩

/-- An alternative begins with the first input, or is complete if there is none. -/
theorem exec_nextAlternative (own : operatorCost env m id = .ok cost) (a : Alternative)
    (rest : List Alternative) : (nextAlternative env id r (a :: rest)).exec m =
      (.ok [optimizeInputs id r
        (if ids.isEmpty then .complete a rest cost else .before a rest 0 cost)], m) := by
  obtain ⟨e, he, same⟩ := exists_expr_of_key? hk
  have inputs : e.inputs = ids := congrArg ExprKey.inputs same
  simp only [nextAlternative, exec_bind, exec_get, exec_lift, own, he, inputs]
  split <;> rfl

/-- An optimization starts with the first alternative. -/
theorem exec_start {outs : List ColumnSet} {as : List Alternative}
    (houts : m.columnSets ids = .ok outs) (listed : op.alternatives r.required outs = .ok as) :
    (optimizingInputs env id r .start).exec m = (nextAlternative env id r as).exec m := by
  obtain ⟨e, he, same⟩ := exists_expr_of_key? hk
  have kind : e.operator = .physical op := congrArg ExprKey.operator same
  have inputs : e.inputs = ids := congrArg ExprKey.inputs same
  simp only [optimizingInputs, exec_bind, exec_get, exec_lift, he, kind, inputs, houts, listed]

variable {a : Alternative} {rest : List Alternative} {input : Nat} {i : GroupId}
  {p : PhysicalProperty}
  (hi : ids[input]? = some i) (hp : a.requires[input]? = some p)
include hi hp

/-- Before an input is added, its group is optimized within what is left of the bound. -/
theorem exec_before : (optimizingInputs env id r (.before a rest input cost)).exec m =
    (.ok [optimizeGroup i ⟨p, r.bound.less cost⟩,
      optimizeInputs id r (.after a rest input cost)], m) := by
  obtain ⟨e, he, same⟩ := exists_expr_of_key? hk
  have inputs : e.inputs = ids := congrArg ExprKey.inputs same
  have goal : inputGoal e a input = .ok (i, p) := inputGoal_eq_ok.2 ⟨inputs ▸ hi, hp⟩
  simp only [optimizingInputs, exec_bind, exec_get, exec_lift, he, goal, exec_pure]

/-- An alternative whose input has no winner is left. -/
theorem exec_after_none (lost : m.winner? i p = none) :
    (optimizingInputs env id r (.after a rest input cost)).exec m =
      (nextAlternative env id r rest).exec m := by
  obtain ⟨e, he, same⟩ := exists_expr_of_key? hk
  have inputs : e.inputs = ids := congrArg ExprKey.inputs same
  have goal : inputGoal e a input = .ok (i, p) := inputGoal_eq_ok.2 ⟨inputs ▸ hi, hp⟩
  simp only [optimizingInputs, exec_bind, exec_get, exec_lift, he, goal, lost]

/-- The cost of the winner for an input is added, and the next input follows. -/
theorem exec_after_some {w : Winner K} (won : m.winner? i p = some w) :
    (optimizingInputs env id r (.after a rest input cost)).exec m =
      (.ok [optimizeInputs id r
        (if input + 1 = ids.length then .complete a rest (cost + w.cost)
          else .before a rest (input + 1) (cost + w.cost))], m) := by
  obtain ⟨e, he, same⟩ := exists_expr_of_key? hk
  have inputs : e.inputs = ids := congrArg ExprKey.inputs same
  have goal : inputGoal e a input = .ok (i, p) := inputGoal_eq_ok.2 ⟨inputs ▸ hi, hp⟩
  simp only [optimizingInputs, exec_bind, exec_get, exec_lift, he, goal, won,
    inputs, beq_iff_eq]
  split <;> rfl

end Steps

end Task

end QueryOptimizer
