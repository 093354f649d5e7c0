import QueryOptimizer.Proofs.Rule.Outcome
import QueryOptimizer.Proofs.Search.Delivery
import QueryOptimizer.Proofs.Search.Reached

/-!
# Valid plans

What an operator delivers is in the end delivered by one of its alternatives. An enforcer is no
exception: it was put on top of a property that is as good as what one of its alternatives
requires. So in a plan that a search returns no node relies on a distribution or an order that
its inputs do not have. The inputs are all there if they are in the logical plan.

## Main results

* `PhysicalOperator.Delivers.exists_alternative`: an alternative for what an operator delivers.
* `Memo.Reached.saturated`: a search keeps a memo saturated.
* `Memo.valid_of_optimize`: the plan that an optimization returns is valid.
-/

namespace QueryOptimizer

/-! ### Alternatives -/

/-- What an operator delivers is delivered by one of its alternatives, which requires no
more of the inputs. -/
theorem PhysicalOperator.Delivers.exists_alternative {op : PhysicalOperator}
    {outs : List ColumnSet} {d : PhysicalProperty} {requires : List PhysicalProperty}
    (h : op.Delivers outs d requires) :
    ∃ required as a, op.alternatives required outs = .ok as ∧ a ∈ as ∧ a.delivers = d ∧
      List.Forall₂ (fun need got => got.satisfies need = true) a.requires requires := by
  cases h with
  | @alternative required as a listed mem =>
    exact ⟨required, as, a, listed, mem, rfl,
      List.forall₂_same.2 fun p _ => PhysicalProperty.satisfies_refl p⟩
  | @motion m h below =>
    subst h
    exact ⟨.any, _, _, rfl, List.mem_singleton_self _, rfl, .cons below.satisfies_any .nil⟩
  | @sort o h below =>
    subst h
    exact ⟨below, _, _, rfl, List.mem_singleton_self _, rfl,
      .cons below.satisfies_ofDistribution .nil⟩

variable {K : Type}

/-! ### Plans -/

namespace Plan

/-- Whether a node has an alternative, for some required property, that delivers what the node
was chosen for, that requires something of each input that the operator takes, and no more of
an input of the node than what that was chosen for. -/
def Supported (q : Plan K) : Prop :=
  ∃ op p required as a, q.operator = .physical op ∧ q.delivers? = some p ∧
    op.alternatives required (q.inputs.map columns) = .ok as ∧ a ∈ as ∧
    a.delivers.satisfies p = true ∧ a.requires.length = op.arity ∧
    ∀ (k : Nat) (input : Plan K), q.inputs[k]? = some input →
      ∃ need got, a.requires[k]? = some need ∧ input.delivers? = some got ∧
      got.satisfies need = true

/-- Whether a plan answers a logical one: it was chosen for the required property, no
node relies on what its inputs do not deliver, and no node lacks an input unless one of
the logical plan does. -/
structure Valid (plan logical : Plan K) (required : PhysicalProperty) : Prop where
  root : plan.delivers? = some required
  supported : ∀ q ∈ plan.nodes, q.Supported
  saturated : logical.Saturated → plan.Saturated

/-- A node that delivers over inputs that deliver is supported. -/
theorem Delivers.supported {q : Plan K} (h : q.Delivers)
    (inputs : ∀ input ∈ q.inputs, input.Delivers) : q.Supported := by
  obtain ⟨op, p, requires, hop, hp, ⟨d, delivers, good⟩, covers⟩ := h
  obtain ⟨required, as, a, listed, mem, rfl, enough⟩ := delivers.exists_alternative
  refine ⟨op, p, required, as, a, hop, hp, listed, mem, good,
    PhysicalOperator.length_requires listed mem, fun k input hinput => ?_⟩
  obtain ⟨-, got, -, -, hgot, -⟩ := inputs input (List.mem_of_getElem? hinput)
  obtain ⟨inside, rfl⟩ := List.getElem?_eq_some_iff.1 ((covers k input hinput).trans hgot)
  have needed : k < a.requires.length := enough.length_eq ▸ inside
  exact ⟨_, _, List.getElem?_eq_getElem needed, hgot, enough.get needed inside⟩

end Plan

namespace Memo

variable {m m' : Memo K}

/-! ### Saturated memos of a search -/

section Search

variable [Quantity K] {env : Environment K}

/-- A saturated memo that another memo has grown into. -/
structure StaysSaturated (m m' : Memo K) : Prop where
  extended : m.Extends m'
  filed : m'.Filed
  saturated : m'.Saturated

/-- Each step of a task keeps a memo saturated. An enforcer has its own group for an input. -/
theorem stepRelation_staysSaturated : StepRelation env (StaysSaturated (K := K)) where
  trans _ _ _ h h' := ⟨h.extended.trans h'.extended, h'.filed, h'.saturated⟩
  self h := ⟨.refl _, h.filed, h.saturated⟩
  extended h := h.extended
  like h like := ⟨.ofLike like, h.filed.like like, h.saturated.like like⟩
  tree {m id _ t t'} h _ _ binds made := by
    obtain ⟨fills, -⟩ : (Memo.insertTree env t' (some id.group)).Leads Fills m
        fun r m' => m'.Contains r.1.group t' :=
      h.filed.insertTree (RuleId.isEnforcer_of_apply binds made) id.group
    obtain ⟨saturates, -⟩ : (Memo.insertTree env t' (some id.group)).Leads
      (Retains ExprKey.Saturated) m
        fun _ _ => True :=
      insertTree_leads_retains (RuleId.apply_saturated h.saturated binds made) (some id.group)
    exact ⟨⟨fills.extended, fills.filed, saturates h.saturated⟩, fun _ _ => trivial⟩
  enforcer {m op group} h enforces := by
    let key : ExprKey := ⟨.physical op, [group]⟩
    have one : key.Saturated := (PhysicalOperator.arity_of_isEnforcer enforces).symm
    obtain ⟨fills, -⟩ : (Memo.insertKey env key (some group)).Leads Fills m fun r m' =>
        ∃ k, m'.key? r.1 = some k ∧ (k == key) = true :=
      h.filed.insertKey key group fun _ => rfl
    obtain ⟨saturates, -⟩ : (Memo.insertKey env key (some group)).Leads
      (Retains ExprKey.Saturated) m
        fun _ _ => True :=
      insertKey_leads_retains one (some group)
    exact ⟨⟨fills.extended, fills.filed, saturates h.saturated⟩, fun _ _ => trivial⟩

/-- A search keeps expressions saturated. -/
theorem Reached.saturated (reached : Reached env m m') (filed : m.Filed)
    (saturated : m.Saturated) : m'.Saturated :=
  (reached.of_steps stepRelation_staysSaturated ⟨.refl m, filed, saturated⟩).saturated

end Search

/-! ### Plans that are returned -/

/-- The nodes of a plan that is read off have all their inputs, if the
expressions of the memo do. -/
theorem Delivering.saturated_of_bestPlanBelow (h : m.Delivering) (saturated : m.Saturated)
    {depth : Nat} {above : List Goal} {goal : Goal} {last last' : Nat} {plan : Plan K}
    (read : (m.bestPlanBelow depth above goal).run last = .ok (plan, last')) :
    plan.Saturated := by
  induction depth generalizing above goal last last' plan with
  | zero =>
    obtain ⟨_, _, _, _, _, _, impossible, -⟩ := bestPlanBelow_eq_ok read
    cases impossible
  | succ depth ih =>
    obtain ⟨_, w, e, d, g, inputs, same, choice, -, below, hop, hinputs, -⟩ :=
      bestPlanBelow_eq_ok read
    obtain rfl := Nat.succ.inj same
    intro q hq
    rcases Plan.mem_nodes.1 hq with rfl | ⟨c, hc, hqc⟩
    · obtain ⟨-, he, -⟩ := bestChoice_eq_ok.1 choice
      obtain ⟨-, -, -, -, -, covers⟩ := h.meets_of_bestChoice choice
      rw [hinputs, hop, ← below.length_eq, List.length_zip, Nat.min_eq_left covers]
      exact saturated _ _ (key?_of_expr he)
    · rw [hinputs] at hc
      obtain ⟨goal', -, s, s', read'⟩ := exists_of_mem_right below hc
      exact ih read' q hqc

/-- The plan that an optimization of a logical plan returns is valid, whichever
property is required and whichever stages there are, as long as the plans that stages
have already are valid. -/
theorem valid_of_optimize [Quantity K] {env : Environment K} {logical plan : Plan K}
    (made : Memo.ofPlan env logical = .ok m) {budget : Nat} {required : PhysicalProperty}
    {stages : List (Stage K)}
    (known : ∀ s ∈ stages, ∀ best ∈ s.best, best.1.Valid logical required)
    (returned : (optimize env budget required stages m).result = .ok plan) :
    plan.Valid logical required := by
  have start : m.Delivering := delivering_of_ofPlan made
  refine of_optimize (P := (Plan.Valid · logical required))
    (fun plan ⟨m', tasks, searched, read⟩ => ?_) known returned
  obtain ⟨delivering, -⟩ := searched.delivering start
  obtain ⟨root, delivers⟩ := delivering.delivers_of_bestPlan read
  refine ⟨root, fun q hq => (delivers q hq).supported fun input hinput =>
    ?_, fun saturated => ?_⟩
  · exact delivers input
      (Plan.mem_nodes_trans hq (Plan.mem_nodes_of_input hinput input.self_mem_nodes))
  · obtain ⟨last, read⟩ := bestPlan_eq_ok read
    have saturated : m'.Saturated :=
      searched.reached.saturated start.toFiled (saturated_of_ofPlan saturated made)
    exact delivering.saturated_of_bestPlanBelow saturated read

open Sample in
/-- The numbers 1 and 3 are wanted in order: the plan that is found is valid. -/
theorem valid_of_optimize_sample : ∃ (m : Memo ℝ) (plan : Plan ℝ),
    Memo.ofPlan bareSetting rowsPlan = .ok m ∧
    (∀ s ∈ Stage.defaults (K := ℝ), ∀ best ∈ s.best, best.1.Valid rowsPlan inOrder) ∧
    (optimize bareSetting 5 inOrder Stage.defaults m).result = .ok plan ∧
    plan.Valid rowsPlan inOrder := by
  obtain ⟨r, derived, -⟩ := exists_derived (K := ℝ)
  have made : Memo.ofPlan bareSetting rowsPlan = .ok (entered r) := ofPlan_rowsPlan derived
  have new : ∀ s ∈ Stage.defaults (K := ℝ), ∀ best ∈ s.best, best.1.Valid rowsPlan inOrder :=
    fun s hs best hbest => by simp [Stage.best_of_mem_defaults hs] at hbest
  exact ⟨entered r, sortedPlan r, made, new, optimize_entered.1,
    valid_of_optimize made new optimize_entered.1⟩

end Memo

end QueryOptimizer
