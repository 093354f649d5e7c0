import QueryOptimizer.Proofs.Memo.Grafting
import QueryOptimizer.Proofs.Plan.Sharing

/-!
# Ranked memos of a search

The memo of a well-formed plan is ranked, because each of its groups has one expression, over
earlier groups. Every step of a task leaves it ranked.

## Main results

* `Memo.exists_ranked_of_ofPlan`: the memo of a well-formed plan is ranked.
* `Memo.Reached.ranked`: so is every memo that a search on it reaches.
-/

namespace QueryOptimizer

variable {K : Type} {m m' : Memo K} {base : List LogicalOperator} {n : Nat} {c : ℕ ×ₗ ℕ}

/-! ### Plans -/

namespace Plan

/-- The logical operators of a plan. -/
def operators (p : Plan K) : List LogicalOperator :=
  p.nodes.filterMap fun q =>
    match q.operator with
    | .logical op => some op
    | .physical _ => none

/-- The operator of a logical node is one of the plan. -/
theorem mem_operators {p q : Plan K} (hq : q ∈ p.nodes) {op : LogicalOperator}
    (hop : q.operator = .logical op) : op ∈ p.operators :=
  List.mem_filterMap.2 ⟨q, hq, by rw [hop]⟩

/-- The operators of a well-formed plan have all their inputs. -/
theorem WellFormed.saturated {p : Plan K} (wf : p.WellFormed) : p.Saturated := by
  intro q hq
  obtain ⟨op, hop, fits⟩ := wf.fits q hq
  rw [hop]
  generalize q.inputs = inputs at fits
  cases fits with
  | setOp _ _ _ _ aligned => exact aligned.length_eq.symm
  | _ => rfl

end Plan

namespace Memo

section Load

variable [Quantity K] {env : Environment K} {plan : Plan K}

/-- The memo of a well-formed plan is ranked. -/
theorem exists_ranked_of_ofPlan (wf : plan.WellFormed) (made : Memo.ofPlan env plan = .ok m) :
    ∃ n, m.Ranked plan.operators n := by
  have consed : m.Consed := .of_ofPlan wf.sameNode made
  have from_plan : m.Stores fun k => ∀ op, k.operator = .logical op → op ∈ plan.operators :=
    stores_of_ofPlan (fun q hq _ _ op hop => Plan.mem_operators hq hop) made
  have logical {place : ExprId} {k : ExprKey} (hk : m.key? place = some k) :
      ∃ op, k.operator = .logical op ∧
        m.rank place.group = (Operator.logical op).rankOver (k.inputs.map m.rank) := by
    obtain ⟨group, index⟩ := place
    obtain rfl : index = 0 := consed.single hk
    obtain ⟨op, inputs, first⟩ := consed.first group (lt_of_key? hk)
    obtain rfl := Option.some.inj (hk.symm.trans first)
    exact ⟨op, rfl, rank_eq hk (consed.below hk)⟩
  refine ⟨(Finset.range m.groups.size).sup m.weight, consed.toCoherent, fun hk =>
    consed.below hk, saturated_of_ofPlan wf.saturated made, fun hk =>
      .original (from_plan _ _ hk _ rfl), fun hk => ?_,
    fun i => ?_, fun {place k} hk _ i hi => ?_⟩
  · obtain ⟨op, same, rank⟩ := logical hk
    obtain rfl := Operator.logical.inj same
    rw [weight, rank, Operator.fst_rankOver, List.map_map]
    rfl
  · by_cases inside : i < m.groups.size
    · exact Finset.le_sup (Finset.mem_range.2 inside)
    · rw [weight, rank_of_size_le (Nat.le_of_not_lt inside)]
      exact Nat.zero_le _
  · obtain ⟨op, -, rank⟩ := logical hk
    rw [rank]
    exact LogicalOperator.lt_rankOver (List.mem_map_of_mem hi)

end Load

/-! ### Searches -/

section Search

variable [Quantity K] {env : Environment K}

/-- Putting an enforcer into a group. The memo stays as it is if the group does not exist. -/
theorem Ranked.insertEnforcer (h : m.Ranked base n) {op : PhysicalOperator}
    (enforces : op.isEnforcer = true) (group : GroupId) :
    (Memo.insertKey env ⟨.physical op, [group]⟩ (some group)).Leads (Grafts base n c) m
      fun _ _ => True := by
  by_cases inside : group < m.groups.size
  · refine h.insertKey (List.forall_mem_singleton.2 inside) (fun _ => rfl)
      (PhysicalOperator.arity_of_isEnforcer enforces).symm (fun plain => ?_)
      (fun _ same => by cases same) fun _ same => by cases same
    exact absurd enforces (Bool.not_eq_true _ ▸ plain)
  · refine ⟨?_, fun _ _ => trivial⟩
    rw [exec_insertKey_some]
    cases m.index[(⟨.physical op, [group]⟩ : ExprKey)]? with
    | some place => exact .refl h
    | none =>
      cases added : m.addExpr group ⟨.physical op, [group]⟩ with
      | error e => exact .refl h
      | ok r =>
        obtain ⟨g, hg, -⟩ := addExpr_eq_ok added
        exact absurd (Array.getElem?_eq_some_iff.1 hg).1 inside

/-- A ranked memo that another one has grown into. -/
structure StaysRanked (base : List LogicalOperator) (n : Nat) (m m' : Memo K) : Prop where
  extended : m.Extends m'
  ranked : m'.Ranked base n

omit [Quantity K] in
/-- A memo that has been grafted onto stays ranked. -/
theorem StaysRanked.of_grafts (h : Grafts base n c m m') : StaysRanked base n m m' :=
  ⟨h.extended, h.ranked⟩

/-- Steps of a search keep a memo ranked. -/
theorem stepRelation_staysRanked (base : List LogicalOperator) (n : Nat) :
    StepRelation env (StaysRanked (K := K) base n) where
  trans _ _ _ h h' := ⟨h.extended.trans h'.extended, h'.ranked⟩
  self h := ⟨.refl _, h.ranked⟩
  extended h := h.extended
  like h like := ⟨.ofLike like, h.ranked.like like⟩
  tree {m id rule t t'} h _ root binds made := by
    obtain ⟨place, ts, k, rfl, known, rewrites⟩ := RuleId.rewrites_of_apply binds made
    have same : place.group = id.group := Except.ok.inj root
    rw [← same]
    exact (h.ranked.insertRewriting known rewrites).imp fun _ => .of_grafts
  enforcer {m op group} h enforces :=
    (h.ranked.insertEnforcer (c := toLex (0, 0)) enforces group).imp fun _ => .of_grafts

/-- A search keeps a memo ranked. -/
theorem Reached.ranked (h : m.Ranked base n) (reached : Reached env m m') : m'.Ranked base n :=
  (reached.of_steps (stepRelation_staysRanked base n) ⟨.refl m, h⟩).ranked

end Search

end Memo

end QueryOptimizer
