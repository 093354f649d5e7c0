import Mathlib.Data.List.Perm.Subperm
import Mathlib.Logic.Relation
import QueryOptimizer.Proofs.Memo.Winners
import QueryOptimizer.Proofs.Search.Delivery

/-!
# Reading plans off winners

A plan is read off the winners from the top down. Below a grounded goal (`Memo.Grounded`)
every goal has a winner, so nothing is missing, and no goal is below itself. The goals on the
way down differ, so there are at most as many as there are winners. When the books are in
order, the cost that is reported for each node covers what its operator costs and what is
reported for its inputs.

## Main results

* `Memo.Grounded.exists_bestPlanBelow`: a plan can be read off for every grounded goal.
* `Memo.Booked.bestPlanBelow_covers`: the costs of its nodes cover what is below them.
-/

namespace QueryOptimizer

namespace Memo

variable {K : Type} {env : Environment K} {m : Memo K} {goal goal' below : Goal}

/-! ### Goals -/

/-- The goal with nothing but the ids of its columns. -/
def Goal.bare (goal : Goal) : Goal :=
  (goal.1, goal.2.bare)

/-- Goals match when they are equal without what matching ignores. -/
theorem Goal.beq_iff_bare : (goal == goal') = true ↔ Goal.bare goal = Goal.bare goal' := by
  obtain ⟨i, p⟩ := goal
  obtain ⟨i', p'⟩ := goal'
  change (_ && _) = true ↔ _
  simp only [Bool.and_eq_true, beq_iff_eq, PhysicalProperty.beq_iff_bare,
    Goal.bare, Prod.mk.injEq]

/-- A goal is listed, without what matching ignores, if a matching one is. -/
theorem Goal.mem_map_bare {goals : List Goal} :
    Goal.bare goal ∈ goals.map Goal.bare ↔ goals.contains goal = true := by
  rw [List.mem_map, List.contains_iff_exists_mem_beq]
  exact exists_congr fun _ => and_congr_right fun _ => eq_comm.trans Goal.beq_iff_bare.symm

/-- The goals that have winners, group by group. -/
def wonGoals (m : Memo K) : List Goal :=
  m.groups.toList.zipIdx.flatMap fun (g, i) => g.winners.entries.map fun (p, _) => (i, p.bare)

/-- There are as many goals with winners as there are winners. -/
theorem length_wonGoals (m : Memo K) : m.wonGoals.length = m.winnerCount := by
  have sizes : m.wonGoals.length = (m.groups.toList.map fun g => g.winners.size).sum := by
    rw [wonGoals, List.length_flatMap, ← List.zipIdx_map_fst 0 m.groups.toList, List.map_map]
    simp only [List.length_map, List.zipIdx_map_fst]
    rfl
  rw [sizes, winnerCount, ← Array.foldl_toList, List.sum_eq_foldl, List.foldl_map]

/-- A goal with a winner is among these. -/
theorem mem_wonGoals {w : Winner K} (won : m.winner? goal.1 goal.2 = some w) :
    Goal.bare goal ∈ m.wonGoals := by
  obtain ⟨g, hg, hw⟩ := Option.bind_eq_some_iff.1 won
  obtain ⟨q, mem, same⟩ := ByProperty.exists_mem_of_get? hw
  refine List.mem_flatMap.2 ⟨(g, goal.1), List.mk_mem_zipIdx_iff_getElem?.2 ?_,
    List.mem_map.2 ⟨(q, w), mem, ?_⟩⟩
  · rw [Array.getElem?_toList, hg]
  · rw [Goal.bare, PhysicalProperty.beq_iff_bare.1 same]

/-- Different goals have different winners. -/
theorem length_le_winnerCount {goals : List Goal}
    (won : ∀ goal ∈ goals, ∃ w, m.winner? goal.1 goal.2 = some w)
    (distinct : (goals.map Goal.bare).Nodup) : goals.length ≤ m.winnerCount := by
  rw [← length_wonGoals, ← List.length_map Goal.bare]
  refine (distinct.subperm fun bare mem => ?_).length_le
  obtain ⟨goal, hgoal, rfl⟩ := List.mem_map.1 mem
  obtain ⟨w, hw⟩ := won goal hgoal
  exact mem_wonGoals hw

/-! ### The goals below a goal -/

/-- Whether the winner for a goal requires another goal of one of its inputs. -/
def Needs (m : Memo K) (below goal : Goal) : Prop :=
  ∃ w key d, m.winner? goal.1 goal.2 = some w ∧ m.key? w.expr = some key ∧
    m.delivery? w.expr goal.2 = some d ∧ below ∈ key.inputs.zip d.requires

/-- Matching goals need the same. -/
theorem Needs.congr (h : m.Needs below goal) (same : (goal == goal') = true) :
    m.Needs below goal' := by
  obtain ⟨group, bare⟩ := Prod.mk.inj (Goal.beq_iff_bare.1 same)
  have property := PhysicalProperty.beq_iff_bare.2 bare
  obtain ⟨w, key, d, won, hkey, delivers, mem⟩ := h
  exact ⟨w, key, d, by rwa [← group, ← winner?_congr property], hkey,
    by rwa [← delivery?_congr property], mem⟩

/-- A goal that has a plan does not need others for ever. -/
theorem Grounded.acc (h : m.Grounded goal) : Acc m.Needs goal := by
  induction h with
  | winner won hkey delivers below ih =>
    refine ⟨_, fun g hg => ih g ?_⟩
    obtain ⟨w, key, d, won', hkey', delivers', mem⟩ := hg
    obtain rfl := Option.some.inj (won.symm.trans won')
    obtain rfl := Option.some.inj (hkey.symm.trans hkey')
    obtain rfl := Option.some.inj (delivers.symm.trans delivers')
    exact mem

/-- No goal is below itself. -/
theorem Grounded.not_below_self (h : m.Grounded goal) :
    ¬Relation.TransGen m.Needs goal goal := by
  have acc := h.acc.transGen
  clear h
  induction acc with
  | intro goal _ ih => exact fun cycle => ih goal cycle cycle

/-- What is below a goal is not among the goals above it. -/
theorem Grounded.not_contains (h : m.Grounded goal) {above : List Goal}
    (path : ∀ a ∈ above, Relation.TransGen m.Needs goal a) : above.contains goal = false := by
  refine Bool.eq_false_iff.2 fun repeated => ?_
  obtain ⟨a, mem, same⟩ := List.contains_iff_exists_mem_beq.1 repeated
  refine h.not_below_self ?_
  have back : (a == goal) = true := Goal.beq_iff_bare.2 (Goal.beq_iff_bare.1 same).symm
  cases path a mem with
  | single step => exact .single (step.congr back)
  | tail steps step => exact .tail steps (step.congr back)

/-! ### Plans can be read off -/

/-- Numbering the members of a list succeeds if it does so for each of them. -/
theorem exists_run_mapM {α β : Type} {f : α → StateT Nat OptResult β} {as : List α}
    (each : ∀ a ∈ as, ∀ s, ∃ b s', (f a).run s = .ok (b, s')) (s : Nat) :
    ∃ bs s', (as.mapM f).run s = .ok (bs, s') := by
  induction as generalizing s with
  | nil => exact ⟨[], s, rfl⟩
  | cons a as ih =>
    obtain ⟨b, s₁, hb⟩ := each a (by simp) s
    obtain ⟨bs, s₂, hbs⟩ := ih (fun a' ha' => each a' (List.mem_cons_of_mem a ha')) s₁
    exact ⟨b :: bs, s₂, by simp [List.mapM_cons, hb, hbs]⟩

/-- A plan can be read off for a grounded goal that is below other goals, as long as there are
levels left for all winners. -/
theorem Grounded.exists_bestPlanBelow (h : m.Grounded goal) :
    ∀ {above : List Goal} {depth : Nat},
    (∀ a ∈ above, Relation.TransGen m.Needs goal a) →
    (∀ a ∈ above, ∃ w, m.winner? a.1 a.2 = some w) → (above.map Goal.bare).Nodup →
    m.winnerCount ≤ above.length + depth →
    ∀ last, ∃ plan last', (m.bestPlanBelow depth above goal).run last = .ok (plan, last') := by
  induction h with
  | @winner goal w key d won hkey delivers below ih =>
    intro above depth path winners distinct enough last
    have grounded : m.Grounded goal := .winner won hkey delivers below
    have apart := grounded.not_contains path
    have winners' : ∀ a ∈ goal :: above, ∃ w, m.winner? a.1 a.2 = some w :=
      List.forall_mem_cons.2 ⟨⟨w, won⟩, winners⟩
    have distinct' : ((goal :: above).map Goal.bare).Nodup := by
      rw [List.map_cons, List.nodup_cons, Goal.mem_map_bare, apart]
      exact ⟨Bool.false_ne_true, distinct⟩
    obtain ⟨depth, rfl⟩ : ∃ rest, depth = rest + 1 := by
      have := length_le_winnerCount winners' distinct'
      rw [List.length_cons] at this
      exact Nat.exists_eq_add_one.2 (by omega)
    obtain ⟨e, he, rfl⟩ := exists_expr_of_key? hkey
    have choice := bestChoice_eq_ok.2 ⟨won, he, delivers⟩
    have path' (g : Goal) (hg : g ∈ e.inputs.zip d.requires) :
        ∀ a ∈ goal :: above, Relation.TransGen m.Needs g a := by
      have step : m.Needs g goal := ⟨w, _, d, won, hkey, delivers, hg⟩
      exact List.forall_mem_cons.2 ⟨.single step, fun a ha => .head step (path a ha)⟩
    have levels : m.winnerCount ≤ (goal :: above).length + depth := by
      rw [List.length_cons]
      omega
    obtain ⟨inputs, last', hinputs⟩ := exists_run_mapM
      (fun g hg => ih g hg (path' g hg) winners' distinct' levels) (last + 1)
    obtain ⟨g, hg, -⟩ := Option.bind_eq_some_iff.1 won
    exact ⟨_, last', by simp [bestPlanBelow, choice, apart, hinputs, group_eq_ok.2 hg]; rfl⟩

/-- A plan can be read off if the goal of the whole query is grounded. -/
theorem Grounded.exists_bestPlan {required : PhysicalProperty}
    (h : m.Grounded (m.root, required)) : ∃ plan, m.bestPlan required = .ok plan := by
  obtain ⟨plan, last, read⟩ : ∃ plan last,
      (m.bestPlanBelow m.winnerCount [] (m.root, required)).run 0 = .ok (plan, last) :=
    h.exists_bestPlanBelow (by simp) (by simp) (by simp) (by simp) 0
  have read : m.bestPlanBelow m.winnerCount [] (m.root, required) 0 = .ok (plan, last) := read
  refine ⟨plan, ?_⟩
  rw [bestPlan, StateT.run', read]
  rfl

end Memo

/-! ### Costs of plans -/

section Costs

variable {K : Type} [ExactQuantity K]

/-- Whether the cost that is reported for a node covers what its operator costs, by the
statistics that are reported, and the costs that are reported for its inputs. -/
def Plan.CoversCosts (config : Config K) (q : Plan K) : Prop :=
  ∃ (op : PhysicalOperator) (estimate : PlanEstimate K)
    (below : List (PlanEstimate K)) (own : K), q.operator = .physical op ∧
    q.estimate = some estimate ∧
    q.inputs.map (·.estimate) = below.map some ∧
    Cost.ofOperator config op estimate.relation.statistics
    (below.map (·.relation.statistics)) = .ok own ∧
    own + (below.map (·.cost)).sum ≤ estimate.cost

namespace Memo

variable {env : Environment K} {m : Memo K} {goal : Goal}

omit [ExactQuantity K] in
/-- What is reported for plans that were read off for some goals. -/
theorem estimates_of_goals {ids : List GroupId} {rels : Inputs K}
    (known : List.Forall₂ (fun i r => m.relation? i = some r) ids rels)
    {requires : List PhysicalProperty} (covers : ids.length ≤ requires.length)
    {ws : List (Winner K)}
    (won : List.Forall₂ (fun (goal : Goal) w => m.winner? goal.1 goal.2 = some w)
      (ids.zip requires) ws) {inputs : List (Plan K)}
    (parts : List.Forall₂ (fun (goal : Goal) input => ∃ r w, m.relation? goal.1 = some r ∧
      m.winner? goal.1 goal.2 = some w ∧ input.estimate = some ⟨r, goal.2, w.cost⟩)
      (ids.zip requires) inputs) :
    ∃ below : List (PlanEstimate K), inputs.map (·.estimate) = below.map some ∧
      below.map (·.relation) = rels ∧ below.map (·.cost) = ws.map Winner.cost := by
  induction known generalizing requires ws inputs with
  | nil =>
    cases won
    cases parts
    exact ⟨[], rfl, rfl, rfl⟩
  | @cons id r ids rels first _ ih =>
    cases requires with
    | nil => cases covers
    | cons p requires =>
      obtain - | ⟨hw, won⟩ := won
      obtain - | ⟨⟨r', w', hr', hw', estimate⟩, parts⟩ := parts
      obtain rfl := Option.some.inj (hr'.symm.trans first)
      obtain rfl := Option.some.inj (hw'.symm.trans hw)
      obtain ⟨below, estimates, relations, costs⟩ :=
        ih (Nat.le_of_succ_le_succ covers) won parts
      exact ⟨⟨r', p, w'.cost⟩ :: below, by simp [estimate, estimates], by simp [relations],
        by simp [costs]⟩

/-- The costs that are reported for the nodes of a plan cover what is below them. The root
reports the cost of the winner. -/
theorem Booked.bestPlanBelow_covers (h : m.Booked env) (delivering : m.Delivering)
    {depth : Nat} {above : List Goal} {last last' : Nat} {plan : Plan K}
    (read : (m.bestPlanBelow depth above goal).run last = .ok (plan, last')) :
    (∀ q ∈ plan.nodes, q.CoversCosts env.config) ∧ ∃ r w, m.relation? goal.1 = some r ∧
      m.winner? goal.1 goal.2 = some w ∧ plan.estimate = some ⟨r, goal.2, w.cost⟩ := by
  induction depth generalizing above goal last last' plan with
  | zero =>
    obtain ⟨_, _, _, _, _, _, impossible, -⟩ := bestPlanBelow_eq_ok read
    cases impossible
  | succ depth ih =>
    obtain ⟨_, w, e, d, g, inputs, same, choice, hg, below, hop, hinputs, hestimate⟩ :=
      bestPlanBelow_eq_ok read
    obtain rfl := Nat.succ.inj same
    have parts := below.imp fun _ _ ⟨s, s', read'⟩ => ih read'
    obtain ⟨won, he, delivers⟩ := bestChoice_eq_ok.1 choice
    refine ⟨fun q hq => ?_, g.toRelation, w, relation?_of_group hg, won, hestimate⟩
    rcases Plan.mem_nodes.1 hq with rfl | ⟨c, hc, hqc⟩
    · obtain ⟨-, -, -, -, -, covers⟩ := delivering.meets_of_bestChoice choice
      obtain ⟨group, d', hd', attained⟩ := h.attained won
      obtain rfl := Option.some.inj (delivers.symm.trans hd')
      obtain ⟨own, ws, hown, -, hws, enough⟩ := h.pays (key?_of_expr he) delivers
      obtain ⟨op, ids, rels, r, hkey, hrels, hr, hcost⟩ := operatorCost_eq_ok.1 hown
      obtain ⟨same, rfl⟩ :=
        ExprKey.mk.inj (Option.some.inj ((key?_of_expr he).symm.trans hkey))
      obtain rfl := Option.some.inj ((group ▸ hr).symm.trans (relation?_of_group hg))
      obtain ⟨es, estimates, relations, costs⟩ := estimates_of_goals
        (relations_eq_ok.1 hrels) covers hws (parts.imp fun _ _ => And.right)
      refine ⟨op, _, es, own, hop.trans same, hestimate, hinputs ▸ estimates, ?_, ?_⟩
      · rw [← relations, List.map_map] at hcost
        exact hcost
      · rw [costs]
        exact enough.trans (le_of_eq attained)
    · rw [hinputs] at hc
      obtain ⟨good, -⟩ := (List.forall₂_and_left _ _).1 (List.Forall₂.flip parts)
      exact good c hc q hqc

end Memo

end Costs

end QueryOptimizer
