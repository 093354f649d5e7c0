import QueryOptimizer.Proofs.Cost
import QueryOptimizer.Proofs.Memo.Records
import QueryOptimizer.Search.Task

/-!
# The books of winners

The winner of a group is replaced by cheaper expressions while the deliveries that were built
on it keep their costs, and an enforcer has its own group as an input. So it is not clear from
the records of one moment that a plan can be read off them. In exact arithmetic the records of
a search have these properties (`Memo.Booked`):

* the cost of a delivery pays for the operator and for the current winners of what is required;
* the winner of a group costs no more than any delivery of its expressions, and its own
  delivery costs exactly as much as it does;
* below a winner there are winners, down to expressions without inputs (`Memo.Grounded`).

An offer only replaces what costs strictly more. What an offered delivery is built on costs
at most as much as the delivery, so the goal that changes is not below it, also where
operators cost nothing.

## Main results

* `Memo.Booked.offer`: the books stay in order when a delivery is offered that is paid for.
* `Memo.Booked.fills`: so they do when expressions are entered.
-/

namespace QueryOptimizer

/-! ### Offers -/

/-- After an offer the cheaper of the old and the new entry is found, the old one
if they cost the same. -/
theorem ByProperty.get?_offer_eq_some {K α : Type} [Quantity K] {cost : α → K}
    {m : ByProperty α} {p q : PhysicalProperty} {a b : α} :
    (m.offer cost p a).get? q = some b ↔
      (m.get? q = some b ∧ ((p == q) = true → cost b ≤ cost a)) ∨
      ((p == q) = true ∧ b = a ∧ ∀ old, m.get? q = some old → ¬cost old ≤ cost a) := by
  rw [get?_offer]
  by_cases same : (p == q) = true
  · cases known : m.get? q with
    | none => simp [same, eq_comm]
    | some old =>
      by_cases cheap : cost old ≤ cost a
      · simp only [same, if_true, cheap, Option.some.injEq, forall_const, not_true_eq_false,
          forall_eq', and_false, or_false]
        exact ⟨fun h => ⟨h, h ▸ cheap⟩, And.left⟩
      · simp only [same, if_true, cheap, if_false, Option.some.injEq, forall_const, true_and,
          forall_eq', not_false_eq_true, and_true]
        refine ⟨fun h => .inr h.symm, ?_⟩
        rintro (⟨rfl, le⟩ | rfl)
        · exact absurd le cheap
        · rfl
  · simp [same]

namespace Memo

variable {K : Type} {env : Environment K} {m m' m'' : Memo K} {id : ExprId} {key : ExprKey}
  {p q : PhysicalProperty} {d : Delivery K} {w : Winner K} {goal : Goal}

/-- A delivery belongs to an expression of the memo. -/
theorem exists_key?_of_delivery? (h : m.delivery? id p = some d) :
    ∃ key, m.key? id = some key := by
  unfold delivery? deliveries at h
  cases found : m.groups[id.group]?.bind fun g => g.exprs[id.index]? with
  | none => simp [found] at h
  | some e =>
    obtain ⟨g, hg, he⟩ := Option.bind_eq_some_iff.1 found
    exact ⟨e.toExprKey, by simp [key?, hg, he]⟩

/-- The winners for matching properties are the same. -/
theorem winner?_congr {i : GroupId} (same : (p == q) = true) :
    m.winner? i p = m.winner? i q := by
  rw [winner?_eq, winner?_eq, ByProperty.get?_congr _ same]

/-- The deliveries of matching properties are the same. -/
theorem delivery?_congr (same : (p == q) = true) : m.delivery? id p = m.delivery? id q :=
  ByProperty.get?_congr _ same

section Offer

variable [Quantity K]

/-- After an offer the winner is the cheaper of the old and the new one, the old one
if they cost the same. -/
theorem winner?_offer_eq_some (hkey : m.key? id = some key) {i : GroupId} :
    (m.offer id p d).winner? i q = some w ↔
      (m.winner? i q = some w ∧ (id.group = i → (p == q) = true → w.cost ≤ d.cost)) ∨
      (id.group = i ∧ (p == q) = true ∧ w = ⟨d.cost, id⟩ ∧
        ∀ old, m.winner? i q = some old → ¬old.cost ≤ d.cost) := by
  simp only [winner?_eq, winners_offer hkey]
  by_cases here : id.group = i
  · simp only [here, if_true, ByProperty.get?_offer_eq_some, forall_const, true_and]
  · simp [here]

/-- After an offer the delivery is the cheaper of the old and the new one, the old one
if they cost the same. -/
theorem delivery?_offer_eq_some (hkey : m.key? id = some key) {place : ExprId}
    {d' : Delivery K} :
    (m.offer id p d).delivery? place q = some d' ↔
      (m.delivery? place q = some d' ∧ (id = place → (p == q) = true → d'.cost ≤ d.cost)) ∨
      (id = place ∧ (p == q) = true ∧ d' = d ∧
        ∀ old, m.delivery? place q = some old → ¬old.cost ≤ d.cost) := by
  simp only [delivery?, deliveries_offer hkey]
  by_cases here : id = place
  · simp only [here, if_true, ByProperty.get?_offer_eq_some, forall_const, true_and]
  · simp [here]

end Offer

/-! ### Costs of operators -/

section OperatorCost

variable [Quantity K] {cost : K}

/-- The cost of a physical operator is found from the statistics of its
group and of its inputs. -/
theorem operatorCost_eq_ok : Task.operatorCost env m id = .ok cost ↔ ∃ op inputs rels r,
    m.key? id = some ⟨.physical op, inputs⟩ ∧ m.relations inputs = .ok rels ∧
      m.relation? id.group = some r ∧
      Cost.ofOperator env.config op r.statistics (rels.map (·.statistics)) = .ok cost := by
  constructor
  · intro h
    obtain ⟨e, he, h⟩ := OptResult.bind_eq_ok.1 h
    split at h
    · cases h
    · rename_i op hop
      obtain ⟨rels, hrels, h⟩ := OptResult.bind_eq_ok.1 h
      obtain ⟨g, hg, h⟩ := OptResult.bind_eq_ok.1 h
      refine ⟨op, e.inputs, rels, g.toRelation, ?_, hrels, relation?_of_group hg, h⟩
      rw [key?_of_expr he, ← hop]
  · rintro ⟨op, inputs, rels, r, hkey, hrels, hr, h⟩
    obtain ⟨e, he, same⟩ := exists_expr_of_key? hkey
    obtain ⟨g, hg, rfl⟩ := Option.map_eq_some_iff.1 hr
    have hop : e.operator = .physical op := congrArg ExprKey.operator same
    have hinputs : e.inputs = inputs := congrArg ExprKey.inputs same
    simp only [Task.operatorCost, OptResult.bind_eq_ok]
    refine ⟨e, he, ?_⟩
    rw [hop]
    simp only [OptResult.bind_eq_ok]
    exact ⟨rels, hinputs ▸ hrels, g, group_eq_ok.2 hg, h⟩

/-- The cost of an operator stays what it is while the memo grows. -/
theorem operatorCost_extends (h : m.Extends m')
    (known : Task.operatorCost env m id = .ok cost) :
    Task.operatorCost env m' id = .ok cost := by
  obtain ⟨op, inputs, rels, r, hkey, hrels, hr, hcost⟩ := operatorCost_eq_ok.1 known
  exact operatorCost_eq_ok.2 ⟨op, inputs, rels, r, h.key _ _ hkey,
    relations_eq_ok.2 ((relations_eq_ok.1 hrels).imp fun i r => h.relation i r),
    h.relation _ _ hr, hcost⟩

end OperatorCost

/-! ### What costs pay for -/

variable [ExactQuantity K] {goals : List Goal} {cost : K}

/-- Whether a cost pays for the operator of an expression, which costs something or nothing,
and for the winners of some goals. -/
def Pays (env : Environment K) (m : Memo K) (id : ExprId) (goals : List Goal) (cost : K) :
    Prop :=
  ∃ own ws, Task.operatorCost env m id = .ok own ∧ 0 ≤ own ∧
    List.Forall₂ (fun (goal : Goal) w => m.winner? goal.1 goal.2 = some w) goals ws ∧
    own + (ws.map Winner.cost).sum ≤ cost

/-- Whether each goal that had a winner has one that costs no more. -/
def Improves (m m' : Memo K) : Prop :=
  ∀ i p w, m.winner? i p = some w → ∃ w', m'.winner? i p = some w' ∧ w'.cost ≤ w.cost

/-- Where a winner was cheap enough there is still one. -/
theorem Improves.le (h : m.Improves m') {i : GroupId}
    (won : ∃ w, m.winner? i p = some w ∧ w.cost ≤ cost) :
    ∃ w, m'.winner? i p = some w ∧ w.cost ≤ cost := by
  obtain ⟨w, hw, le⟩ := won
  obtain ⟨w', hw', le'⟩ := h i p w hw
  exact ⟨w', hw', le'.trans le⟩

/-- Winners for several goals are still there and cost no more together. -/
theorem Improves.winners (h : m.Improves m') {ws : List (Winner K)}
    (won : List.Forall₂ (fun (goal : Goal) w => m.winner? goal.1 goal.2 = some w) goals ws) :
    ∃ ws', List.Forall₂ (fun (goal : Goal) w => m'.winner? goal.1 goal.2 = some w) goals ws' ∧
      (ws'.map Winner.cost).sum ≤ (ws.map Winner.cost).sum := by
  induction won with
  | nil => exact ⟨[], .nil, le_rfl⟩
  | @cons goal w goals ws first _ ih =>
    obtain ⟨w', hw', le⟩ := h _ _ _ first
    obtain ⟨ws', hws', sum⟩ := ih
    refine ⟨w' :: ws', .cons hw' hws', ?_⟩
    simp only [List.map_cons, List.sum_cons]
    exact add_le_add le sum

/-- A cost that was enough once is enough later. -/
theorem Pays.later (h : m.Pays env id goals cost) (extended : m.Extends m')
    (improves : m.Improves m') : m'.Pays env id goals cost := by
  obtain ⟨own, ws, hown, nonneg, won, enough⟩ := h
  obtain ⟨ws', won', sum⟩ := improves.winners won
  refine ⟨own, ws', operatorCost_extends extended hown, nonneg, won', ?_⟩
  linarith

/-- There is a winner for each goal that is paid for. -/
theorem Pays.exists_winner (h : m.Pays env id goals cost) (mem : goal ∈ goals) :
    ∃ w, m.winner? goal.1 goal.2 = some w := by
  obtain ⟨own, ws, -, -, won, -⟩ := h
  obtain ⟨w, -, hw⟩ := exists_of_mem_right won.flip mem
  exact ⟨w, hw⟩

/-- Paying for one more goal. -/
theorem Pays.snoc (h : m.Pays env id goals cost) (won : m.winner? goal.1 goal.2 = some w) :
    m.Pays env id (goals ++ [goal]) (cost + w.cost) := by
  obtain ⟨own, ws, hown, nonneg, hws, enough⟩ := h
  refine ⟨own, ws ++ [w], hown, nonneg, List.rel_append hws (.cons won .nil), ?_⟩
  rw [List.map_append, List.sum_append, List.map_singleton, List.sum_singleton]
  linarith

/-! ### Books in order -/

/-- Whether a goal has a winner, and so do the goals below it, down to
expressions without inputs. -/
inductive Grounded (m : Memo K) : Goal → Prop
  | winner {goal : Goal} {w : Winner K} {key : ExprKey} {d : Delivery K}
      (won : m.winner? goal.1 goal.2 = some w) (hkey : m.key? w.expr = some key)
      (delivers : m.delivery? w.expr goal.2 = some d)
      (below : ∀ g ∈ key.inputs.zip d.requires, Grounded m g) : Grounded m goal

/-- Whether the books of a memo are in order. -/
structure Booked (env : Environment K) (m : Memo K) : Prop extends m.Filed where
  pays : ∀ {id key p d}, m.key? id = some key → m.delivery? id p = some d →
    m.Pays env id (key.inputs.zip d.requires) d.cost
  nonneg : ∀ {id p d}, m.delivery? id p = some d → 0 ≤ d.cost
  best : ∀ {id p d}, m.delivery? id p = some d →
    ∃ w, m.winner? id.group p = some w ∧ w.cost ≤ d.cost
  attained : ∀ {i p w}, m.winner? i p = some w →
    w.expr.group = i ∧ ∃ d, m.delivery? w.expr p = some d ∧ d.cost = w.cost
  grounded : ∀ {goal w}, m.winner? goal.1 goal.2 = some w → m.Grounded goal

/-- A memo that another one has become, with the books in order. -/
structure Advances (env : Environment K) (m m' : Memo K) : Prop where
  extended : m.Extends m'
  improves : m.Improves m'
  booked : m'.Booked env

instance : IsTrans (Memo K) (Advances env) where
  trans _ _ _ h h' := by
    exact ⟨h.extended.trans h'.extended, fun i p w hw => h'.improves.le (h.improves i p w hw),
      h'.booked⟩

/-- A booked memo has advanced to itself. -/
theorem Advances.refl (h : m.Booked env) : m.Advances env m :=
  ⟨.refl m, fun _ _ w hw => ⟨w, hw, le_rfl⟩, h⟩

namespace Booked

/-- No winner of a booked memo has a negative cost. -/
theorem winner_nonneg (h : m.Booked env) {i : GroupId} (won : m.winner? i p = some w) :
    0 ≤ w.cost := by
  obtain ⟨-, d, hd, same⟩ := h.attained won
  exact same ▸ h.nonneg hd

/-- What pays for winners pays for each of them, and is not negative. -/
theorem le_of_pays (h : m.Booked env) (pays : m.Pays env id goals cost) :
    0 ≤ cost ∧ ∀ goal ∈ goals, ∀ w, m.winner? goal.1 goal.2 = some w → w.cost ≤ cost := by
  obtain ⟨own, ws, -, nonneg, won, enough⟩ := pays
  have nonnegs : ∀ c ∈ ws.map Winner.cost, 0 ≤ c := by
    intro c hc
    obtain ⟨w, hw, rfl⟩ := List.mem_map.1 hc
    obtain ⟨goal, -, hgoal⟩ := exists_of_mem_right won hw
    exact h.winner_nonneg hgoal
  have sum := List.sum_nonneg nonnegs
  refine ⟨by linarith, fun goal hgoal w hw => ?_⟩
  obtain ⟨w', hmem, hw'⟩ := exists_of_mem_right won.flip hgoal
  obtain rfl := Option.some.inj (hw'.symm.trans hw)
  have le := List.single_le_sum nonnegs _ (List.mem_map_of_mem hmem)
  linarith

/-! ### Offers -/

section Offer

variable (h : m.Booked env) (hkey : m.key? id = some key)
include hkey

/-- An offer makes no winner dearer. -/
theorem improves_offer (p : PhysicalProperty) (d : Delivery K) :
    m.Improves (m.offer id p d) := by
  intro i q w hw
  by_cases replaced : id.group = i ∧ (p == q) = true ∧ ¬w.cost ≤ d.cost
  · obtain ⟨here, same, dear⟩ := replaced
    refine ⟨⟨d.cost, id⟩,
      (winner?_offer_eq_some hkey).2 (.inr ⟨here, same, rfl, fun old hold => ?_⟩),
      le_of_not_ge dear⟩
    obtain rfl := Option.some.inj (hw.symm.trans hold)
    exact dear
  · exact ⟨w, (winner?_offer_eq_some hkey).2 (.inl ⟨hw, fun here same =>
      not_not.1 fun dear => replaced ⟨here, same, dear⟩⟩), le_rfl⟩

/-- After an offer there is a winner, which costs no more than what was offered. -/
theorem exists_winner_offer (p : PhysicalProperty) (d : Delivery K) (same : (p == q) = true) :
    ∃ w, (m.offer id p d).winner? id.group q = some w ∧ w.cost ≤ d.cost := by
  cases hw : m.winner? id.group q with
  | none =>
    exact ⟨⟨d.cost, id⟩, (winner?_offer_eq_some hkey).2
      (.inr ⟨rfl, same, rfl, fun old hold => by rw [hw] at hold; cases hold⟩), le_rfl⟩
  | some w =>
    by_cases cheap : w.cost ≤ d.cost
    · exact ⟨w, (winner?_offer_eq_some hkey).2 (.inl ⟨hw, fun _ _ => cheap⟩), cheap⟩
    · refine ⟨⟨d.cost, id⟩, (winner?_offer_eq_some hkey).2
        (.inr ⟨rfl, same, rfl, fun old hold => ?_⟩), le_rfl⟩
      obtain rfl := Option.some.inj (hw.symm.trans hold)
      exact cheap

include h

/-- A winner after an offer is an old one, whose delivery has not changed, or it is what was
offered and costs less than the old one. -/
theorem winner_offer_cases {i : GroupId} (won : (m.offer id p d).winner? i q = some w) :
    (m.winner? i q = some w ∧ (m.offer id p d).delivery? w.expr q = m.delivery? w.expr q) ∨
    (id.group = i ∧ (p == q) = true ∧ w = ⟨d.cost, id⟩ ∧
      (m.offer id p d).delivery? id q = some d ∧
      ∀ old, m.winner? i q = some old → d.cost < old.cost) := by
  rcases (winner?_offer_eq_some hkey).1 won with ⟨hw, cheap⟩ | ⟨here, same, rfl, dear⟩
  · obtain ⟨group, d₀, hd₀, cost⟩ := h.attained hw
    refine .inl ⟨hw, hd₀ ▸ (delivery?_offer_eq_some hkey).2 (.inl ⟨hd₀, fun place same => ?_⟩)⟩
    exact cost ▸ cheap (place ▸ group) same
  · refine .inr ⟨here, same, rfl, (delivery?_offer_eq_some hkey).2 (.inr ⟨rfl, same, rfl,
      fun old hold cheap => ?_⟩), fun old hold => lt_of_not_ge (dear old hold)⟩
    obtain ⟨w, hw, le⟩ := h.best hold
    exact dear w (here ▸ hw) (le.trans cheap)

variable (pays : m.Pays env id (key.inputs.zip d.requires) d.cost)

/-- Goals that cost no more than what is offered stay as they are, with all that
is below them. -/
theorem grounded_offer_of_le (grounded : m.Grounded goal) :
    ∀ w, m.winner? goal.1 goal.2 = some w → w.cost ≤ d.cost →
      (m.offer id p d).Grounded goal := by
  induction grounded with
  | @winner goal w key' d₀ won hkey' delivers below ih =>
    intro w' hw' cheap
    obtain rfl := Option.some.inj (won.symm.trans hw')
    obtain ⟨w', hw', -⟩ := improves_offer hkey p d _ _ _ won
    rcases h.winner_offer_cases hkey hw' with ⟨old, kept⟩ | ⟨-, -, -, -, dear⟩
    · obtain rfl := Option.some.inj (won.symm.trans old)
      refine .winner hw' (((Like.offer m id p d).key _).trans hkey') (kept.trans delivers)
        fun g hg => ?_
      obtain ⟨-, d₁, hd₁, cost⟩ := h.attained won
      obtain rfl := Option.some.inj (delivers.symm.trans hd₁)
      obtain ⟨w₁, hw₁⟩ := (h.pays hkey' delivers).exists_winner hg
      have le := (h.le_of_pays (h.pays hkey' delivers)).2 g hg w₁ hw₁
      exact ih g hg w₁ hw₁ ((le.trans (le_of_eq cost)).trans cheap)
    · exact absurd cheap (not_le_of_gt (dear _ won))

include pays

/-- The goal of an offer that was taken. -/
theorem grounded_offer_self {i : GroupId}
    (won : (m.offer id p d).winner? i q = some ⟨d.cost, id⟩)
    (delivers : (m.offer id p d).delivery? id q = some d) :
    (m.offer id p d).Grounded (i, q) := by
  refine .winner won (((Like.offer m id p d).key _).trans hkey) delivers fun g hg => ?_
  obtain ⟨w, hw⟩ := pays.exists_winner hg
  exact h.grounded_offer_of_le hkey (h.grounded hw) w hw ((h.le_of_pays pays).2 g hg w hw)

/-- A goal that has a plan still has one after an offer. -/
theorem grounded_offer (grounded : m.Grounded goal) : (m.offer id p d).Grounded goal := by
  induction grounded with
  | @winner goal w key' d₀ won hkey' delivers below ih =>
    obtain ⟨w', hw', -⟩ := improves_offer hkey p d _ _ _ won
    rcases h.winner_offer_cases hkey hw' with ⟨old, kept⟩ | ⟨-, -, rfl, delivers', -⟩
    · obtain rfl := Option.some.inj (won.symm.trans old)
      exact .winner hw' (((Like.offer m id p d).key _).trans hkey') (kept.trans delivers) ih
    · exact h.grounded_offer_self hkey pays hw' delivers'

/-- The books stay in order when a delivery is offered that is paid for. -/
theorem offer : m.Advances env (m.offer id p d) := by
  have like : m.Like (m.offer id p d) := .offer m id p d
  have improves := improves_offer hkey p d
  refine ⟨.ofLike like, improves, h.like like, fun {i k q d'} hk hd' =>
    ?_, fun {i q d'} hd' => ?_, fun {i q d'} hd' => ?_, fun {i q w} won =>
      ?_, fun {goal w} won => ?_⟩
  · rw [like.key] at hk
    rcases (delivery?_offer_eq_some hkey).1 hd' with ⟨old, -⟩ | ⟨rfl, -, rfl, -⟩
    · exact (h.pays hk old).later (.ofLike like) improves
    · obtain rfl := Option.some.inj (hkey.symm.trans hk)
      exact pays.later (.ofLike like) improves
  · rcases (delivery?_offer_eq_some hkey).1 hd' with ⟨old, -⟩ | ⟨-, -, rfl, -⟩
    · exact h.nonneg old
    · exact (h.le_of_pays pays).1
  · rcases (delivery?_offer_eq_some hkey).1 hd' with ⟨old, -⟩ | ⟨rfl, same, rfl, -⟩
    · exact improves.le (h.best old)
    · exact exists_winner_offer hkey p d' same
  · rcases h.winner_offer_cases hkey won with ⟨old, kept⟩ | ⟨here, -, rfl, delivers, -⟩
    · obtain ⟨group, d₀, hd₀, cost⟩ := h.attained old
      exact ⟨group, d₀, kept.trans hd₀, cost⟩
    · exact ⟨here, d, delivers, rfl⟩
  · rcases h.winner_offer_cases hkey won with ⟨old, -⟩ | ⟨-, -, rfl, delivers, -⟩
    · exact h.grounded_offer hkey pays (h.grounded old)
    · exact h.grounded_offer_self hkey pays won delivers

end Offer

/-! ### Other changes -/

/-- The books stay in order when expressions are entered. -/
theorem fills (h : m.Booked env) (fills : m.Fills m') : m.Advances env m' := by
  have winner (i : GroupId) (p : PhysicalProperty) : m'.winner? i p = m.winner? i p := by
    rw [winner?_eq, winner?_eq, fills.winners]
  have delivery (i : ExprId) (p : PhysicalProperty) : m'.delivery? i p = m.delivery? i p := by
    rw [delivery?, delivery?, fills.deliveries]
  have improves : m.Improves m' := fun i p w hw => ⟨w, (winner i p).trans hw, le_rfl⟩
  refine ⟨fills.extended, improves, fills.filed, fun hk hd => ?_, fun hd =>
    h.nonneg (delivery _ _ ▸ hd), fun hd => ?_, fun won => ?_, fun {goal w} won => ?_⟩
  · rw [delivery] at hd
    obtain ⟨k, hk'⟩ := exists_key?_of_delivery? hd
    obtain rfl := Option.some.inj ((fills.extended.key _ _ hk').symm.trans hk)
    exact (h.pays hk' hd).later fills.extended improves
  · simpa only [winner] using h.best (delivery _ _ ▸ hd)
  · simpa only [delivery] using h.attained (winner _ _ ▸ won)
  · have grounded := h.grounded ((winner _ _).symm.trans won)
    clear won
    induction grounded with
    | winner won hkey delivers _ ih =>
      exact .winner ((winner _ _).trans won) (fills.extended.key _ _ hkey)
        ((delivery _ _).trans delivers) ih

/-- The books are empty at the start of a search. -/
theorem of_empty (filed : m.Filed) (deliveries : ∀ id, m.deliveries id = {})
    (winners : ∀ id, m.winners id = {}) : m.Booked env := by
  have none {i : GroupId} {p : PhysicalProperty} {w : Winner K}
    (won : m.winner? i p = some w) :
      False := by
    simp [winner?_eq, winners] at won
  have nothing {i : ExprId} {p : PhysicalProperty} {d : Delivery K}
    (hd : m.delivery? i p = some d) :
      False := by
    simp [delivery?, deliveries] at hd
  exact ⟨filed, fun _ hd => (nothing hd).elim, fun hd => (nothing hd).elim, fun hd =>
    (nothing hd).elim, fun won => (none won).elim, fun won => (none won).elim⟩

end Booked

end Memo

end QueryOptimizer
