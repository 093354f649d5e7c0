import QueryOptimizer.Proofs.Memo.Rank
import QueryOptimizer.Proofs.Memo.Winners
import QueryOptimizer.Proofs.Number.Quantity

/-!
# Winners that are founded

Nothing is rounded in the books of winners, which is why they show that no plan contains
itself. But no plan does where costs are rounded either, and where some of them are no numbers.

What an expression requires of its inputs is in groups of lower ranks, unless the expression is
an enforcer, which stands on a goal of its own group. If enforcers stand on rows that have not
been copied, their costs are amounts, so they cost no less than what they stand on, and an
offer only replaces what costs strictly more. A broadcast copies rows, and its cost may be no
number. Then nothing is known about the order of costs, and a cheap winner may be replaced. But
whatever stands on copied rows is itself about copied rows, sorted ones. So goals have levels,
and goals of positive levels are founded because of them (`Memo.Founded`).

Where copies are read from a table, they need not be made, and all goals of the
group have level zero.

## Main results

* `Memo.Founded.offer`: winners stay founded when a delivery is offered that
  stands on founded ones.
* `Memo.Founded.fills`: so they do when expressions are entered.
-/

namespace QueryOptimizer

/-! ### Levels -/

/-- Whether every segment has a copy of the table that an operator reads. -/
def Operator.readsCopies : Operator → Bool
  | logical (.get s) | physical (.tableScan s) =>
    s.table.distributionOver s.cols == .replicated
  | logical (.dynamicGet s) | physical (.dynamicTableScan s) =>
    s.table.distributionOver s.cols == .replicated
  | _ => false

/-- How much is asked of copies that have to be made, which is nothing where copies are read.
Copied rows may have to be sorted. -/
def PhysicalProperty.level (read : Bool) (p : PhysicalProperty) : ℕ :=
  if read then 0 else if p.distribution == .replicated then
    if p.order.isEmpty then 1 else 2 else 0

/-- Matching properties are on one level. -/
theorem PhysicalProperty.level_congr {p q : PhysicalProperty} (same : (p == q) = true)
    (read : Bool) : p.level read = q.level read := by
  obtain ⟨d, o⟩ := p
  obtain ⟨d', o'⟩ := q
  obtain ⟨distribution, order⟩ := (Bool.and_eq_true _ _).mp same
  have copies : (d == .replicated) = (d' == .replicated) := by
    cases d <;> cases d' <;> first | rfl | cases distribution
  have empty : o.isEmpty = o'.isEmpty := by
    have length :=
      congrArg (fun o : SortOrder => o.keys.length) (SortOrder.beq_iff_bare.1 order)
    simp only [SortOrder.bare, List.length_map] at length
    rw [SortOrder.isEmpty, SortOrder.isEmpty, Bool.eq_iff_iff, List.isEmpty_iff_length_eq_zero,
      List.isEmpty_iff_length_eq_zero, length]
  simp only [level, copies, empty]

namespace Memo

variable {K : Type} {m m' : Memo K} {id : ExprId} {key : ExprKey} {p q : PhysicalProperty}
  {d : Delivery K}
  {w : Winner K} {goal below : Goal} {base : List LogicalOperator} {n : Nat}

/-- Whether the rows of a group are read from a table of which every segment has a copy. -/
def readsCopies (m : Memo K) (id : GroupId) : Bool :=
  (m.key? ⟨id, 0⟩).any (·.operator.readsCopies)

/-- The level of a goal. -/
def level (m : Memo K) (goal : Goal) : ℕ :=
  goal.2.level (m.readsCopies goal.1)

/-- Goals for matching properties are on one level. -/
theorem level_congr (same : (p == q) = true) (i : GroupId) : m.level (i, p) = m.level (i, q) :=
  PhysicalProperty.level_congr same _

/-- Bookkeeping does not change whether a group reads copies. -/
theorem readsCopies_like (like : m.Like m') (i : GroupId) :
    m'.readsCopies i = m.readsCopies i := by
  rw [readsCopies, readsCopies, like.key]

/-- A group reads copies or not for good. -/
theorem readsCopies_extends (h : m.Coherent) (extended : m.Extends m') {i : GroupId}
    (inside : i < m.groups.size) : m'.readsCopies i = m.readsCopies i := by
  obtain ⟨op, ids, hk⟩ := h.first i inside
  rw [readsCopies, readsCopies, extended.key _ _ hk, hk]

/-- Bookkeeping does not change the level of a goal. -/
theorem level_like (like : m.Like m') (goal : Goal) : m'.level goal = m.level goal := by
  rw [level, level, readsCopies_like like]

/-- A goal stays on its level when the memo grows. -/
theorem level_extends (h : m.Coherent) (extended : m.Extends m')
    (inside : goal.1 < m.groups.size) : m'.level goal = m.level goal := by
  rw [level, level, readsCopies_extends h extended inside]

/-- A group with a winner is in the memo. -/
theorem lt_of_winner? {i : GroupId} (won : m.winner? i p = some w) : i < m.groups.size := by
  obtain ⟨g, hg, -⟩ := Option.bind_eq_some_iff.1 won
  exact (Array.getElem?_eq_some_iff.1 hg).1

variable [Quantity K]

/-! ### Founded memos -/

/-- Whether an enforcer for a goal may stand on another goal: on a lower level, or on something
that costs no more. -/
def StandsOn (m : Memo K) (below goal : Goal) (cost : K) : Prop :=
  m.level below < m.level goal ∨
    m.level below = 0 ∧ m.level goal = 0 ∧
    ∃ w, m.winner? below.1 below.2 = some w ∧ w.cost ≤ cost

/-- Whether what is required for a delivery has winners, enforcers stand on goals as they may,
and the goals below a winner are founded. No cost is below zero. -/
structure Founded (m : Memo K) : Prop where
  supplied : ∀ {id key p d}, m.key? id = some key → m.delivery? id p = some d →
    ∀ g ∈ key.inputs.zip d.requires, ∃ w, m.winner? g.1 g.2 = some w
  stands : ∀ {id key p d}, m.key? id = some key → key.operator.isEnforcer = true →
    m.delivery? id p = some d → ∀ g ∈ key.inputs.zip d.requires,
    m.StandsOn g (id.group, p) d.cost
  amount : ∀ {id p d}, m.delivery? id p = some d → m.level (id.group, p) = 0 → 0.0 ≤ d.cost
  counted : ∀ {i p w}, m.winner? i p = some w → Quantity.NotNegative w.cost
  best : ∀ {id p d}, m.delivery? id p = some d →
    ∃ w, m.winner? id.group p = some w ∧ (m.level (id.group, p) = 0 → w.cost ≤ d.cost)
  attained : ∀ {i p w}, m.winner? i p = some w → w.expr.group = i ∧
    ∃ d, m.delivery? w.expr p = some d ∧ (m.level (i, p) = 0 → d.cost = w.cost)
  grounded : ∀ {goal w}, m.winner? goal.1 goal.2 = some w → m.Grounded goal

/-- Whether each goal that had a winner has one, which costs no more if no
copies have to be made. -/
def Sharpens (m m' : Memo K) : Prop :=
  ∀ goal w, m.winner? goal.1 goal.2 = some w →
    ∃ w', m'.winner? goal.1 goal.2 = some w' ∧ (m'.level goal = 0 → w'.cost ≤ w.cost)

namespace Founded

/-- A winner on the lowest level does not cost less than nothing. -/
theorem winner_amount (h : m.Founded) (won : m.winner? goal.1 goal.2 = some w)
    (plain : m.level goal = 0) : 0.0 ≤ w.cost := by
  obtain ⟨group, d, hd, same⟩ := h.attained won
  have amount : 0.0 ≤ d.cost := h.amount hd (group ▸ plain)
  exact same plain ▸ amount

/-- Winners are founded at the start of a search, when there are none. -/
theorem of_empty (deliveries : ∀ id, m.deliveries id = {})
    (winners : ∀ id, m.winners id = {}) :
    m.Founded := by
  have none {i : GroupId} {p : PhysicalProperty} {w : Winner K}
    (won : m.winner? i p = some w) :
      False := by
    simp [winner?_eq, winners] at won
  have nothing {i : ExprId} {p : PhysicalProperty} {d : Delivery K}
    (hd : m.delivery? i p = some d) :
      False := by
    simp [delivery?, deliveries] at hd
  exact ⟨fun _ hd => (nothing hd).elim, fun _ _ hd => (nothing hd).elim, fun hd =>
    (nothing hd).elim, fun won => (none won).elim, fun hd => (nothing hd).elim, fun won =>
      (none won).elim,
    fun won => (none won).elim⟩

end Founded

variable [OrderedQuantity K]

/-! ### Offers -/

section Offer

variable (h : m.Founded) (ranked : m.Ranked base n) (hkey : m.key? id = some key)
  (supplied : ∀ g ∈ key.inputs.zip d.requires, ∃ w, m.winner? g.1 g.2 = some w)
  (stands : key.operator.isEnforcer = true → ∀ g ∈ key.inputs.zip d.requires,
    m.StandsOn g (id.group, p) d.cost)
  (amount : m.level (id.group, p) = 0 → 0.0 ≤ d.cost)

section Winners

include h hkey amount

/-- Where costs are amounts, an offer replaces a winner by one that costs no more. -/
theorem Founded.sharpens_offer : m.Sharpens (m.offer id p d) := by
  intro goal w hw
  rw [level_like (.offer m id p d)]
  by_cases replaced : id.group = goal.1 ∧ (p == goal.2) = true ∧ ¬w.cost ≤ d.cost
  · obtain ⟨here, same, dear⟩ := replaced
    refine ⟨⟨d.cost, id⟩,
      (winner?_offer_eq_some hkey).2 (.inr ⟨here, same, rfl, fun old hold => ?_⟩),
      fun plain => ?_⟩
    · obtain rfl := Option.some.inj (hw.symm.trans hold)
      exact dear
    · have offered : 0.0 ≤ d.cost := amount ((level_congr same _).trans (here ▸ plain))
      exact (OrderedQuantity.le_total (h.winner_amount hw plain) offered).resolve_left dear
  · exact ⟨w, (winner?_offer_eq_some hkey).2 (.inl ⟨hw, fun here same =>
      not_not.1 fun dear => replaced ⟨here, same, dear⟩⟩), fun plain =>
        Quantity.le_refl_of_nonneg (h.winner_amount hw plain)⟩

omit h in
/-- After an offer there is a winner, which costs no more than what was offered. -/
theorem exists_winner_offer (same : (p == q) = true) :
    ∃ w, (m.offer id p d).winner? id.group q = some w ∧
    (m.level (id.group, q) = 0 → w.cost ≤ d.cost) := by
  have taken (dear : ∀ old, m.winner? id.group q = some old → ¬old.cost ≤ d.cost) :
      ∃ w, (m.offer id p d).winner? id.group q = some w ∧
        (m.level (id.group, q) = 0 → w.cost ≤ d.cost) :=
    ⟨⟨d.cost, id⟩, (winner?_offer_eq_some hkey).2 (.inr ⟨rfl, same, rfl, dear⟩), fun plain =>
      Quantity.le_refl_of_nonneg (amount ((level_congr same _).trans plain))⟩
  cases hw : m.winner? id.group q with
  | none => exact taken fun old hold => by simp [hw] at hold
  | some w =>
    by_cases cheap : w.cost ≤ d.cost
    · exact ⟨w, (winner?_offer_eq_some hkey).2 (.inl ⟨hw, fun _ _ => cheap⟩), fun _ => cheap⟩
    · refine taken fun old hold => ?_
      obtain rfl := Option.some.inj (hw.symm.trans hold)
      exact cheap

omit amount in
/-- A winner after an offer has a delivery, on the lowest level at its own cost. -/
theorem Founded.attained_offer {i : GroupId} (won : (m.offer id p d).winner? i q = some w) :
    w.expr.group = i ∧ ∃ d', (m.offer id p d).delivery? w.expr q = some d' ∧
      (m.level (i, q) = 0 → d'.cost = w.cost) := by
  rcases (winner?_offer_eq_some hkey).1 won with ⟨hw, cheap⟩ | ⟨here, same, rfl, dear⟩
  · obtain ⟨group, d₀, hd₀, cost⟩ := h.attained hw
    refine ⟨group, ?_⟩
    by_cases kept : id = w.expr → (p == q) = true → d₀.cost ≤ d.cost
    · exact ⟨d₀, (delivery?_offer_eq_some hkey).2 (.inl ⟨hd₀, kept⟩), cost⟩
    · push Not at kept
      obtain ⟨place, same, dear⟩ := kept
      refine ⟨d,
        (delivery?_offer_eq_some hkey).2 (.inr ⟨place, same, rfl, fun old hold => ?_⟩),
        fun plain => ?_⟩
      · obtain rfl := Option.some.inj (hd₀.symm.trans hold)
        exact dear
      · exact absurd (cost plain ▸ cheap (place ▸ group) same) dear
  · refine ⟨here, ?_⟩
    by_cases kept : ∃ old, m.delivery? id q = some old ∧ old.cost ≤ d.cost
    · obtain ⟨old, hold, cheap⟩ := kept
      refine ⟨old, (delivery?_offer_eq_some hkey).2 (.inl ⟨hold, fun _ _ => cheap⟩),
        fun plain => ?_⟩
      obtain ⟨w, hw, le⟩ := h.best hold
      exact absurd (OrderedQuantity.le_trans (le (here ▸ plain)) cheap) (dear w (here ▸ hw))
    · push Not at kept
      exact ⟨d, (delivery?_offer_eq_some hkey).2 (.inr ⟨rfl, same, rfl, kept⟩), fun _ => rfl⟩

end Winners

/-- Whether a goal is below any delivery that costs so much, of the goal `(i, p)`. -/
def Under (m : Memo K) (i : GroupId) (p : PhysicalProperty) (cost : K) (goal : Goal) : Prop :=
  m.rank goal.1 < m.rank i ∨ goal.1 = i ∧ m.StandsOn goal (i, p) cost

section Below

include h ranked hkey

/-- Goals below an offer stay as they are, with all that is below them. -/
theorem Founded.grounded_offer_of_under (grounded : m.Grounded goal)
    (under : m.Under id.group p d.cost goal) : (m.offer id p d).Grounded goal := by
  have like : m.Like (m.offer id p d) := .offer m id p d
  induction grounded with
  | @winner goal w key' d₀ won hkey' delivers _ ih =>
    obtain ⟨group, d₁, hd₁, cost⟩ := h.attained won
    obtain rfl := Option.some.inj (delivers.symm.trans hd₁)
    -- The goal of the offer itself is under the offer only if its winner stays.
    have spared : id.group = goal.1 → (p == goal.2) = true → w.cost ≤ d.cost ∧
        d₀.cost ≤ d.cost := by
      intro here same
      have level : m.level (id.group, p) = m.level goal :=
        (level_congr same _).trans (by rw [here])
      rcases under with lower | ⟨-, less | ⟨plain, -, w', hw', cheap⟩⟩
      · exact absurd lower (by rw [here]; exact lt_irrefl _)
      · exact absurd less (by rw [level]; exact lt_irrefl _)
      · obtain rfl := Option.some.inj (won.symm.trans hw')
        exact ⟨cheap, cost plain ▸ cheap⟩
    refine .winner
      ((winner?_offer_eq_some hkey).2 (.inl ⟨won, fun here same => (spared here same).1⟩))
      ((like.key _).trans hkey')
      ((delivery?_offer_eq_some hkey).2 (.inl ⟨delivers, fun place same =>
        (spared (place ▸ group) same).2⟩)) fun g hg => ih g hg ?_
    by_cases enforces : key'.operator.isEnforcer = true
    · have sameGroup : g.1 = goal.1 := by
        have mem := (List.of_mem_zip hg).1
        rw [ranked.enforcer hkey' enforces, List.mem_singleton] at mem
        exact mem.trans group
      refine under.imp (fun lower => sameGroup ▸ lower) fun ⟨here, on⟩ =>
        ⟨sameGroup.trans here, ?_⟩
      rcases h.stands hkey' enforces delivers g hg with less | ⟨plain, plain', w', hw', cheap⟩
      · rw [group] at less
        rcases on with less' | ⟨zero, -⟩
        · exact .inl (less.trans less')
        · exact absurd less (by rw [zero]; exact Nat.not_lt_zero _)
      · rw [group] at plain'
        rcases on with less' | ⟨-, zero, w'', hw'', cheap'⟩
        · exact .inl (plain ▸ plain' ▸ less')
        · obtain rfl := Option.some.inj (won.symm.trans hw'')
          exact .inr
            ⟨plain, zero, w', hw', OrderedQuantity.le_trans cheap (cost plain' ▸ cheap')⟩
    · have lower : m.rank g.1 < m.rank goal.1 :=
        group ▸ ranked.descends hkey' (Bool.eq_false_iff.2 enforces) _ (List.of_mem_zip hg).1
      rcases under with lower' | ⟨here, -⟩
      · exact .inl (lower.trans lower')
      · exact .inl (here ▸ lower)

include supplied stands amount

/-- The goal of an offer is founded afterwards, whether the offer was taken or not. -/
theorem Founded.grounded_offer_self (here : id.group = goal.1) (same : (p == goal.2) = true)
    (won : (m.offer id p d).winner? goal.1 goal.2 = some w) :
    (m.offer id p d).Grounded goal := by
  have like : m.Like (m.offer id p d) := .offer m id p d
  have level : m.level (id.group, p) = m.level goal :=
    (level_congr same _).trans (by rw [here])
  obtain ⟨group, d', delivers, cost⟩ := h.attained_offer hkey won
  obtain ⟨key', hkey'⟩ := exists_key?_of_delivery? delivers
  refine .winner won hkey' delivers fun g hg => ?_
  rw [like.key] at hkey'
  have ranks (plain : key'.operator.isEnforcer = false) : m.rank g.1 < m.rank id.group :=
    here ▸ group ▸ ranked.descends hkey' plain _ (List.of_mem_zip hg).1
  suffices below : (∃ w, m.winner? g.1 g.2 = some w) ∧ m.Under id.group p d.cost g by
    obtain ⟨⟨w, hw⟩, under⟩ := below
    exact h.grounded_offer_of_under ranked hkey (h.grounded hw) under
  rcases (delivery?_offer_eq_some hkey).1 delivers with ⟨old, -⟩ | ⟨place, -, rfl, -⟩
  · refine ⟨h.supplied hkey' old g hg, ?_⟩
    by_cases enforces : key'.operator.isEnforcer = true
    · have sameGroup : g.1 = id.group := by
        have mem := (List.of_mem_zip hg).1
        rw [ranked.enforcer hkey' enforces, List.mem_singleton] at mem
        exact mem.trans (group.trans here.symm)
      refine .inr ⟨sameGroup, ?_⟩
      rcases h.stands hkey' enforces old g hg with less | ⟨plain, plain', w', hw', cheap⟩
      · rw [group] at less
        exact .inl (level ▸ less)
      · rw [group] at plain'
        refine .inr ⟨plain, level.trans plain', w', hw', ?_⟩
        -- What the winner costs is no more than what was offered.
        have offered : w.cost ≤ d.cost := by
          obtain ⟨w', hw', le⟩ := exists_winner_offer hkey amount same
          obtain rfl := Option.some.inj ((here ▸ hw').symm.trans won)
          exact le (here ▸ plain')
        exact OrderedQuantity.le_trans cheap (cost plain' ▸ offered)
    · exact .inl (ranks (Bool.eq_false_iff.2 enforces))
  · obtain rfl := Option.some.inj ((place ▸ hkey).symm.trans hkey')
    refine ⟨supplied g hg, ?_⟩
    by_cases enforces : key.operator.isEnforcer = true
    · have mem := (List.of_mem_zip hg).1
      rw [ranked.enforcer hkey enforces, List.mem_singleton] at mem
      exact .inr ⟨mem, stands enforces g hg⟩
    · exact .inl (ranks (Bool.eq_false_iff.2 enforces))

/-- A goal that has a plan still has one after an offer. -/
theorem Founded.grounded_offer (grounded : m.Grounded goal) :
    (m.offer id p d).Grounded goal := by
  have like : m.Like (m.offer id p d) := .offer m id p d
  induction grounded with
  | @winner goal w key' d₀ won hkey' delivers _ ih =>
    by_cases touched : id.group = goal.1 ∧ (p == goal.2) = true
    · obtain ⟨w', hw', -⟩ := h.sharpens_offer hkey amount goal w won
      exact h.grounded_offer_self ranked hkey supplied stands amount touched.1 touched.2 hw'
    · obtain ⟨group, -⟩ := h.attained won
      exact .winner
        ((winner?_offer_eq_some hkey).2
            (.inl ⟨won, fun here same => absurd ⟨here, same⟩ touched⟩))
              ((like.key _).trans hkey')
              ((delivery?_offer_eq_some hkey).2 (.inl ⟨delivers, fun place same =>
          absurd ⟨place ▸ group, same⟩ touched⟩)) ih

/-- Winners stay founded when a delivery is offered for which founded winners are required, and
which stands on them as it may if it is that of an enforcer. -/
theorem Founded.offer (counted : Quantity.NotNegative d.cost) : (m.offer id p d).Founded := by
  have like : m.Like (m.offer id p d) := .offer m id p d
  have level : ∀ goal, (m.offer id p d).level goal = m.level goal := level_like like
  have sharpens : m.Sharpens (m.offer id p d) := h.sharpens_offer hkey amount
  have later {g : Goal} (won : ∃ w, m.winner? g.1 g.2 = some w) :
      ∃ w, (m.offer id p d).winner? g.1 g.2 = some w := by
    obtain ⟨w, hw⟩ := won
    obtain ⟨w', hw', -⟩ := sharpens g w hw
    exact ⟨w', hw'⟩
  have still {g goal : Goal} {cost : K} (on : m.StandsOn g goal cost) :
      (m.offer id p d).StandsOn g goal cost := by
    unfold StandsOn
    simp only [level]
    refine on.imp_right fun ⟨plain, plain', w, hw, cheap⟩ => ⟨plain, plain', ?_⟩
    obtain ⟨w', hw', le⟩ := sharpens g w hw
    exact ⟨w', hw', OrderedQuantity.le_trans (le ((level g).trans plain)) cheap⟩
  refine ⟨fun {i k q d'} hk hd' g hg => ?_, fun {i k q d'} hk enforces hd' g hg => ?_,
    fun {i q d'} hd' plain => ?_, fun {i q w} won => ?_, fun {i q d'} hd' =>
      ?_, fun {i q w} won => ?_,
    fun {goal w} won => ?_⟩
  · rw [like.key] at hk
    rcases (delivery?_offer_eq_some hkey).1 hd' with ⟨old, -⟩ | ⟨rfl, -, rfl, -⟩
    · exact later (h.supplied hk old g hg)
    · obtain rfl := Option.some.inj (hkey.symm.trans hk)
      exact later (supplied g hg)
  · rw [like.key] at hk
    rcases (delivery?_offer_eq_some hkey).1 hd' with ⟨old, -⟩ | ⟨rfl, same, rfl, -⟩
    · exact still (h.stands hk enforces old g hg)
    · obtain rfl := Option.some.inj (hkey.symm.trans hk)
      have on := stands enforces g hg
      unfold StandsOn at on
      rw [level_congr same] at on
      exact still on
  · rw [level] at plain
    rcases (delivery?_offer_eq_some hkey).1 hd' with ⟨old, -⟩ | ⟨rfl, same, rfl, -⟩
    · exact h.amount old plain
    · exact amount ((level_congr same _).trans plain)
  · rcases (winner?_offer_eq_some hkey).1 won with ⟨old, -⟩ | ⟨-, -, rfl, -⟩
    · exact h.counted old
    · exact counted
  · simp only [level]
    rcases (delivery?_offer_eq_some hkey).1 hd' with ⟨old, -⟩ | ⟨rfl, same, rfl, -⟩
    · obtain ⟨w, hw, le⟩ := h.best old
      obtain ⟨w', hw', le'⟩ := sharpens (i.group, q) w hw
      exact ⟨w', hw', fun plain =>
        OrderedQuantity.le_trans (le' ((level _).trans plain)) (le plain)⟩
    · exact exists_winner_offer hkey amount same
  · simp only [level]
    exact h.attained_offer hkey won
  · by_cases touched : id.group = goal.1 ∧ (p == goal.2) = true
    · exact h.grounded_offer_self ranked hkey supplied stands amount touched.1 touched.2 won
    · rcases (winner?_offer_eq_some hkey).1 won with ⟨old, -⟩ | ⟨here, same, -⟩
      · exact h.grounded_offer ranked hkey supplied stands amount (h.grounded old)
      · exact absurd ⟨here, same⟩ touched

end Below

end Offer

/-! ### Other changes -/

/-- Winners stay founded when expressions are entered. -/
theorem Founded.fills (h : m.Founded) (coherent : m.Coherent) (fills : m.Fills m') :
    m'.Founded ∧ m.Sharpens m' := by
  have winner (i : GroupId) (p : PhysicalProperty) : m'.winner? i p = m.winner? i p := by
    rw [winner?_eq, winner?_eq, fills.winners]
  have delivery (i : ExprId) (p : PhysicalProperty) : m'.delivery? i p = m.delivery? i p := by
    rw [delivery?, delivery?, fills.deliveries]
  have known {i : ExprId} {k : ExprKey} {p : PhysicalProperty} {d : Delivery K}
      (hk : m'.key? i = some k) (hd : m.delivery? i p = some d) : m.key? i = some k := by
    obtain ⟨k', hk'⟩ := exists_key?_of_delivery? hd
    obtain rfl := Option.some.inj ((fills.extended.key _ _ hk').symm.trans hk)
    exact hk'
  have level {i : GroupId} {p : PhysicalProperty} {w : Winner K}
    (won : m.winner? i p = some w) :
      m'.level (i, p) = m.level (i, p) :=
        level_extends coherent fills.extended (lt_of_winner? won)
  have sharpens : m.Sharpens m' := fun goal w hw => ⟨w, (winner _ _).trans hw, fun plain =>
    Quantity.le_refl_of_nonneg (h.winner_amount hw ((level hw).symm.trans plain))⟩
  refine ⟨⟨fun {i k p d} hk hd g hg => ?_, fun {i k p d} hk enforces hd g hg =>
    ?_, fun {i p d} hd plain => ?_, fun {i p w} won => h.counted ((winner _ _).symm.trans won),
      fun {i p d} hd => ?_, fun {i p w} won => ?_,
    fun {goal w} won => ?_⟩, sharpens⟩
  · rw [delivery] at hd
    simpa only [winner] using h.supplied (known hk hd) hd g hg
  · rw [delivery] at hd
    obtain ⟨w, hw⟩ := h.supplied (known hk hd) hd g hg
    obtain ⟨w', hw', -⟩ := h.best hd
    unfold StandsOn
    rw [show m'.level g = m.level g from level hw, level hw', winner]
    exact h.stands (known hk hd) enforces hd g hg
  · rw [delivery] at hd
    obtain ⟨w, hw, -⟩ := h.best hd
    exact h.amount hd ((level hw).symm.trans plain)
  · rw [delivery] at hd
    obtain ⟨w, hw, le⟩ := h.best hd
    exact ⟨w, (winner _ _).trans hw, fun plain => le ((level hw).symm.trans plain)⟩
  · rw [winner] at won
    obtain ⟨group, d, hd, same⟩ := h.attained won
    exact ⟨group, d, (delivery _ _).trans hd, fun plain =>
      same ((level won).symm.trans plain)⟩
  · have grounded := h.grounded ((winner _ _).symm.trans won)
    clear won
    induction grounded with
    | winner won hkey delivers _ ih =>
      exact .winner ((winner _ _).trans won) (fills.extended.key _ _ hkey)
        ((delivery _ _).trans delivers) ih

end Memo

end QueryOptimizer
