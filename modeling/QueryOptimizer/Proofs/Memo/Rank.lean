import Mathlib.Data.Prod.Lex
import Mathlib.Order.WellFounded
import QueryOptimizer.Proofs.Memo.Coherence
import QueryOptimizer.Proofs.Rule.Vocabulary

/-!
# Ranks of groups

The rank of a group is the weight of the tree that it was started with, and, among groups of
one weight, the number of limits at the top of the tree. In a ranked memo it is the weight of
every logical expression of the group, and it is greater than the ranks of the inputs of every
expression but an enforcer. So optimizing inputs leads to smaller and smaller ranks.

## Main results

* `Memo.Ranked.addExpr`: an expression that ranks as high as a group can be added to it.
* `Memo.Ranked.startGroup`: a group can be started with an expression that is not too heavy.
-/

namespace QueryOptimizer

/-- The rank of an operator over inputs with ranks. -/
def Operator.rankOver (op : Operator) (below : List (ℕ ×ₗ ℕ)) : ℕ ×ₗ ℕ :=
  toLex (op.weight + (below.map fun r => (ofLex r).1).sum,
    match op with
    | .logical (.limit _) => (below.map fun r => (ofLex r).2).sum + 1
    | _ => 0)

theorem Operator.fst_rankOver (op : Operator) (below : List (ℕ ×ₗ ℕ)) :
    (ofLex (op.rankOver below)).1 = op.weight + (below.map fun r => (ofLex r).1).sum := rfl

/-- A logical operator ranks higher than its inputs. -/
theorem LogicalOperator.lt_rankOver {op : LogicalOperator} {below : List (ℕ ×ₗ ℕ)} {r : ℕ ×ₗ ℕ}
    (h : r ∈ below) : r < (Operator.logical op).rankOver below := by
  have weight : (ofLex r).1 ≤ (below.map fun r => (ofLex r).1).sum :=
    List.single_le_sum (fun _ _ => Nat.zero_le _) _ (List.mem_map_of_mem h)
  have depth : (ofLex r).2 ≤ (below.map fun r => (ofLex r).2).sum :=
    List.single_le_sum (fun _ _ => Nat.zero_le _) _ (List.mem_map_of_mem h)
  refine Prod.Lex.lt_iff.2 ?_
  cases limited : op.isLimit with
  | false =>
    exact .inl (Nat.lt_of_le_of_lt weight (Nat.lt_add_of_pos_left (weight_pos limited)))
  | true =>
    cases op with
    | limit l =>
      refine (Nat.lt_or_eq_of_le weight).imp (fun lt => ?_) fun eq =>
        ⟨?_, Nat.lt_succ_of_le depth⟩
      · exact Nat.lt_of_lt_of_le lt (Nat.le_add_left _ _)
      · exact eq.trans (Nat.zero_add _).symm
    | _ => cases limited

namespace Memo

variable {K : Type} {m m' m'' : Memo K} {place : ExprId} {key : ExprKey}

/-- The rank of a group: that of the expression which the group begins with. -/
def rank (m : Memo K) (id : GroupId) : ℕ ×ₗ ℕ :=
  match m.key? ⟨id, 0⟩ with
  | some k =>
    k.operator.rankOver (k.inputs.map fun i => if _ : i < id then rank m i else toLex (0, 0))
  | none => toLex (0, 0)
termination_by id

/-- The weight of a group. -/
def weight (m : Memo K) (id : GroupId) : ℕ :=
  (ofLex (m.rank id)).1

/-- The rank of a group is that of its first expression. -/
theorem rank_eq {id : GroupId} {k : ExprKey} (hk : m.key? ⟨id, 0⟩ = some k)
    (below : ∀ i ∈ k.inputs, i < id) :
    m.rank id = k.operator.rankOver (k.inputs.map m.rank) := by
  rw [rank, hk]
  exact congrArg k.operator.rankOver (List.map_congr_left fun i hi => dif_pos (below i hi))

/-- The rank of a group depends on the expressions that it and earlier groups begin with. -/
theorem rank_congr {id : GroupId} (same : ∀ i ≤ id, m'.key? ⟨i, 0⟩ = m.key? ⟨i, 0⟩) :
    m'.rank id = m.rank id := by
  induction id using Nat.strongRecOn with
  | ind id ih =>
    rw [rank, rank, same id (Nat.le_refl _)]
    split
    · refine congrArg _ (List.map_congr_left fun i _ => ?_)
      split
      · rename_i lt
        exact ih i lt fun j hj => same j (hj.trans (Nat.le_of_lt lt))
      · rfl
    · rfl

/-! ### Ranked memos -/

/-- Whether the groups of a memo have the ranks of their expressions, whose
operators come from `base`. -/
structure Ranked (base : List LogicalOperator) (n : Nat) (m : Memo K) :
    Prop extends m.Coherent where
  below : ∀ {id k}, m.key? ⟨id, 0⟩ = some k → ∀ i ∈ k.inputs, i < id
  saturated : m.Saturated
  coined : ∀ {place op ids}, m.key? place = some ⟨.logical op, ids⟩ → op.Coined base n
  weighs : m.Weighs m.weight
  bounded : ∀ id, m.weight id ≤ n
  descends : ∀ {place k}, m.key? place = some k → k.operator.isEnforcer = false →
    ∀ i ∈ k.inputs, m.rank i < m.rank place.group

variable {base : List LogicalOperator} {n : Nat}

/-- What is no group of the memo has the lowest rank. -/
theorem rank_of_size_le {id : GroupId} (h : m.groups.size ≤ id) :
    m.rank id = toLex (0, 0) := by
  have none : m.key? ⟨id, 0⟩ = none := Option.eq_none_iff_forall_ne_some.2 fun k hk =>
    absurd (lt_of_key? hk) (Nat.not_lt_of_le h)
  rw [rank, none]

/-- A memo with the same expressions at the same places. -/
theorem Ranked.of_keys (h : m.Ranked base n) (coherent : m'.Coherent)
    (keys : ∀ place, m'.key? place = m.key? place) : m'.Ranked base n := by
  have ranks (id : GroupId) : m'.rank id = m.rank id := rank_congr fun i _ => keys _
  have weights : m'.weight = m.weight := funext fun id => congrArg (ofLex · |>.1) (ranks id)
  refine ⟨coherent, ?_, ?_, ?_, ?_, ?_, ?_⟩
  · exact fun hk => h.below ((keys _).symm.trans hk)
  · exact fun place k hk => h.saturated place k ((keys _).symm.trans hk)
  · exact fun hk => h.coined ((keys _).symm.trans hk)
  · rw [weights]
    exact fun hk => h.weighs ((keys _).symm.trans hk)
  · rw [weights]
    exact h.bounded
  · simp only [ranks]
    exact fun hk => h.descends ((keys _).symm.trans hk)

namespace Ranked

/-- Bookkeeping keeps a memo ranked. -/
theorem like (h : m.Ranked base n) (like : m.Like m') : m'.Ranked base n :=
  h.of_keys (h.toCoherent.like like) like.key

/-- Groups keep their ranks. -/
theorem rank_extends (h : m.Ranked base n) (extended : m.Extends m') {id : GroupId}
    (inside : id < m.groups.size) : m'.rank id = m.rank id := by
  refine rank_congr fun i hi => ?_
  obtain ⟨op, ids, hk⟩ := h.first i (Nat.lt_of_le_of_lt hi inside)
  rw [extended.key _ _ hk, hk]

/-- A group keeps its weight when the memo grows. -/
theorem weight_extends (h : m.Ranked base n) (extended : m.Extends m') {id : GroupId}
    (inside : id < m.groups.size) : m'.weight id = m.weight id :=
  congrArg (ofLex · |>.1) (h.rank_extends extended inside)

/-- An expression that ranks as high as its group can be added to it. -/
theorem addExpr (h : m.Ranked base n) (new : m.index[key]? = none) {id : GroupId}
    (added : m.addExpr id key = .ok (m', place)) (inside : ∀ i ∈ key.inputs, i < m.groups.size)
    (enforcer : key.operator.isEnforcer = true → key.inputs = [id]) (saturated : key.Saturated)
    (descends : key.operator.isEnforcer = false → ∀ i ∈ key.inputs, m.rank i < m.rank id)
    (logical : ∀ op, key.operator = .logical op → op.Coined base n ∧
      m.weight id = op.weight + (key.inputs.map m.weight).sum) : m'.Ranked base n := by
  have group : place.group = id := group_of_addExpr added
  have there : id < m.groups.size := by
    rw [← group, ← size_addExpr added]
    exact lt_of_key? ((key?_addExpr added place).trans (if_pos rfl))
  have later (i : GroupId) : (⟨i, 0⟩ : ExprId) ≠ place := by
    rintro rfl
    obtain ⟨op, ids, hk⟩ := h.first id there
    rw [← group, key?_place_of_addExpr added] at hk
    cases hk
  have firsts (i : GroupId) : m'.key? ⟨i, 0⟩ = m.key? ⟨i, 0⟩ := by
    rw [key?_addExpr added, if_neg (later i)]
  have ranks (i : GroupId) : m'.rank i = m.rank i := rank_congr fun j _ => firsts j
  have weights : m'.weight = m.weight := funext fun i => congrArg (ofLex · |>.1) (ranks i)
  refine ⟨h.toCoherent.addExpr new added inside enforcer, fun {i k} hk => ?_, fun i k hk => ?_,
    fun {i op ids} hk => ?_, fun {i op ids} hk => ?_, fun i => ?_, fun {i k} hk plain => ?_⟩
  · exact h.below ((firsts i).symm.trans hk)
  all_goals try rw [key?_addExpr added] at hk
  · split at hk
    · obtain rfl := Option.some.inj hk
      exact saturated
    · exact h.saturated i k hk
  · split at hk
    · obtain rfl := Option.some.inj hk
      exact (logical op rfl).1
    · exact h.coined hk
  · rw [weights]
    split at hk
    · rename_i here
      obtain rfl := Option.some.inj hk
      rw [here, group]
      exact (logical op rfl).2
    · exact h.weighs hk
  · rw [weights]
    exact h.bounded i
  · simp only [ranks]
    split at hk
    · rename_i here
      obtain rfl := Option.some.inj hk
      rw [here, group]
      exact descends plain
    · exact h.descends hk plain

/-- A group can be started with an expression that is not too heavy. It has the
rank of the expression. -/
theorem startGroup (h : m.Ranked base n) {op : LogicalOperator} {ids : List GroupId}
    {relation : Relation K} (new : m.index[(⟨.logical op, ids⟩ : ExprKey)]? = none)
    (below : ∀ i ∈ ids, i < m.groups.size) (saturated : ids.length = op.arity)
    (coined : op.Coined base n) (light : op.weight + (ids.map m.weight).sum ≤ n)
    (added : (m.addGroup op relation).addExpr m.groups.size ⟨.logical op, ids⟩ =
      .ok (m', place)) :
    m'.Ranked base n ∧
      m'.rank m.groups.size = (Operator.logical op).rankOver (ids.map m.rank) := by
  have start : place = ⟨m.groups.size, 0⟩ := place_of_startGroup m op relation added
  have extended : m.Extends m' := .startGroup m op relation below added
  have key (i : ExprId) : m'.key? i = if i = place then some ⟨.logical op, ids⟩
      else m.key? i := by
    rw [key?_addExpr added, key?_addGroup]
  have ranks {i : GroupId} (hi : i < m.groups.size) : m'.rank i = m.rank i :=
    h.rank_extends extended hi
  have rank : m'.rank m.groups.size = (Operator.logical op).rankOver (ids.map m.rank) := by
    have first : m'.key? ⟨m.groups.size, 0⟩ = some ⟨.logical op, ids⟩ := by
      rw [key, if_pos start.symm]
    rw [rank_eq first below]
    exact congrArg (Operator.logical op).rankOver
      (List.map_congr_left fun i hi => ranks (below i hi))
  have weight : m'.weight m.groups.size = op.weight + (ids.map m.weight).sum := by
    rw [Memo.weight, rank, Operator.fst_rankOver, List.map_map]
    rfl
  have weights {i : GroupId} (hi : i < m.groups.size) : m'.weight i = m.weight i :=
    h.weight_extends extended hi
  have sums {is : List GroupId} (hi : ∀ i ∈ is, i < m.groups.size) :
      is.map m'.weight = is.map m.weight := List.map_congr_left fun i mem => weights (hi i mem)
  refine ⟨⟨h.toCoherent.startGroup new below added, fun {i k} hk => ?_, fun i k hk => ?_,
    fun {i op' ids'} hk => ?_, fun {i op' ids'} hk => ?_, fun i =>
    ?_, fun {i k} hk plain => ?_⟩, rank⟩
  all_goals try (rw [key] at hk; split at hk)
  · rename_i here
    obtain rfl := Option.some.inj hk
    obtain rfl : i = m.groups.size := congrArg ExprId.group (here.trans start)
    exact below
  · exact h.below hk
  · obtain rfl := Option.some.inj hk
    exact saturated
  · exact h.saturated i k hk
  · cases hk
    exact coined
  · exact h.coined hk
  · rename_i here
    cases hk
    rw [here, start, weight, sums below]
  · rw [weights (lt_of_key? hk), sums (h.inputs hk)]
    exact h.weighs hk
  · by_cases old : i < m.groups.size
    · exact weights old ▸ h.bounded i
    · by_cases here : i = m.groups.size
      · rw [here, weight]
        exact light
      · have outside : m'.groups.size ≤ i := by
          rw [size_addExpr added, size_addGroup]
          exact Nat.lt_of_le_of_ne (Nat.le_of_not_lt old) (Ne.symm here)
        rw [Memo.weight, rank_of_size_le outside]
        exact Nat.zero_le _
  · rename_i here
    obtain rfl := Option.some.inj hk
    intro i hi
    rw [here, start, rank, ranks (below i hi)]
    exact LogicalOperator.lt_rankOver (List.mem_map_of_mem hi)
  · intro j hj
    rw [ranks (h.inputs hk j hj), ranks (lt_of_key? hk)]
    exact h.descends hk plain j hj

end Ranked

end Memo

end QueryOptimizer
