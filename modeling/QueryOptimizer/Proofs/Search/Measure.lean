import Mathlib.Data.Fintype.BigOperators
import Mathlib.Logic.Hydra
import Mathlib.Order.RelClasses
import QueryOptimizer.Proofs.Search.Ranked

/-!
# What a search has left to do

Applying a rule uses up a mark: the rule is not applied to the expression again. But it may
make new expressions with rules of their own, so the marks alone do not show that a search
ends. Three things are weighed against each other, one after the other.

* Rules about limits make limits on groups of lower and lower rank (`Memo.burden`).
* As long as there are no new limits, there is room for only so many other expressions, since
  ranked memos have finitely many operators over groups of lower weight (`Memo.room`).
* When nothing is added at all, there are fewer rules left to apply (`Memo.pending`).

## Main results

* `Memo.Ranked.card_plain_le`: a bound on the number of expressions that are no limits.
* `Memo.wellFounded_less`: work does not become less for ever.
* `Memo.Applies.declines`: applying a rule leaves less to do.
-/

namespace QueryOptimizer

/-- Every rule is listed. -/
theorem RuleId.mem_all (r : RuleId) : r ∈ RuleId.all := by
  cases r <;> decide

namespace Memo

variable {K : Type} {m m' m'' : Memo K} {base : List LogicalOperator} {n : Nat} {c : ℕ ×ₗ ℕ}

/-! ### Expressions and rules -/

/-- A memo has finitely many expressions. -/
theorem finite_places (m : Memo K) : {place | (m.key? place).isSome}.Finite := by
  have each (i : Nat) : {place : ExprId | place.group = i ∧ (m.key? place).isSome}.Finite := by
    refine ((Set.finite_lt_nat ((m.groups[i]?.elim 0 fun g => g.exprs.size))).image
      (ExprId.mk i)).subset ?_
    rintro ⟨_, index⟩ ⟨rfl, stored⟩
    refine ⟨index, ?_, rfl⟩
    obtain ⟨k, hk⟩ := Option.isSome_iff_exists.1 stored
    obtain ⟨e, he, -⟩ := exists_expr_of_key? hk
    obtain ⟨g, hg, he⟩ := expr_eq_ok.1 he
    simpa [hg] using (Array.getElem?_eq_some_iff.1 he).1
  refine ((Set.finite_lt_nat m.groups.size).biUnion fun i _ => each i).subset
    fun place stored => ?_
  obtain ⟨k, hk⟩ := Option.isSome_iff_exists.1 stored
  exact Set.mem_biUnion (lt_of_key? hk) ⟨rfl, stored⟩

/-- Whether there is a logical expression at a place whose operator is as `P` says. -/
def Logical (m : Memo K) (P : LogicalOperator → Prop) (place : ExprId) : Prop :=
  ∃ op ids, m.key? place = some ⟨.logical op, ids⟩ ∧ P op

/-- A memo has finitely many logical expressions of any kind. -/
theorem finite_logical (m : Memo K) (P : LogicalOperator → Prop) :
    {place | m.Logical P place}.Finite :=
  m.finite_places.subset fun _ ⟨_, _, hk, _⟩ => Option.isSome_iff_exists.2 ⟨_, hk⟩

/-- The places of limits. -/
noncomputable def limits (m : Memo K) : Finset ExprId :=
  (m.finite_logical fun op => op.isLimit = true).toFinset

/-- The places of logical expressions that are no limits. -/
noncomputable def plain (m : Memo K) : Finset ExprId :=
  (m.finite_logical fun op => op.isLimit = false).toFinset

/-- The places of limits are those of logical expressions with such an operator. -/
theorem mem_limits {place : ExprId} : place ∈ m.limits ↔ m.Logical (·.isLimit = true) place :=
  Set.Finite.mem_toFinset _

/-- The other places are those of logical expressions with another operator. -/
theorem mem_plain {place : ExprId} : place ∈ m.plain ↔ m.Logical (·.isLimit = false) place :=
  Set.Finite.mem_toFinset _

/-- Whether a rule has not been applied to a logical expression yet. -/
def Pending (m : Memo K) (p : ExprId × RuleId) : Prop :=
  m.Logical (fun _ => True) p.1 ∧ p.2 ∉ m.marks p.1

/-- There are finitely many rules left to apply. -/
theorem finite_pending (m : Memo K) : {p | m.Pending p}.Finite :=
  ((m.finite_logical fun _ => True).prod (List.finite_toSet RuleId.all)).subset
    fun p h => ⟨h.1, p.2.mem_all⟩

/-- The rules that are left to apply. -/
noncomputable def pending (m : Memo K) : Finset (ExprId × RuleId) :=
  m.finite_pending.toFinset

/-- The rules that are left to apply are those that have not been applied to an expression. -/
theorem mem_pending {p : ExprId × RuleId} : p ∈ m.pending ↔ m.Pending p :=
  Set.Finite.mem_toFinset _

/-! ### Room for expressions -/

/-- A bound on the number of expressions over operators in `ops` that weigh at most so much and
are no limits, if there are so many limits. -/
def capacity (ops : Finset LogicalOperator) (limits : ℕ) : ℕ → ℕ
  | 0 => 0
  | weight + 1 => ∑ op ∈ ops, (capacity ops limits weight + limits) ^ op.arity

/-- The operators of a search up to equality, apart from limits. -/
noncomputable def vocabulary (base : List LogicalOperator) (n : Nat) :
    Finset LogicalOperator :=
  (LogicalOperator.finite_coined base n).toFinset

/-- An operator of a search that is no limit is in its vocabulary. -/
theorem bare_mem_vocabulary {op : LogicalOperator} (coined : op.Coined base n)
    (plain : op.isLimit = false) : op.bare ∈ vocabulary base n :=
  (Set.Finite.mem_toFinset _).2 ⟨op, ⟨coined, plain⟩, rfl⟩

end Memo

/-- What matching ignores does not count for the number of inputs. -/
theorem LogicalOperator.arity_bare (op : LogicalOperator) : op.bare.arity = op.arity := by
  cases op with
  | setOp s => exact List.length_map _
  | _ => rfl

namespace Memo

variable {K : Type} {m m' m'' : Memo K} {base : List LogicalOperator} {n : Nat} {c : ℕ ×ₗ ℕ}

open Classical in
/-- A group begins with an expression that is as heavy as the group or with a limit. -/
theorem Ranked.card_groups_le (h : m.Ranked base n) (weight : ℕ) :
    ((Finset.range m.groups.size).filter (m.weight · ≤ weight)).card ≤
      (m.plain.filter (m.weight ·.group ≤ weight)).card + m.limits.card := by
  refine (Finset.card_le_card_of_injOn (fun i => (⟨i, 0⟩ : ExprId)) ?_ ?_).trans
    (Finset.card_union_le _ _)
  · intro i hi
    obtain ⟨inside, light⟩ := Finset.mem_filter.1 hi
    obtain ⟨op, ids, hk⟩ := h.first i (Finset.mem_range.1 inside)
    refine Finset.mem_union.2 ?_
    cases limited : op.isLimit with
    | false => exact .inl (Finset.mem_filter.2 ⟨mem_plain.2 ⟨op, ids, hk, limited⟩, light⟩)
    | true => exact .inr (mem_limits.2 ⟨op, ids, hk, limited⟩)
  · exact fun i _ j _ same => congrArg ExprId.group same

/-- What sets the expressions of a memo apart: the operator up to equality, and the inputs. -/
def bareKey? (m : Memo K) (place : ExprId) : Option (Operator × List GroupId) :=
  (m.key? place).map fun k => (k.operator.bare, k.inputs)

/-- What sets a logical expression apart from others. -/
theorem bareKey?_of_key? {place : ExprId} {op : LogicalOperator} {ids : List GroupId}
    (hk : m.key? place = some ⟨.logical op, ids⟩) :
    m.bareKey? place = some (.logical op.bare, ids) :=
  congrArg (Option.map fun k : ExprKey => (k.operator.bare, k.inputs)) hk

open Classical in
/-- There are finitely many operators over lighter groups. -/
theorem Ranked.card_plain_le (h : m.Ranked base n) (weight : ℕ) :
    (m.plain.filter (m.weight ·.group ≤ weight)).card ≤
      capacity (vocabulary base n) m.limits.card weight := by
  induction weight with
  | zero =>
    refine (Finset.card_eq_zero.2 (Finset.filter_eq_empty_iff.2 fun place mem light => ?_)).le
    obtain ⟨op, ids, hk, notLimit⟩ := mem_plain.1 mem
    have heavy := LogicalOperator.weight_pos notLimit
    rw [h.weighs hk] at light
    omega
  | succ weight ih =>
    set groups := (Finset.range m.groups.size).filter (m.weight · ≤ weight)
    let keys := (vocabulary base n).biUnion fun op =>
      (Fintype.piFinset fun _ : Fin op.arity => groups).image fun ids =>
        some (Operator.logical op, List.ofFn ids)
    have bound : keys.card ≤ ∑ op ∈ vocabulary base n, groups.card ^ op.arity := by
      refine Finset.card_biUnion_le.trans (Finset.sum_le_sum fun op _ => ?_)
      exact Finset.card_image_le.trans (Fintype.card_piFinset_const _ _).le
    refine (Finset.card_le_card_of_injOn m.bareKey? ?_ ?_).trans (bound.trans ?_)
    · intro place mem
      obtain ⟨mem, light⟩ := Finset.mem_filter.1 mem
      obtain ⟨op, ids, hk, notLimit⟩ := mem_plain.1 mem
      have length : ids.length = op.bare.arity := (h.saturated _ _ hk).trans op.arity_bare.symm
      rw [bareKey?_of_key? hk]
      refine Finset.mem_biUnion.2 ⟨op.bare, bare_mem_vocabulary (h.coined hk) notLimit,
        Finset.mem_image.2
        ⟨fun i => ids.get (i.cast length.symm), Fintype.mem_piFinset.2 fun i => ?_, ?_⟩⟩
      · have mem := ids.get_mem (i.cast length.symm)
        have le : m.weight (ids.get (i.cast length.symm)) ≤ (ids.map m.weight).sum :=
          List.single_le_sum (fun _ _ => Nat.zero_le _) _ (List.mem_map_of_mem mem)
        have heavy := LogicalOperator.weight_pos notLimit
        rw [h.weighs hk] at light
        exact Finset.mem_filter.2 ⟨Finset.mem_range.2 (h.inputs hk _ mem), by omega⟩
      · rw [Option.some.injEq, Prod.mk.injEq]
        refine ⟨rfl, List.ext_get (by simp [length]) fun i _ _ => ?_⟩
        simp
    · intro place mem place' mem' same
      obtain ⟨op, ids, hk, -⟩ := mem_plain.1 (Finset.mem_filter.1 mem).1
      obtain ⟨op', ids', hk', -⟩ := mem_plain.1 (Finset.mem_filter.1 mem').1
      rw [bareKey?_of_key? hk, bareKey?_of_key? hk', Option.some.injEq, Prod.mk.injEq] at same
      exact h.unique hk hk' (ExprKey.beq_iff.2 ⟨Operator.beq_iff_bare.2 same.1, same.2⟩)
    · rw [capacity]
      refine Finset.sum_le_sum fun op _ => Nat.pow_le_pow_left ?_ _
      exact (h.card_groups_le weight).trans (Nat.add_le_add_right ih _)

/-- How many more expressions that are no limits there can be. -/
noncomputable def room (base : List LogicalOperator) (n : Nat) (m : Memo K) : ℕ :=
  capacity (vocabulary base n) m.limits.card n - m.plain.card

/-- There are no more expressions that are no limits than there is room for. -/
theorem Ranked.card_plain_le_capacity (h : m.Ranked base n) :
    m.plain.card ≤ capacity (vocabulary base n) m.limits.card n := by
  classical
  have all := h.card_plain_le n
  rwa [Finset.filter_true_of_mem fun place _ => h.bounded place.group] at all

/-! ### The burden of limits -/

open Classical in
/-- The rules about limits that are left to apply to limits. -/
noncomputable def limitWork (m : Memo K) : Finset (ExprId × RuleId) :=
  m.pending.filter fun p => p.2.makesLimits = true ∧ p.1 ∈ m.limits

/-- What the inputs of limits rank below that a rule makes of the expression at a place. -/
def ceilingAt (m : Memo K) (p : ExprId × RuleId) : ℕ ×ₗ ℕ :=
  (m.key? p.1).elim (toLex (0, 0)) (m.ceiling p.2)

/-- How far down the limits can go that rules about limits may still make. -/
noncomputable def burden (m : Memo K) : Multiset (ℕ ×ₗ ℕ) :=
  m.limitWork.val.map m.ceilingAt

/-- What there is to do for limits. -/
theorem mem_limitWork {p : ExprId × RuleId} :
    p ∈ m.limitWork ↔ m.Pending p ∧ p.2.makesLimits = true ∧ p.1 ∈ m.limits := by
  rw [limitWork, Finset.mem_filter, mem_pending]

/-- What is left to do on a memo: the burden of limits first, then the room,
then the pending rules. -/
noncomputable def work (base : List LogicalOperator) (n : Nat) (m : Memo K) :
    Multiset (ℕ ×ₗ ℕ) × ℕ × ℕ :=
  (m.burden, m.room base n, m.pending.card)

/-- Whether there is less work than other work. -/
def Less : Multiset (ℕ ×ₗ ℕ) × ℕ × ℕ → Multiset (ℕ ×ₗ ℕ) × ℕ × ℕ → Prop :=
  Prod.Lex (Relation.CutExpand (· < ·)) (Prod.Lex (· < ·) (· < ·))

/-- Work does not become less for ever. -/
theorem wellFounded_less : WellFounded Less :=
  (wellFounded_lt.cutExpand).prod_lex (wellFounded_lt.prod_lex wellFounded_lt)

/-- Whether a memo leaves less to do than another one. -/
def Declines (base : List LogicalOperator) (n : Nat) (m m' : Memo K) : Prop :=
  Less (m'.work base n) (m.work base n)

/-! ### Applying a rule -/

/-- A limit in a ranked memo has one input. -/
theorem Ranked.key?_of_mem_limits (h : m.Ranked base n) {place : ExprId}
    (mem : place ∈ m.limits) : ∃ l i, m.key? place = some ⟨.logical (.limit l), [i]⟩ := by
  obtain ⟨op, ids, hk, limited⟩ := mem_limits.1 mem
  cases op with
  | limit l =>
    obtain ⟨i, rfl⟩ := List.length_eq_one_iff.1 (h.saturated _ _ hk)
    exact ⟨l, i, hk⟩
  | _ => cases limited

section Apply

/-- What is logical stays logical. -/
theorem Logical.extends {P : LogicalOperator → Prop} {place : ExprId} (h : m.Logical P place)
    (extended : m.Extends m') : m'.Logical P place := by
  obtain ⟨op, ids, hk, holds⟩ := h
  exact ⟨op, ids, extended.key _ _ hk, holds⟩

/-- A logical expression is new or was logical before. -/
theorem Logical.cases {P : LogicalOperator → Prop} {place : ExprId} (h : m'.Logical P place)
    (extended : m.Extends m') : m.Logical P place ∨ m.key? place = none := by
  obtain ⟨op, ids, hk, holds⟩ := h
  cases known : m.key? place with
  | none => exact .inr rfl
  | some k =>
    obtain rfl := Option.some.inj ((extended.key _ _ known).symm.trans hk)
    exact .inl ⟨op, ids, known, holds⟩

/-- A rule that is left to apply and makes no limits of an expression lets none come about. -/
theorem ceilingAt_of_notMem {p : ExprId × RuleId} (pending : m.Pending p)
    (notMem : p ∉ m.limitWork) : m.ceilingAt p = toLex (0, 0) := by
  have ⟨⟨op, ids, hk, _⟩, _⟩ := pending
  rw [ceilingAt, hk, Option.elim_some]
  unfold ceiling
  split
  · rename_i l i is same
    obtain ⟨rfl, rfl⟩ : op = .limit l ∧ ids = i :: is := by cases same; exact ⟨rfl, rfl⟩
    refine if_neg fun makes => notMem (mem_limitWork.2 ⟨pending, makes, ?_⟩)
    exact mem_limits.2 ⟨_, _, hk, rfl⟩
  · rfl

/-- What applying a rule to an expression makes of a memo. -/
structure Applies (base : List LogicalOperator) (n : Nat) (p : ExprId × RuleId)
    (m m' : Memo K) :
    Prop where
  extended : m.Extends m'
  ranked : m'.Ranked base n
  /-- The rule is left to apply to new expressions only. -/
  left : ∀ q, m'.Pending q ↔ (m'.Logical (fun _ => True) q.1 ∧ q.2 ∉ m.marks q.1) ∧ q ≠ p
  low : ∀ {place l ids}, m'.key? place = some ⟨.logical (.limit l), ids⟩ →
    m.key? place = none → ∀ i ∈ ids, m'.rank i < m.ceilingAt p

/-- When all bindings have been gone through, the expression is marked. -/
theorem Grafts.applies {id : ExprId} {rule : RuleId}
    (h : Grafts base n (m.ceilingAt (id, rule)) m m') {e : Expr K} (he : m'.expr id = .ok e) :
    Applies base n (id, rule) m
      (m'.modifyExpr id fun e => { e with applied := ⟨rule :: e.applied.ids⟩ }) := by
  have like :
      m'.Like (m'.modifyExpr id fun e => { e with applied := ⟨rule :: e.applied.ids⟩ }) :=
    .modifyExpr m' id fun _ => rfl
  refine ⟨h.extended.trans (.ofLike like), h.ranked.like like, fun q =>
    ?_, fun hk new i hi => ?_⟩
  · simp only [Pending, Logical, like.key, marks_mark he rule, h.marks]
    obtain ⟨place, r⟩ := q
    refine (and_congr_right fun _ => ?_).trans and_assoc.symm
    by_cases here : place = id
    · subst here
      simp [not_or, and_comm]
    · simp [here]
  · rw [rank_congr fun j _ => like.key ⟨j, 0⟩]
    exact h.limits ((like.key _).symm.trans hk) new i hi

namespace Applies

variable {p q : ExprId × RuleId} (h : m.Ranked base n) (applies : Applies base n p m m')
include applies

/-- Of the rules that were left to apply to known expressions, only one has been applied. -/
theorem mem_pending_iff (stored : m.key? q.1 ≠ none) :
    q ∈ m'.pending ↔ q ∈ m.pending ∧ q ≠ p := by
  rw [mem_pending, mem_pending, applies.left, Pending]
  refine and_congr_left fun _ => and_congr_left fun _ => ⟨fun logical => ?_, fun logical => ?_⟩
  · exact (logical.cases applies.extended).resolve_right stored
  · exact logical.extends applies.extended

/-- Known expressions are limits or not as before. -/
theorem mem_limits_iff {place : ExprId} (stored : m.key? place ≠ none) :
    place ∈ m'.limits ↔ place ∈ m.limits := by
  rw [mem_limits, mem_limits]
  exact ⟨fun limit => (limit.cases applies.extended).resolve_right stored,
    fun limit => limit.extends applies.extended⟩

omit applies in
/-- A rule is left to apply to an expression that the memo has. -/
theorem stored_of_mem_pending (mem : q ∈ m.pending) : m.key? q.1 ≠ none := by
  obtain ⟨⟨op, ids, hk, -⟩, -⟩ := mem_pending.1 mem
  exact Option.ne_none_iff_exists'.2 ⟨_, hk⟩

omit applies in
/-- A limit is an expression that the memo has. -/
theorem stored_of_mem_limits {place : ExprId} (mem : place ∈ m.limits) :
    m.key? place ≠ none := by
  obtain ⟨op, ids, hk, -⟩ := mem_limits.1 mem
  exact Option.ne_none_iff_exists'.2 ⟨_, hk⟩

include h in
/-- What a rule may make of a known expression is bounded as before. -/
theorem ceilingAt_eq (stored : m.key? q.1 ≠ none) : m'.ceilingAt q = m.ceilingAt q := by
  obtain ⟨k, hk⟩ := Option.ne_none_iff_exists'.1 stored
  rw [ceilingAt, ceilingAt, hk, applies.extended.key _ _ hk, Option.elim_some,
    Option.elim_some, h.ceiling_extends applies.extended hk]

open Classical in
include h in
/-- What is left to do with old limits, and what there is to do with new ones. -/
theorem burden_eq : m'.burden =
    (m'.limitWork.filter fun q => m.key? q.1 = none).val.map m'.ceilingAt +
      (m.limitWork.erase p).val.map m.ceilingAt := by
  have remaining : m'.limitWork.filter (fun q => m.key? q.1 ≠ none) = m.limitWork.erase p := by
    ext q
    simp only [Finset.mem_filter, Finset.mem_erase, limitWork]
    constructor
    · rintro ⟨⟨mem, makes, limit⟩, stored⟩
      obtain ⟨before, other⟩ := (applies.mem_pending_iff stored).1 mem
      exact ⟨other, before, makes, (applies.mem_limits_iff stored).1 limit⟩
    · rintro ⟨other, mem, makes, limit⟩
      have stored := stored_of_mem_pending mem
      exact ⟨⟨(applies.mem_pending_iff stored).2 ⟨mem, other⟩, makes,
        (applies.mem_limits_iff stored).2 limit⟩, stored⟩
  rw [burden, ← Multiset.filter_add_not (fun q : ExprId × RuleId => m.key? q.1 = none)
    m'.limitWork.val, Multiset.map_add, ← remaining]
  exact congrArg _ (Multiset.map_congr rfl fun q mem =>
    applies.ceilingAt_eq h (Finset.mem_filter.1 mem).2)

/-- The new limits are low. -/
theorem ceilingAt_lt (mem : q ∈ m'.limitWork) (new : m.key? q.1 = none) :
    m'.ceilingAt q < m.ceilingAt p := by
  obtain ⟨-, makes, limit⟩ := mem_limitWork.1 mem
  obtain ⟨l, i, hk⟩ := applies.ranked.key?_of_mem_limits limit
  rw [ceilingAt, hk, Option.elim_some, ceiling, if_pos makes]
  exact applies.low hk new i (List.mem_singleton_self i)

include h in
/-- A rule about limits that has been applied to a limit leaves a smaller burden. -/
theorem cutExpand_burden (work : p ∈ m.limitWork) :
    Relation.CutExpand (· < ·) m'.burden m.burden := by
  classical
  refine ⟨(m'.limitWork.filter fun q => m.key? q.1 = none).val.map m'.ceilingAt, m.ceilingAt p,
    fun a mem => ?_, ?_⟩
  · obtain ⟨q, chosen, rfl⟩ := Multiset.mem_map.1 mem
    obtain ⟨work, new⟩ := Finset.mem_filter.1 (Finset.mem_def.2 chosen)
    exact applies.ceilingAt_lt work new
  · have erased : (m.limitWork.erase p).val.map m.ceilingAt + {m.ceilingAt p} = m.burden := by
      rw [Finset.erase_val, ← Multiset.map_singleton, ← Multiset.map_add, add_comm,
        Multiset.singleton_add, Multiset.cons_erase work]
      rfl
    rw [applies.burden_eq h, add_assoc, erased, add_comm]

section Other

variable (zero : m.ceilingAt p = toLex (0, 0))
include zero

/-- A rule that makes no limits adds none. -/
theorem notMem_limits {place : ExprId} (new : m.key? place = none) :
    place ∉ m'.limits := fun mem => by
  obtain ⟨l, i, hk⟩ := applies.ranked.key?_of_mem_limits mem
  have low := applies.low hk new i (List.mem_singleton_self i)
  rw [zero] at low
  exact absurd low (by simp [Prod.Lex.lt_iff])

/-- A rule that makes no limits leaves the limits that there were. -/
theorem limits_eq : m'.limits = m.limits := by
  ext place
  by_cases stored : m.key? place = none
  · exact iff_of_false (applies.notMem_limits zero stored) fun mem =>
      stored_of_mem_limits mem stored
  · exact applies.mem_limits_iff stored

include h in
/-- A rule that makes no limits leaves the burden as it was. -/
theorem burden_eq_of_notMem (work : p ∉ m.limitWork) : m'.burden = m.burden := by
  classical
  have nothing : (m'.limitWork.filter fun q => m.key? q.1 = none) = ∅ :=
    Finset.filter_eq_empty_iff.2 fun q mem new =>
      applies.notMem_limits zero new (mem_limitWork.1 mem).2.2
  rw [applies.burden_eq h, nothing, Finset.erase_eq_of_notMem work]
  exact zero_add _

/-- If nothing has been added, there is a rule less to apply. -/
theorem pending_eq (nothing : m'.plain = m.plain) : m'.pending = m.pending.erase p := by
  ext q
  by_cases stored : m.key? q.1 = none
  · refine iff_of_false (fun mem => ?_) fun mem =>
      stored_of_mem_pending (Finset.mem_of_mem_erase mem) stored
    obtain ⟨⟨op, ids, hk, -⟩, -⟩ := mem_pending.1 mem
    cases limited : op.isLimit with
    | true => exact applies.notMem_limits zero stored (mem_limits.2 ⟨op, ids, hk, limited⟩)
    | false =>
      have known : q.1 ∈ m.plain := nothing ▸ mem_plain.2 ⟨op, ids, hk, limited⟩
      obtain ⟨_, _, hk', -⟩ := mem_plain.1 known
      rw [hk'] at stored
      cases stored
  · rw [applies.mem_pending_iff stored, Finset.mem_erase, and_comm]

end Other

include h in
/-- Applying a rule leaves less to do. -/
theorem declines (pending : m.Pending p) : Declines base n m m' := by
  by_cases work : p ∈ m.limitWork
  · exact .left _ _ (applies.cutExpand_burden h work)
  · have zero := ceilingAt_of_notMem pending work
    have limits := applies.limits_eq zero
    have sub : m.plain ⊆ m'.plain := fun place mem =>
      mem_plain.2 ((mem_plain.1 mem).extends applies.extended)
    rw [Declines, Memo.work, applies.burden_eq_of_notMem h zero work]
    refine .right _ ?_
    rcases sub.eq_or_ssubset with nothing | something
    · rw [room, room, limits, nothing, applies.pending_eq zero nothing.symm]
      exact .right _ (Finset.card_erase_lt_of_mem (mem_pending.2 pending))
    · refine .left _ _ ?_
      have more := Finset.card_lt_card something
      have bound := applies.ranked.card_plain_le_capacity
      rw [limits] at bound
      rw [room, room, limits]
      omega

end Applies

end Apply

end Memo

end QueryOptimizer
