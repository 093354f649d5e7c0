import QueryOptimizer.Proofs.Rule.Binding
import QueryOptimizer.Rule.Basic

/-!
# What the rules do

Each rule turns an expression of a memo, and at most one expression below it, into a tree over
groups that the memo has. `RuleId.Rewrites` has a case for each form of such a step. It says
all that a rule can do, so what is shown by cases on it is shown of the rules.

## Main results

* `RuleId.rewrites_of_apply`: what a rule makes of a binding is a rewriting of an expression.
* `RuleId.Rewrites.within`: it is made of groups that are there.
-/

namespace QueryOptimizer

variable {K : Type} {m m' : Memo K} {t t' : ExprTree}

/-! ### Trees over groups -/

/-- Whether the groups and expressions that a tree is made of are among the first groups. -/
inductive ExprTree.Within (n : Nat) : ExprTree → Prop
  | operator {op : Operator} {inputs : List ExprTree} (below : ∀ t ∈ inputs, Within n t) :
      Within n (.operator op inputs)
  | expr {id : ExprId} {inputs : List ExprTree} (inside : id.group < n) :
      Within n (.expr id inputs)
  | group {id : GroupId} (inside : id < n) : Within n (.group id)

/-- Groups within a bound are trees within it. -/
theorem ExprTree.within_groups {n : Nat} {ids : List GroupId} (inside : ∀ i ∈ ids, i < n) :
    ∀ t ∈ ids.map ExprTree.group, t.Within n := by
  intro t ht
  obtain ⟨i, hi, rfl⟩ := List.mem_map.1 ht
  exact .group (inside i hi)

/-- A tree within a bound is within a larger one. -/
theorem ExprTree.Within.mono {n n' : Nat} (le : n ≤ n') (h : t.Within n) : t.Within n' := by
  induction h with
  | operator _ ih => exact .operator ih
  | expr inside => exact .expr (Nat.lt_of_lt_of_le inside le)
  | group inside => exact .group (Nat.lt_of_lt_of_le inside le)

/-! ### Rewriting -/

namespace RuleId

/-- Whether a rule exchanges an inner join with a join of a type below it. -/
def exchanges : RuleId → JoinType → Bool
  | innerJoinSemiJoinSwap, type => type == .leftSemi
  | innerJoinAntiSemiJoinSwap, type => type == .leftAntiSemi || type == .leftAntiSemiNotIn
  | _, _ => false

/-- The join that a rule puts in place of set operations of a kind. -/
def joinFor? : RuleId → Option (SetOpKind × JoinType)
  | differenceToAntiJoin => some (.difference, .leftAntiSemi)
  | intersectToSemiJoin => some (.intersect, .leftSemi)
  | _ => none

end RuleId

open ExprTree SetOperationRule

/-- The conjuncts that are spread over the predicates of rotated joins. -/
def Scalar.spread (p q : Scalar) : List Scalar :=
  (p.conjuncts ++ q.conjuncts).filter (!·.isTrue)

/-- What a rule makes of an expression of a memo. -/
inductive RuleId.Rewrites (m : Memo K) : RuleId → ExprKey → ExprTree → Prop
  | commute {p : Scalar} {a b : GroupId} {rest : List GroupId} :
      Rewrites m joinCommutativity ⟨.logical (.join ⟨.inner, p⟩), a :: b :: rest⟩
        (joined ⟨.inner, p⟩ (.group b) (.group a))
  | associate {p q r : Scalar} {lower : ExprId} {a b c : GroupId} {rest : List GroupId}
      {lowers : Scalar → Bool}
      (below : m.key? lower = some ⟨.logical (.join ⟨.inner, p⟩), a :: b :: rest⟩)
      (lowered : Scalar.conjoin? ((p.spread q).filter lowers) = some r) :
      Rewrites m joinAssociativity ⟨.logical (.join ⟨.inner, q⟩), [lower.group, c]⟩
        (joined ⟨.inner,
          (Scalar.conjoin? ((p.spread q).filter (!lowers ·))).getD (.ofBool true)⟩ (.group a)
            (joined ⟨.inner, r⟩ (.group b) (.group c)))
  | exchange {rule : RuleId} {semi : Join} {q : Scalar} {lower : ExprId} {a b c : GroupId}
      {rest : List GroupId} (exchanges : rule.exchanges semi.type = true)
      (below : m.key? lower = some ⟨.logical (.join semi), a :: b :: rest⟩) :
      Rewrites m rule ⟨.logical (.join ⟨.inner, q⟩), [lower.group, c]⟩
        (joined semi (joined ⟨.inner, q⟩ (.group a) (.group c)) (.group b))
  | lookup {p : Scalar} {table : ExprId} {key : ExprKey} {a : GroupId} {r : Relation K}
      (left : m.relation? a = some r) (below : m.key? table = some key)
      (access : key.operator.isTableAccess = true) :
      Rewrites m innerJoinToIndexApply ⟨.logical (.join ⟨.inner, p⟩), [a, table.group]⟩
        (.operator (.logical (.apply ⟨.inner, .ofBool true,
            r.property.output.toList.filter p.usedColumns.contains⟩))
          [.group a, .operator (.logical (.select p)) [.group table.group]])
  | push {l : Limit} {ds : List Definition} {lower : ExprId} {ids : List GroupId}
      (below : m.key? lower = some ⟨.logical (.project ds), ids⟩) :
      Rewrites m pushLimitBelowProject ⟨.logical (.limit l), [lower.group]⟩
        (.operator (.logical (.project ds)) [.operator (.logical (.limit l)) (ids.map .group)])
  | merge {outer inner l : Limit} {lower : ExprId} {ids : List GroupId}
      (below : m.key? lower = some ⟨.logical (.limit inner), ids⟩)
      (merged : outer.mergeOver inner = some l) :
      Rewrites m mergeLimits ⟨.logical (.limit outer), [lower.group]⟩
        (.operator (.logical (.limit l)) (ids.map .group))
  | unionAll {s : SetOperation} {ids : List GroupId} (kind : s.kind = .union) :
      Rewrites m unionToUnionAllGroupBy ⟨.logical (.setOp s), ids⟩
        (distinct s.output
          (.operator (.logical (.setOp { s with kind := .unionAll })) (ids.map .group)))
  | rejoin {rule : RuleId} {s : SetOperation} {type : JoinType} {left right : List Column}
      {p : Scalar} {a b : GroupId} (joins : rule.joinFor? = some (s.kind, type))
      (first : s.inputs[0]? = some left) (second : s.inputs[1]? = some right)
      (compared : sameRow? left right = some p) :
      Rewrites m rule ⟨.logical (.setOp s), [a, b]⟩
        (distinct s.output (renamed s.output left (joined ⟨type, p⟩ (.group a) (.group b))))
  | implement {rule : RuleId} {op : LogicalOperator} {op' : PhysicalOperator}
      {ids : List GroupId} (implements : rule.physical? op = some op') :
      Rewrites m rule ⟨.logical op, ids⟩ (.operator (.physical op') (ids.map .group))

/-! ### Reading bindings -/

namespace ExprTree

/-- The root operator of a stored expression is found in the memo. -/
theorem rootOperator_expr {id : ExprId} {op : Operator} {ids : List GroupId}
    (hk : m.key? id = some ⟨op, ids⟩) (ts : List ExprTree) :
    (expr id ts).rootOperator m = .ok op := by
  obtain ⟨e, he, hop⟩ := Memo.exists_expr_of_key? hk
  simp [rootOperator, he, hop]

/-- The root operator of a stored expression is found if it is of the kind
that is asked for. -/
theorem rootAs_expr {α : Type} (kind : Operator → Option α) {id : ExprId} {op : Operator}
    {ids : List GroupId} {a : α} (hk : m.key? id = some ⟨op, ids⟩) (found : kind op = some a)
    (ts : List ExprTree) : (expr id ts).rootAs m kind = .ok a := by
  simp only [rootAs, rootOperator_expr hk, OptResult.bind_eq_ok]
  exact ⟨op, rfl, by rw [found]; rfl⟩

/-- The first two inputs of an expression over groups. -/
theorem groups_of_input {id : ExprId} {ids : List GroupId} {l r : ExprTree}
    (left : (expr id (ids.map .group)).input 0 = .ok l)
    (right : (expr id (ids.map .group)).input 1 = .ok r) :
    ∃ a b rest, ids = a :: b :: rest ∧ l = .group a ∧ r = .group b := by
  simp only [input, OptResult.elementAt_eq_ok] at left right
  obtain _ | ⟨a, _ | ⟨b, rest⟩⟩ := ids
  · cases left
  · cases right
  · exact ⟨a, b, rest, rfl, (Option.some.inj left).symm, (Option.some.inj right).symm⟩

/-- What is derived about a tree that is a group is derived about the group. -/
theorem property_group {id : GroupId} {p : LogicalProperty}
    (known : (group id).property m = .ok p) :
    ∃ r, m.relation? id = some r ∧ r.property = p := by
  obtain ⟨_, root, read⟩ := OptResult.bind_eq_ok.1 known
  obtain rfl := Except.ok.inj root
  obtain ⟨g, hg, same⟩ := OptResult.bind_eq_ok.1 read
  exact ⟨g.toRelation, Memo.relation?_of_group hg, Except.ok.inj same⟩

end ExprTree

namespace JoinRule

/-- What is recognized as a join is a logical join. -/
theorem isJoin_iff {p : JoinType → Bool} {op : Operator} :
    op.isJoin p = true ↔ ∃ j, op = .logical (.join j) ∧ p j.type = true := by
  unfold Operator.isJoin Operator.join?
  split <;> simp_all

/-- What is recognized as an inner join is a logical inner join. -/
theorem eq_of_isInnerJoin {op : Operator} (h : op.isInnerJoin = true) :
    ∃ p, op = .logical (.join ⟨.inner, p⟩) := by
  obtain ⟨⟨type, p⟩, rfl, inner⟩ := isJoin_iff.1 h
  obtain rfl := beq_iff_eq.1 inner
  exact ⟨p, rfl⟩

/-- What a binding of an inner join over a join looks like. -/
theorem binds_over {accepts : JoinType → Bool} (binds : m.Binds (innerOver accepts) t) :
    ∃ place lower q j ids c, t = .expr place [.expr lower (ids.map .group), .group c] ∧
      m.key? place = some ⟨.logical (.join ⟨.inner, q⟩), [lower.group, c]⟩ ∧
      m.key? lower = some ⟨.logical (.join j), ids⟩ ∧ accepts j.type = true := by
  simp only [innerOver, Memo.Binds, Memo.BindsAll] at binds
  obtain ⟨place, ⟨op, ids⟩, ts, rfl, hk, accepted, l, rest, tl, others, hids, rfl, rootl,
    ⟨lower, ⟨op', ids'⟩, rfl, hk', accepted'⟩, c, rest', tc, others', rfl, rfl, rootc,
    ⟨c', rfl, hc⟩, rfl, rfl⟩ := binds
  obtain rfl : ids = _ := hids
  obtain rfl := Except.ok.inj rootl
  obtain rfl := Except.ok.inj rootc
  obtain ⟨q, rfl⟩ := eq_of_isInnerJoin accepted
  obtain ⟨j, rfl, accepts⟩ := isJoin_iff.1 accepted'
  exact ⟨place, lower, q, j, ids', c', rfl, hk, hk', accepts⟩

/-- What a binding of an inner join with a stored table looks like. -/
theorem binds_innerWithTable (binds : m.Binds innerWithTable t) :
    ∃ place table p a op ids, t = .expr place [.group a, .expr table (ids.map .group)] ∧
      m.key? place = some ⟨.logical (.join ⟨.inner, p⟩), [a, table.group]⟩ ∧
      m.key? table = some ⟨op, ids⟩ ∧ op.isTableAccess = true := by
  simp only [innerWithTable, Memo.Binds, Memo.BindsAll] at binds
  obtain ⟨place, ⟨op, ids⟩, ts, rfl, hk, accepted, a, rest, tl, others, hids, rfl, rootl,
    ⟨a', rfl, ha⟩, b, rest', tr, others', rfl, rfl, rootr,
    ⟨table, ⟨op', ids'⟩, rfl, hk', access⟩, rfl, rfl⟩ := binds
  obtain rfl : ids = _ := hids
  obtain rfl := Except.ok.inj rootl
  obtain rfl := Except.ok.inj rootr
  obtain ⟨p, rfl⟩ := eq_of_isInnerJoin accepted
  exact ⟨place, table, p, a', op', ids', rfl, hk, hk', access⟩

end JoinRule

namespace LimitRule

/-- What is recognized as a limit is a logical limit. -/
theorem eq_of_limit? {op : Operator} {l : Limit} (h : op.limit? = some l) :
    op = .logical (.limit l) := by
  unfold Operator.limit? at h
  split at h <;> simp_all

/-- What is recognized as a projection is a logical projection. -/
theorem eq_of_project? {op : Operator} {ds : List Definition} (h : op.project? = some ds) :
    op = .logical (.project ds) := by
  unfold Operator.project? at h
  split at h <;> simp_all

/-- What a binding of a limit over an operator looks like. -/
theorem binds_limitOver {accepts : Operator → Bool}
    (binds : m.Binds (limitOver accepts) t) :
    ∃ place lower l op ids, t = .expr place [.expr lower (ids.map .group)] ∧
      m.key? place = some ⟨.logical (.limit l), [lower.group]⟩ ∧
      m.key? lower = some ⟨op, ids⟩ ∧ accepts op = true := by
  simp only [limitOver, Memo.Binds, Memo.BindsAll] at binds
  obtain ⟨place, ⟨op, ids⟩, ts, rfl, hk, accepted, g, rest, tl, others, hids, rfl, rootl,
    ⟨lower, ⟨op', ids'⟩, rfl, hk', accepted'⟩, rfl, rfl⟩ := binds
  obtain rfl : ids = _ := hids
  obtain rfl := Except.ok.inj rootl
  obtain ⟨l, hl⟩ := Option.isSome_iff_exists.1 accepted
  obtain rfl := eq_of_limit? hl
  exact ⟨place, lower, l, op', ids', rfl, hk, hk', accepted'⟩

end LimitRule

namespace SetOperationRule

/-- What a binding of a set operation looks like. -/
theorem binds_ofKind {k : SetOpKind} (binds : m.Binds (ofKind k) t) :
    ∃ place s ids, t = .expr place (ids.map .group) ∧
      m.key? place = some ⟨.logical (.setOp s), ids⟩ ∧ s.kind = k := by
  simp only [ofKind, Memo.Binds] at binds
  obtain ⟨place, ⟨op, ids⟩, rfl, hk, accepted⟩ := binds
  unfold Operator.isSetOp Operator.setOp? at accepted
  cases op with
  | physical op => cases accepted
  | logical op =>
    cases op with
    | setOp s => exact ⟨place, s, ids, rfl, hk, beq_iff_eq.1 accepted⟩
    | _ => cases accepted

end SetOperationRule

/-! ### Each rule -/

/-- Whether a tree is made from an expression at the root of another one by a rule. -/
def RuleId.Makes (m : Memo K) (r : RuleId) (t t' : ExprTree) : Prop :=
  ∃ place ts k, t = .expr place ts ∧ m.key? place = some k ∧ r.Rewrites m k t'

/-- Exchanging the inputs of a join makes what the rule should make. -/
theorem JoinRule.commute_rewrites (binds : m.Binds inner t)
    (made : commute m t = .ok (some t')) : RuleId.joinCommutativity.Makes m t t' := by
  simp only [inner, Memo.Binds] at binds
  obtain ⟨place, ⟨op, ids⟩, rfl, hk, accepted⟩ := binds
  obtain ⟨p, rfl⟩ := eq_of_isInnerJoin accepted
  simp only [commute, rootOperator_expr hk, OptResult.bind_eq_ok, OptResult.pure_eq_ok,
    Except.ok.injEq, Option.some.injEq] at made
  obtain ⟨_, rfl, r, hr, l, hl, rfl⟩ := made
  obtain ⟨a, b, rest, rfl, rfl, rfl⟩ := groups_of_input hl hr
  exact ⟨place, _, _, rfl, hk, .commute⟩

/-- What rotating two joins makes of a binding. The conjuncts that only use columns of the
second and the third input go below, and there are some. -/
theorem JoinRule.associate_eq_ok (binds : m.Binds (innerOver (· == .inner)) t)
    (made : associate m t = .ok (some t')) :
    ∃ place lower p q a b c rest rb rc below r,
      (t = .expr place [.expr lower ((a :: b :: rest).map .group), .group c] ∧
        m.key? place = some ⟨.logical (.join ⟨.inner, q⟩), [lower.group, c]⟩ ∧
        m.key? lower = some ⟨.logical (.join ⟨.inner, p⟩), a :: b :: rest⟩) ∧
      (m.relation? b = some rb ∧ m.relation? c = some rc ∧
        below = rb.property.output.union rc.property.output) ∧
      Scalar.conjoin? ((p.spread q).filter (·.usedColumns.isSubset below)) = some r ∧
      t' = joined
        ⟨.inner, (Scalar.conjoin? ((p.spread q).filter (!·.usedColumns.isSubset below))).getD
          (.ofBool true)⟩ (.group a) (joined ⟨.inner, r⟩ (.group b) (.group c)) := by
  obtain ⟨place, lower, q, ⟨type, p⟩, ids, c, rfl, hk, hk', accepts⟩ := binds_over binds
  obtain rfl := beq_iff_eq.1 accepts
  simp only [associate, rootAs_expr Operator.join? hk rfl, OptResult.bind_eq_ok] at made
  obtain ⟨_, hupper, left, hleft, _, hlower, a, ha, b, hb, c', hc, bs, hbs, cs, hcs,
    made⟩ := made
  obtain rfl := Except.ok.inj hupper
  obtain rfl := Option.some.inj (OptResult.elementAt_eq_ok.1 hleft)
  obtain rfl := Option.some.inj (OptResult.elementAt_eq_ok.1 hc)
  obtain ⟨a, b, rest, rfl, rfl, rfl⟩ := groups_of_input ha hb
  rw [rootAs_expr Operator.join? hk' rfl] at hlower
  obtain rfl := Except.ok.inj hlower
  obtain ⟨rb, hrb, rfl⟩ := property_group hbs
  obtain ⟨rc, hrc, rfl⟩ := property_group hcs
  split at made
  · cases made
  · rename_i r lowered
    obtain rfl := Option.some.inj (Except.ok.inj made)
    rw [List.partition_eq_filter_filter] at lowered ⊢
    exact ⟨place, lower, p, q, a, b, c, rest, rb, rc, _, r, ⟨rfl, hk, hk'⟩,
      ⟨hrb, hrc, rfl⟩, lowered, rfl⟩

/-- Moving the brackets of two joins makes what the rule should make. -/
theorem JoinRule.associate_rewrites (binds : m.Binds (innerOver (· == .inner)) t)
    (made : associate m t = .ok (some t')) : RuleId.joinAssociativity.Makes m t t' := by
  obtain ⟨place, lower, p, q, a, b, c, rest, rb, rc, below, r, ⟨rfl, hk, hk'⟩, -,
      lowered, rfl⟩ :=
    associate_eq_ok binds made
  exact ⟨place, _, _, rfl, hk, .associate hk' lowered⟩

/-- Exchanging two joins makes what the rule should make. -/
theorem JoinRule.swap_rewrites {r : RuleId} (binds : m.Binds (innerOver r.exchanges) t)
    (made : swap m t = .ok (some t')) : r.Makes m t t' := by
  obtain ⟨place, lower, q, semi, ids, c, rfl, hk, hk', accepts⟩ := binds_over binds
  simp only [swap, rootAs_expr Operator.join? hk rfl, OptResult.bind_eq_ok] at made
  obtain ⟨_, hupper, left, hleft, _, hlower, a, ha, c', hc, b, hb, made⟩ := made
  obtain rfl := Except.ok.inj hupper
  obtain rfl := Option.some.inj (OptResult.elementAt_eq_ok.1 hleft)
  obtain rfl := Option.some.inj (OptResult.elementAt_eq_ok.1 hc)
  obtain ⟨a, b, rest, rfl, rfl, rfl⟩ := groups_of_input ha hb
  rw [rootAs_expr Operator.join? hk' rfl] at hlower
  obtain rfl := Except.ok.inj hlower
  obtain rfl := Option.some.inj (Except.ok.inj made)
  exact ⟨place, _, _, rfl, hk, .exchange accepts hk'⟩

/-- Replacing a join with a table by lookups makes what the rule should make. -/
theorem JoinRule.toIndexApply_rewrites (binds : m.Binds innerWithTable t)
    (made : toIndexApply m t = .ok (some t')) : RuleId.innerJoinToIndexApply.Makes m t t' := by
  obtain ⟨place, table, p, a, op, ids, rfl, hk, hk', access⟩ := binds_innerWithTable binds
  simp only [toIndexApply, rootAs_expr Operator.join? hk rfl, OptResult.bind_eq_ok] at made
  obtain ⟨_, hj, left, hleft, prop, known, right, hright, _, -, made⟩ := made
  obtain rfl := Except.ok.inj hj
  obtain rfl := Option.some.inj (OptResult.elementAt_eq_ok.1 hleft)
  obtain rfl := Option.some.inj (OptResult.elementAt_eq_ok.1 hright)
  obtain ⟨r, hr, rfl⟩ := property_group known
  split at made
  · cases made
  · obtain ⟨group, hgroup, made⟩ := OptResult.bind_eq_ok.1 made
    obtain rfl := Except.ok.inj hgroup
    obtain rfl := Option.some.inj (Except.ok.inj made)
    exact ⟨place, _, _, rfl, hk, .lookup hr hk' access⟩

/-- What moving a limit below a projection makes of a binding. No column by which
it sorts is computed. -/
theorem LimitRule.pushBelowProject_eq_ok (binds : m.Binds (limitOver (·.project?.isSome)) t)
    (made : pushBelowProject m t = .ok (some t')) :
    ∃ place lower l ds ids,
      (t = .expr place [.expr lower (ids.map .group)] ∧
        m.key? place = some ⟨.logical (.limit l), [lower.group]⟩ ∧
        m.key? lower = some ⟨.logical (.project ds), ids⟩) ∧
      l.order.usedColumns.isDisjoint (.ofList (Definition.columns ds)) = true ∧
      t' = .operator (.logical (.project ds))
        [.operator (.logical (.limit l)) (ids.map .group)] := by
  obtain ⟨place, lower, l, op, ids, rfl, hk, hk', accepted⟩ := binds_limitOver binds
  obtain ⟨ds, hds⟩ := Option.isSome_iff_exists.1 accepted
  obtain rfl := eq_of_project? hds
  simp only [pushBelowProject, rootAs_expr Operator.limit? hk rfl, OptResult.bind_eq_ok]
    at made
  obtain ⟨_, hl, input, hinput, _, hds, made⟩ := made
  obtain rfl := Except.ok.inj hl
  obtain rfl := Option.some.inj (OptResult.elementAt_eq_ok.1 hinput)
  rw [rootAs_expr Operator.project? hk' rfl] at hds
  obtain rfl := Except.ok.inj hds
  split at made
  · rename_i apart
    exact ⟨place, lower, l, ds, ids, ⟨rfl, hk, hk'⟩, apart,
      (Option.some.inj (Except.ok.inj made)).symm⟩
  · cases made

/-- Moving a limit below a projection makes what the rule should make. -/
theorem LimitRule.pushBelowProject_rewrites (binds : m.Binds (limitOver (·.project?.isSome)) t)
    (made : pushBelowProject m t = .ok (some t')) :
    RuleId.pushLimitBelowProject.Makes m t t' := by
  obtain ⟨place, lower, l, ds, ids, ⟨rfl, hk, hk'⟩, -, rfl⟩ :=
    pushBelowProject_eq_ok binds made
  exact ⟨place, _, _, rfl, hk, .push hk'⟩

/-- Merging two limits makes what the rule should make. -/
theorem LimitRule.merge_rewrites (binds : m.Binds (limitOver (·.limit?.isSome)) t)
    (made : merge m t = .ok (some t')) : RuleId.mergeLimits.Makes m t t' := by
  obtain ⟨place, lower, outer, op, ids, rfl, hk, hk', accepted⟩ := binds_limitOver binds
  obtain ⟨inner, hinner⟩ := Option.isSome_iff_exists.1 accepted
  obtain rfl := eq_of_limit? hinner
  simp only [merge, rootOperator_expr hk, OptResult.bind_eq_ok] at made
  obtain ⟨_, hop, input, hinput, _, hop', made⟩ := made
  obtain rfl := Except.ok.inj hop
  obtain rfl := Option.some.inj (OptResult.elementAt_eq_ok.1 hinput)
  rw [rootOperator_expr hk'] at hop'
  obtain rfl := Except.ok.inj hop'
  obtain ⟨l, merged, rfl⟩ := Option.map_eq_some_iff.1 (Except.ok.inj made)
  exact ⟨place, _, _, rfl, hk, .merge hk' merged⟩

/-- Replacing a union by a concatenation without duplicates makes what the
rule should make. -/
theorem SetOperationRule.unionToUnionAll_rewrites (binds : m.Binds (ofKind .union) t)
    (made : unionToUnionAll m t = .ok (some t')) :
    RuleId.unionToUnionAllGroupBy.Makes m t t' := by
  obtain ⟨place, s, ids, rfl, hk, kind⟩ := binds_ofKind binds
  simp only [unionToUnionAll, rootAs_expr Operator.setOp? hk rfl, OptResult.bind_eq_ok] at made
  obtain ⟨_, hs, made⟩ := made
  obtain rfl := Except.ok.inj hs
  obtain rfl := Option.some.inj (Except.ok.inj made)
  exact ⟨place, _, _, rfl, hk, .unionAll kind⟩

/-- Replacing a set operation by a join makes what the rule should make. -/
theorem SetOperationRule.toJoin_rewrites {r : RuleId} {kind : SetOpKind} {type : JoinType}
    (joins : r.joinFor? = some (kind, type)) (binds : m.Binds (ofKind kind) t)
    (made : toJoin type m t = .ok (some t')) : r.Makes m t t' := by
  obtain ⟨place, s, ids, rfl, hk, rfl⟩ := binds_ofKind binds
  simp only [toJoin, rootAs_expr Operator.setOp? hk rfl, OptResult.bind_eq_ok] at made
  obtain ⟨_, hs, made⟩ := made
  obtain rfl := Except.ok.inj hs
  split at made
  · rename_i l r two
    obtain ⟨a, rest, rfl, rfl, hrest⟩ := List.map_eq_cons_iff.1 two
    obtain ⟨b, none, rfl, rfl, hnone⟩ := List.map_eq_cons_iff.1 hrest
    obtain rfl := List.map_eq_nil_iff.1 hnone
    simp only [OptResult.bind_eq_ok, OptResult.elementAt_eq_ok] at made
    obtain ⟨left, first, right, second, made⟩ := made
    split at made
    · cases made
    · rename_i p compared
      obtain rfl := Option.some.inj (Except.ok.inj made)
      exact ⟨place, _, _, rfl, hk, .rejoin joins first second compared⟩
  · cases made

/-- Implementing an operator makes what the rule should make. -/
theorem ImplementationRule.apply_rewrites {r : RuleId} (binds : m.Binds (implementable r) t)
    (made : ImplementationRule.apply r m t = .ok (some t')) : r.Makes m t t' := by
  simp only [implementable, Memo.Binds] at binds
  obtain ⟨place, ⟨op, ids⟩, rfl, hk, accepted⟩ := binds
  obtain ⟨op', implements⟩ := Option.isSome_iff_exists.1 accepted
  simp only [ImplementationRule.apply, rootAs_expr r.implementation? hk implements,
    OptResult.bind_eq_ok] at made
  obtain ⟨_, hop, _, -, made⟩ := made
  obtain rfl := Except.ok.inj hop
  split at made
  · obtain rfl := Option.some.inj (Except.ok.inj made)
    cases op with
    | logical op => exact ⟨place, _, _, rfl, hk, .implement implements⟩
    | physical op => cases implements
  · cases made

/-! ### All rules -/

/-- What a rule makes of a binding is a rewriting of the expression at its root. -/
theorem RuleId.rewrites_of_apply {r : RuleId} (binds : m.Binds r.pattern t)
    (made : r.apply m t = .ok (some t')) : r.Makes m t t' := by
  cases r with
  | joinCommutativity => exact JoinRule.commute_rewrites binds made
  | joinAssociativity => exact JoinRule.associate_rewrites binds made
  | innerJoinSemiJoinSwap | innerJoinAntiSemiJoinSwap =>
    exact JoinRule.swap_rewrites binds made
  | innerJoinToIndexApply => exact JoinRule.toIndexApply_rewrites binds made
  | pushLimitBelowProject => exact LimitRule.pushBelowProject_rewrites binds made
  | mergeLimits => exact LimitRule.merge_rewrites binds made
  | unionToUnionAllGroupBy => exact SetOperationRule.unionToUnionAll_rewrites binds made
  | differenceToAntiJoin | intersectToSemiJoin =>
    exact SetOperationRule.toJoin_rewrites rfl binds made
  | _ => exact ImplementationRule.apply_rewrites binds made

namespace ExprTree.Within

variable {n : Nat}

/-- An operator on a tree within a bound is within it. -/
theorem single {op : Operator} (h : t.Within n) : (ExprTree.operator op [t]).Within n :=
  .operator (List.forall_mem_singleton.2 h)

/-- An operator on two trees within a bound is within it. -/
theorem pair {op : Operator} {u : ExprTree} (ht : t.Within n) (hu : u.Within n) :
    (ExprTree.operator op [t, u]).Within n :=
  .operator (by simp [ht, hu])

/-- A tree within a bound stays within it when its columns are renamed. -/
theorem renamed {target source : List Column} (h : t.Within n) :
    (SetOperationRule.renamed target source t).Within n := by
  unfold SetOperationRule.renamed
  split
  · exact h
  · exact h.single

end ExprTree.Within

/-- A rewriting is made of inputs of expressions of the memo. -/
theorem RuleId.Rewrites.within {r : RuleId} {place : ExprId} {k : ExprKey} {n : Nat}
    (inputs : ∀ {place k}, m.key? place = some k → ∀ i ∈ k.inputs, i < n)
    (known : m.key? place = some k) (h : r.Rewrites m k t') : t'.Within n := by
  have root : ∀ i ∈ k.inputs, i < n := inputs known
  cases h with
  | commute => exact .pair (.group (root _ (by simp))) (.group (root _ (by simp)))
  | associate below =>
    have lower := inputs below
    exact .pair (.group (lower _ (by simp)))
      (.pair (.group (lower _ (by simp))) (.group (root _ (by simp))))
  | exchange _ below =>
    have lower := inputs below
    exact .pair (.pair (.group (lower _ (by simp))) (.group (root _ (by simp))))
      (.group (lower _ (by simp)))
  | lookup => exact .pair (.group (root _ (by simp))) (.single (.group (root _ (by simp))))
  | push below => exact .single (.operator (within_groups (inputs below)))
  | merge below => exact .operator (within_groups (inputs below))
  | unionAll => exact .single (.operator (within_groups root))
  | rejoin =>
    exact .single (.renamed (.pair (.group (root _ (by simp))) (.group (root _ (by simp)))))
  | implement => exact .operator (within_groups root)

end QueryOptimizer
