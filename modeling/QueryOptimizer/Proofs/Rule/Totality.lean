import QueryOptimizer.Proofs.Derivation.Totality
import QueryOptimizer.Proofs.Memo.Grafting

/-!
# Rules that cannot fail

A rule finds everything in a binding that it asks for: the operators are those that the pattern
accepts, each expression has all its inputs, and something is derived about each group. What
the rule makes consists of operators below the root that something can be derived about
(`ExprTree.Derivable`).

## Main results

* `RuleId.succeeds_apply`: a rule does not fail on a binding of its pattern.
* `RuleId.Rewrites.derivable`: its result can be entered into the memo.
-/

namespace QueryOptimizer

variable {K : Type} {m m' : Memo K} {base : List LogicalOperator} {n : Nat} {t t' : ExprTree}

open OptResult ExprTree

/-! ### Trees -/

/-- Whether a tree consists of operators that rules make, over groups among the first ones. -/
inductive ExprTree.Derivable (count : Nat) : ExprTree → Prop
  | group {id : GroupId} (inside : id < count) : Derivable count (.group id)
  | operator {op : LogicalOperator} {ts : List ExprTree} (made : op.isMade = true)
      (saturated : ts.length = op.arity) (inputs : 0 < ts.length)
      (below : ∀ t ∈ ts, Derivable count t) : Derivable count (.operator (.logical op) ts)

namespace ExprTree.Derivable

/-- A tree stays derivable when there are more groups. -/
theorem mono {count count' : Nat} (le : count ≤ count') (h : t.Derivable count) :
    t.Derivable count' := by
  induction h with
  | group inside => exact .group (Nat.lt_of_lt_of_le inside le)
  | operator made saturated inputs _ ih => exact .operator made saturated inputs ih

/-- Groups of the memo are derivable. -/
theorem groups {count : Nat} {ids : List GroupId} (inside : ∀ i ∈ ids, i < count) :
    ∀ t ∈ ids.map ExprTree.group, t.Derivable count := by
  intro t ht
  obtain ⟨i, hi, rfl⟩ := List.mem_map.1 ht
  exact .group (inside i hi)

/-- A join of derivable trees is derivable. -/
theorem joined {count : Nat} {j : Join} {u : ExprTree} (ht : t.Derivable count)
    (hu : u.Derivable count) : (ExprTree.joined j t u).Derivable count :=
  .operator rfl rfl Nat.two_pos (by simp [ht, hu])

/-- A derivable tree with its columns renamed is derivable. -/
theorem renamed {count : Nat} {target source : List Column} (ht : t.Derivable count) :
    (SetOperationRule.renamed target source t).Derivable count := by
  unfold SetOperationRule.renamed
  split
  · exact ht
  · exact .operator rfl rfl Nat.one_pos (List.forall_mem_singleton.2 ht)

end ExprTree.Derivable

/-- What a rule makes has an operator at the root, over trees that something can
be derived about. -/
theorem RuleId.Rewrites.derivable (h : m.Ranked base n)
    (operations : ∀ s ∈ base.flatMap LogicalOperator.operations, s.inputs ≠ []) {r : RuleId}
    {place : ExprId} {k : ExprKey} (known : m.key? place = some k)
    (rewrites : r.Rewrites m k t) :
    ∃ op ts, t = .operator op ts ∧ ∀ u ∈ ts, u.Derivable m.groups.size := by
  have inside := h.inputs known
  cases rewrites with
  | commute =>
    exact ⟨_, _, rfl, List.forall_mem_cons.2 ⟨.group (inside _ (by simp)),
      List.forall_mem_singleton.2 (.group (inside _ (by simp)))⟩⟩
  | associate below =>
    have lower := h.inputs below
    exact ⟨_, _, rfl,
      List.forall_mem_cons.2
      ⟨.group (lower _ (by simp)),
        List.forall_mem_singleton.2
        (.joined (.group (lower _ (by simp))) (.group (inside _ (by simp))))⟩⟩
  | exchange _ below =>
    have lower := h.inputs below
    exact ⟨_, _, rfl, List.forall_mem_cons.2 ⟨.joined (.group (lower _ (by simp)))
      (.group (inside _ (by simp))), List.forall_mem_singleton.2 (.group (lower _ (by simp)))⟩⟩
  | lookup =>
    exact ⟨_, _, rfl,
      List.forall_mem_cons.2
      ⟨.group (inside _ (by simp)),
        List.forall_mem_singleton.2
        (.operator rfl rfl Nat.one_pos
          (List.forall_mem_singleton.2 (.group (inside _ (by simp)))))⟩⟩
  | push below =>
    have length := h.saturated _ _ below
    refine ⟨_, _, rfl,
      List.forall_mem_singleton.2 (.operator rfl ?_ ?_ (.groups (h.inputs below)))⟩
    · exact (List.length_map _).trans length
    · rw [List.length_map, length]
      exact Nat.one_pos
  | merge below => exact ⟨_, _, rfl, .groups (h.inputs below)⟩
  | @unionAll s ids kind =>
    have length := h.saturated _ _ known
    have mem := (h.coined known).operation (by rw [kind]; decide)
    refine ⟨_, _, rfl, List.forall_mem_singleton.2 (.operator rfl ?_ ?_ (.groups inside))⟩
    · exact (List.length_map _).trans length
    · rw [List.length_map, length]
      exact List.length_pos_iff.2 (operations s mem)
  | rejoin =>
    exact ⟨_, _, rfl,
      List.forall_mem_singleton.2
      (.renamed (.joined (.group (inside _ (by simp))) (.group (inside _ (by simp)))))⟩
  | implement => exact ⟨_, _, rfl, .groups inside⟩

/-! ### Rules -/

/-- The property of a tree with a known root group is found. -/
theorem ExprTree.succeeds_property {id : GroupId} (inside : id < m.groups.size)
    (root : t.rootGroup = .ok id) : (t.property m).Succeeds := by
  have found : m.group id = .ok m.groups[id] :=
    Memo.group_eq_ok.2 (Array.getElem?_eq_getElem inside)
  simp only [property, root]
  exact .bind (.pure id) fun _ same => by
    obtain rfl := Except.ok.inj same
    exact .bind ⟨_, found⟩ fun _ _ => .pure _

namespace JoinRule

/-- Exchanging the inputs of a join cannot fail. -/
theorem succeeds_commute (h : m.Ranked base n) (binds : m.Binds inner t) :
    (commute m t).Succeeds := by
  simp only [inner, Memo.Binds] at binds
  obtain ⟨place, ⟨op, ids⟩, rfl, hk, accepted⟩ := binds
  obtain ⟨p, rfl⟩ := eq_of_isInnerJoin accepted
  obtain ⟨a, b, rfl⟩ := List.length_eq_two.1 (h.saturated _ _ hk)
  simp only [commute, rootOperator_expr hk]
  exact .pure _

/-- Moving the brackets of two joins cannot fail. -/
theorem succeeds_associate (h : m.Ranked base n) {accepts : JoinType → Bool}
    (binds : m.Binds (innerOver accepts) t) : (associate m t).Succeeds := by
  obtain ⟨place, lower, q, j, ids, c, rfl, hk, hk', -⟩ := binds_over binds
  obtain ⟨a, b, rfl⟩ := List.length_eq_two.1 (h.saturated _ _ hk')
  have hb : (ExprTree.property m (.group b)).Succeeds :=
    succeeds_property (h.inputs hk' b (by simp)) rfl
  have hc : (ExprTree.property m (.group c)).Succeeds :=
    succeeds_property (h.inputs hk c (by simp)) rfl
  unfold associate
  refine .bind ⟨_, rootAs_expr Operator.join? hk rfl _⟩ fun upper _ =>
    .bind (.pure _) fun left hleft => ?_
  obtain rfl := Except.ok.inj hleft
  refine .bind ⟨_, rootAs_expr Operator.join? hk' rfl _⟩ fun _ _ => .bind (.pure _) fun _ ha =>
    .bind (.pure _) fun _ hb' => .bind (.pure _) fun _ hc' => ?_
  obtain rfl := Except.ok.inj hb'
  obtain rfl := Except.ok.inj hc'
  refine hb.bind fun _ _ => hc.bind fun _ _ => ?_
  dsimp only
  split <;> exact .pure _

/-- Exchanging two joins cannot fail. -/
theorem succeeds_swap (h : m.Ranked base n) {accepts : JoinType → Bool}
    (binds : m.Binds (innerOver accepts) t) : (swap m t).Succeeds := by
  obtain ⟨place, lower, q, j, ids, c, rfl, hk, hk', -⟩ := binds_over binds
  obtain ⟨a, b, rfl⟩ := List.length_eq_two.1 (h.saturated _ _ hk')
  unfold swap
  refine .bind ⟨_, rootAs_expr Operator.join? hk rfl _⟩ fun upper _ =>
    .bind (.pure _) fun left hleft => ?_
  obtain rfl := Except.ok.inj hleft
  exact .bind ⟨_, rootAs_expr Operator.join? hk' rfl _⟩ fun _ _ => .bind (.pure _) fun _ _ =>
    .bind (.pure _) fun _ _ => .bind (.pure _) fun _ _ => .pure _

/-- Replacing a join with a table by lookups cannot fail. -/
theorem succeeds_toIndexApply (h : m.Ranked base n) (binds : m.Binds innerWithTable t) :
    (toIndexApply m t).Succeeds := by
  obtain ⟨place, table, p, a, op, ids, rfl, hk, hk', -⟩ := binds_innerWithTable binds
  have left : (ExprTree.property m (.group a)).Succeeds :=
    succeeds_property (h.inputs hk a (by simp)) rfl
  have right : (ExprTree.property m (.expr table (ids.map .group))).Succeeds :=
    succeeds_property (Memo.lt_of_key? hk') rfl
  unfold toIndexApply
  refine .bind ⟨_, rootAs_expr Operator.join? hk rfl _⟩ fun j _ =>
    .bind (.pure _) fun _ hl => ?_
  obtain rfl := Except.ok.inj hl
  refine left.bind fun _ _ => .bind (.pure _) fun _ hr => ?_
  obtain rfl := Except.ok.inj hr
  refine right.bind fun _ _ => ?_
  dsimp only
  split
  · exact .pure _
  · exact .bind (.pure _) fun _ _ => .pure _

end JoinRule

namespace LimitRule

/-- Moving a limit below a projection cannot fail. -/
theorem succeeds_pushBelowProject (binds : m.Binds (limitOver (·.project?.isSome)) t) :
    (pushBelowProject m t).Succeeds := by
  obtain ⟨place, lower, l, op, ids, rfl, hk, hk', accepted⟩ := binds_limitOver binds
  obtain ⟨ds, hds⟩ := Option.isSome_iff_exists.1 accepted
  unfold pushBelowProject
  refine .bind ⟨_, rootAs_expr Operator.limit? hk rfl _⟩ fun l _ =>
    .bind (.pure _) fun _ hinput => ?_
  obtain rfl := Except.ok.inj hinput
  refine .bind ⟨_, rootAs_expr Operator.project? hk' hds _⟩ fun ds _ => ?_
  split <;> exact .pure _

/-- Merging two limits cannot fail. -/
theorem succeeds_merge (binds : m.Binds (limitOver (·.limit?.isSome)) t) :
    (merge m t).Succeeds := by
  obtain ⟨place, lower, outer, op, ids, rfl, hk, hk', accepted⟩ := binds_limitOver binds
  obtain ⟨inner, hinner⟩ := Option.isSome_iff_exists.1 accepted
  obtain rfl := eq_of_limit? hinner
  unfold merge
  refine .bind ⟨_, rootOperator_expr hk _⟩ fun _ hop => .bind (.pure _) fun _ hinput => ?_
  obtain rfl := Except.ok.inj hinput
  refine .bind ⟨_, rootOperator_expr hk' _⟩ fun _ hop' => ?_
  rw [rootOperator_expr hk] at hop
  rw [rootOperator_expr hk'] at hop'
  obtain rfl := Except.ok.inj hop
  obtain rfl := Except.ok.inj hop'
  exact .pure _

end LimitRule

namespace SetOperationRule

/-- Replacing a union by a concatenation without duplicates cannot fail. -/
theorem succeeds_unionToUnionAll (binds : m.Binds (ofKind .union) t) :
    (unionToUnionAll m t).Succeeds := by
  obtain ⟨place, s, ids, rfl, hk, -⟩ := binds_ofKind binds
  exact .bind ⟨_, rootAs_expr Operator.setOp? hk rfl _⟩ fun _ _ => .pure _

/-- Replacing a set operation by a join cannot fail. -/
theorem succeeds_toJoin (h : m.Ranked base n) {kind : SetOpKind} (type : JoinType)
    (binds : m.Binds (ofKind kind) t) : (toJoin type m t).Succeeds := by
  obtain ⟨place, s, ids, rfl, hk, -⟩ := binds_ofKind binds
  have length : ids.length = s.inputs.length := h.saturated _ _ hk
  unfold toJoin
  refine .bind ⟨_, rootAs_expr Operator.setOp? hk rfl _⟩ fun _ hs => ?_
  rw [rootAs_expr Operator.setOp? hk rfl] at hs
  obtain rfl := Except.ok.inj hs
  split
  · rename_i two
    have two : ids.length = 2 := by simpa [inputs] using congrArg List.length two
    refine .bind (.elementAt (by omega)) fun _ _ => .bind (.elementAt (by omega)) fun _ _ => ?_
    split <;> exact .pure _
  · exact .pure _

end SetOperationRule

/-- Implementing an operator cannot fail. -/
theorem ImplementationRule.succeeds_apply (h : m.Ranked base n) {r : RuleId}
    (binds : m.Binds (implementable r) t) : (apply r m t).Succeeds := by
  simp only [implementable, Memo.Binds] at binds
  obtain ⟨place, ⟨op, ids⟩, rfl, hk, accepted⟩ := binds
  obtain ⟨op', implements⟩ := Option.isSome_iff_exists.1 accepted
  have root := rootAs_expr r.implementation? hk implements (ids.map .group)
  unfold apply
  refine .bind ⟨_, root⟩ fun _ hop => .bind ?_ fun _ _ => ?_
  · rw [root] at hop
    obtain rfl := Except.ok.inj hop
    cases op with
    | physical op => cases implements
    | logical op =>
      cases op' with
      | hashJoin j =>
        have known := RuleId.implemented?_of_physical? implements
        cases known
        obtain ⟨a, b, rfl⟩ := List.length_eq_two.1 (h.saturated _ _ hk)
        have side {i : GroupId} (hi : i ∈ [a, b]) :
            (ExprTree.property m (.group i)).Succeeds :=
          succeeds_property (h.inputs hk i hi) rfl
        refine .bind (.pure _) fun _ ha => ?_
        obtain rfl := Except.ok.inj ha
        refine (side (by simp)).bind fun _ _ => .bind (.pure _) fun _ hb => ?_
        obtain rfl := Except.ok.inj hb
        exact (side (by simp)).bind fun _ _ => .pure _
      | _ => exact .pure _
  · split <;> exact .pure _

/-- A rule does not fail on a binding of its pattern. -/
theorem RuleId.succeeds_apply (h : m.Ranked base n) {r : RuleId}
    (binds : m.Binds r.pattern t) :
    (r.apply m t).Succeeds := by
  cases r with
  | joinCommutativity => exact JoinRule.succeeds_commute h binds
  | joinAssociativity => exact JoinRule.succeeds_associate h binds
  | innerJoinSemiJoinSwap | innerJoinAntiSemiJoinSwap => exact JoinRule.succeeds_swap h binds
  | innerJoinToIndexApply => exact JoinRule.succeeds_toIndexApply h binds
  | pushLimitBelowProject => exact LimitRule.succeeds_pushBelowProject binds
  | mergeLimits => exact LimitRule.succeeds_merge binds
  | unionToUnionAllGroupBy => exact SetOperationRule.succeeds_unionToUnionAll binds
  | differenceToAntiJoin | intersectToSemiJoin =>
    exact SetOperationRule.succeeds_toJoin h _ binds
  | _ => exact ImplementationRule.succeeds_apply h binds

end QueryOptimizer
