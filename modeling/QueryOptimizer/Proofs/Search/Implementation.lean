import QueryOptimizer.Proofs.Search.Readiness

/-!
# Expressions are implemented

Every logical operator has a rule that puts a physical operator in its place whatever the
inputs are. A rule is applied to an expression once in all stages together, so what it has
made must be found again when it is not applied any more: the physical expression is in the
group of the logical one. It cannot have been in the memo for another reason, because no rule
makes it of anything else.

## Main results

* `LogicalOperator.exists_implements`: each logical operator can be implemented.
* `Task.exec_applyingRule`: when the rule is applied, its expression is new.
* `Task.implemented_of_run`: expressions that rules have been applied to stay implemented.
-/

namespace QueryOptimizer

variable {K : Type} {m m' : Memo K} {base : List LogicalOperator} {n : Nat}

/-! ### Rules that implement operators -/

/-- Whether a rule puts a physical operator in place of a logical one, whatever the inputs are.
Only a hash join cannot run on all inputs. -/
def RuleId.Implements (r : RuleId) (op : LogicalOperator) (op' : PhysicalOperator) : Prop :=
  r.physical? op = some op' ∧ r ≠ joinToHashJoin

namespace LogicalOperator

/-- The rule that implements an operator whatever the inputs are. -/
def implementer : LogicalOperator → RuleId
  | get _ => .getToTableScan
  | dynamicGet _ => .dynamicGetToDynamicTableScan
  | values _ => .valuesToValuesScan
  | select _ => .selectToFilter
  | project _ => .projectToCompute
  | groupBy _ => .groupByToHashAggregate
  | limit _ => .limitToPhysicalLimit
  | join _ => .joinToNestedLoopJoin
  | apply _ => .applyToIndexNestedLoopJoin
  | setOp s => if s.kind == .unionAll then .unionAllToPhysicalUnionAll else .setOpToHashSetOp
  | cteAnchor _ => .anchorToSequence
  | cteProducer _ => .producerToPhysical
  | cteConsumer _ => .consumerToPhysical

/-- Each logical operator can be implemented. -/
theorem exists_implements (op : LogicalOperator) :
    ∃ op', op.implementer.Implements op op' := by
  cases op with
  | setOp s =>
    obtain ⟨kind, output, inputs⟩ := s
    cases kind <;> exact ⟨_, rfl, RuleId.noConfusion⟩
  | _ => exact ⟨_, rfl, RuleId.noConfusion⟩

/-- The rule that implements an operator is worth trying. -/
theorem implementer_mem_candidateRules (op : LogicalOperator) :
    op.implementer ∈ op.candidateRules := by
  have first (r : RuleId) (rs : List RuleId) : r ∈ (⟨r :: rs⟩ : RuleSet) := List.mem_cons_self
  have second (r s : RuleId) (rs : List RuleId) : r ∈ (⟨s :: r :: rs⟩ : RuleSet) :=
    List.mem_cons_of_mem s List.mem_cons_self
  cases op with
  | join j =>
    obtain ⟨type, p⟩ := j
    cases type <;> exact second ..
  | setOp s =>
    obtain ⟨kind, output, inputs⟩ := s
    cases kind <;> first | exact first .. | exact second ..
  | _ => exact first ..

end LogicalOperator

/-- A rule that implements an operator is an implementation rule. -/
theorem RuleId.Implements.mem_implementations {r : RuleId} {op : LogicalOperator}
    {op' : PhysicalOperator} (implements : r.Implements op op') : r ∈ RuleSet.implementation :=
  (List.mem_append.1 r.mem_all).resolve_left (notMem_explorations_of_physical? implements.1)

namespace Memo

/-! ### Implemented expressions -/

/-- Whether each physical expression that is no enforcer is in the group of the logical one
that a rule made it of, and each logical expression is implemented if a rule has been
applied that does so. -/
structure Implemented (m : Memo K) : Prop where
  origin : ∀ {place op' ids}, m.key? place = some ⟨.physical op', ids⟩ →
    op'.isEnforcer = false → ∃ source op rule, source.group = place.group ∧
    m.key? source = some ⟨.logical op, ids⟩ ∧
      rule.physical? op = some op' ∧ rule ∈ m.marks source
  stored : ∀ {place op ids rule op'}, m.key? place = some ⟨.logical op, ids⟩ →
    rule.Implements op op' → rule ∈ m.marks place →
      ∃ place', place'.group = place.group ∧ m.key? place' = some ⟨.physical op', ids⟩

namespace Implemented

/-- Without physical expressions and marks there is nothing to implement. -/
theorem of_logical (logical : ∀ {place k}, m.key? place = some k → k.operator.isLogical = true)
    (marks : ∀ place, m.marks place = []) : m.Implemented where
  origin hk := by cases logical hk
  stored _ _ marked := by rw [marks] at marked; cases marked

/-- Implemented expressions stay so when a memo settles. -/
theorem settled (h : m.Implemented) (settled : m.Settled m') : m'.Implemented := by
  have marked {place : ExprId} {op : LogicalOperator} {ids : List GroupId} (rule : RuleId)
      (hk : m.key? place = some ⟨.logical op, ids⟩) : rule ∈ m'.marks place ↔
      rule ∈ m.marks place := by
    have logical : m.Logical (fun _ => True) place := ⟨op, ids, hk, trivial⟩
    have same := settled.pending (place, rule)
    simp only [Pending, settled.logical_iff, logical, true_and] at same
    exact not_iff_not.1 same
  refine ⟨fun {place op' ids} hk plain =>
    ?_, fun {place op ids rule op'} hk implements mark => ?_⟩
  · cases known : m.key? place with
    | none =>
      have enforces := (settled.enforcers hk known).1
      rw [show Operator.isEnforcer (.physical op') = op'.isEnforcer from
        rfl, plain] at enforces
      cases enforces
    | some k =>
      obtain rfl := Option.some.inj ((settled.extended.key _ _ known).symm.trans hk)
      obtain ⟨source, op, rule, here, hk', implements, mark⟩ := h.origin known plain
      exact ⟨source, op, rule, here, settled.extended.key _ _ hk', implements,
        (marked rule hk').2 mark⟩
  · obtain ⟨op₁, ids₁, hk', -⟩ :=
      (settled.logical_iff (P := fun _ => True)).1 ⟨op, ids, hk, trivial⟩
    cases Option.some.inj ((settled.extended.key _ _ hk').symm.trans hk)
    obtain ⟨place', here, stored⟩ := h.stored hk' implements ((marked rule hk').1 mark)
    exact ⟨place', here, settled.extended.key _ _ stored⟩

/-- What a rule is going to make of an expression is not in the memo. -/
theorem index_eq_none (h : m.Implemented) (coherent : m.Coherent) {id : ExprId}
    {op : LogicalOperator} {op' : PhysicalOperator} {ids : List GroupId} {rule : RuleId}
    (hk : m.key? id = some ⟨.logical op, ids⟩) (unmarked : rule ∉ m.marks id)
    (implements : rule.physical? op = some op') :
    m.index[(⟨.physical op', ids⟩ : ExprKey)]? = none := by
  refine Option.eq_none_iff_forall_ne_some.2 fun place found => unmarked ?_
  obtain ⟨⟨kind, inputs⟩, hplace, same⟩ := coherent.index found
  obtain ⟨kinds, rfl⟩ := ExprKey.beq_iff.1 same
  cases kind with
  | logical _ => cases kinds
  | physical kind =>
    have plain : kind.isEnforcer = false :=
      (Operator.isEnforcer_congr kinds).trans (RuleId.isEnforcer_of_physical? implements)
    obtain ⟨source, op₁, rule₁, -, hsource, implements₁, mark⟩ := h.origin hplace plain
    obtain ⟨rfl, equal⟩ := RuleId.eq_of_physical? implements₁ implements kinds
    obtain rfl := coherent.unique hsource hk (ExprKey.beq_iff.2 ⟨equal, rfl⟩)
    exact mark

end Implemented

end Memo

/-! ### Applying a rule that implements an operator -/

namespace Task

open Memo MemoM ImplementationRule

variable [Quantity K] {env : Environment K} {id : ExprId} {op : LogicalOperator}
  {op' : PhysicalOperator} {ids : List GroupId} {rule : RuleId} {r? : Option (Request K)}

omit [Quantity K] in
/-- An implementation rule binds the operator that it implements. -/
theorem pattern_of_physical? (implements : rule.physical? op = some op') :
    rule.pattern = implementable rule ∧
      ∀ (m : Memo K) t, rule.apply m t = ImplementationRule.apply rule m t := by
  unfold RuleId.physical? at implements
  split at implements <;> first | exact ⟨rfl, fun _ _ => rfl⟩ | cases implements

omit [Quantity K] in
/-- There is one binding, and what a rule makes of it has the same inputs. -/
theorem bindings_of_implements (hk : m.key? id = some ⟨.logical op, ids⟩)
    (implements : rule.Implements op op') :
    m.bindings rule.pattern id = [.expr id (ids.map .group)] ∧
      rule.apply m (.expr id (ids.map .group)) =
        .ok (some (.operator (.physical op') (ids.map .group))) := by
  obtain ⟨physical, other⟩ := implements
  obtain ⟨pattern, apply⟩ := pattern_of_physical? (K := K) physical
  have accepted : rule.implementation? (.logical op) = some op' := physical
  constructor
  · obtain ⟨e, he, same⟩ := exists_expr_of_key? hk
    have kind : e.operator = .logical op := congrArg ExprKey.operator same
    have inputs : e.inputs = ids := congrArg ExprKey.inputs same
    simp [pattern, implementable, bindings, bindAt, exprsWhere, he, kind, accepted, inputs]
  · have root := ExprTree.rootAs_expr rule.implementation? hk accepted (ids.map .group)
    have runs : canRun m (.expr id (ids.map .group)) op' = .ok true := by
      cases op' with
      | hashJoin j => cases (RuleId.implemented?_of_physical? physical); exact absurd rfl other
      | _ => rfl
    rw [apply, ImplementationRule.apply, root]
    simp only [bind, Except.bind, runs]
    rfl

variable (env) in
/-- The expression that a rule makes is new, and it is optimized if something is wanted. -/
theorem exec_applyingRule (h : m.Implemented) (ranked : m.Ranked base n)
    (hk : m.key? id = some ⟨.logical op, ids⟩) (unmarked : rule ∉ m.marks id)
    (implements : rule.Implements op op') (r? : Option (Request K)) :
    ∃ place m', (applyingRule env rule id r?).exec m =
        (.ok (r?.toList.map (optimizeInputs place · .start)), m') ∧
      place.group = id.group ∧ m'.key? place = some ⟨.physical op', ids⟩ := by
  obtain ⟨e, he, same⟩ := exists_expr_of_key? hk
  have new := h.index_eq_none ranked.toCoherent hk unmarked implements.1
  obtain ⟨m₁, place, added⟩ := exists_addExpr m id.group ⟨.physical op', ids⟩ (lt_of_key? hk)
  obtain ⟨bindings, apply⟩ := bindings_of_implements hk implements
  have tree :
    (insertTree env (.operator (.physical op') (ids.map .group)) (some id.group)).exec m =
      (.ok (place, true), m₁) := by
    simp only [insertTree, insertNode, exec_bind, exec_get, exec_tryCatch,
      Ranked.exec_insertInputs_groups, exec_insertKey_some, new, added]
  have stored : m₁.key? place = some ⟨.physical op', ids⟩ := by
    rw [key?_addExpr added, if_pos rfl]
  obtain ⟨e₁, he₁, same₁⟩ := exists_expr_of_key? stored
  have kind : e₁.operator = .physical op' := congrArg ExprKey.operator same₁
  have follow : (followUp place r?).exec m₁ =
      (.ok (r?.toList.map (optimizeInputs place · .start)), m₁) := by
    simp only [followUp, exec_bind, exec_get, exec_lift, he₁, kind]
    cases r? <;> rfl
  have made : (applyTo env rule id r? (.expr id (ids.map .group))).exec m =
      (.ok (r?.toList.map (optimizeInputs place · .start)), m₁) := by
    simp only [applyTo, exec_bind, exec_get, exec_lift, apply, tree]
    exact follow
  have marked : rule ∉ e.applied := fun mem => unmarked ((marks_of_expr he).symm ▸ mem)
  have like :
      m₁.Like (m₁.modifyExpr id fun e => { e with applied := ⟨rule :: e.applied.ids⟩ }) :=
    .modifyExpr m₁ id fun _ => rfl
  refine ⟨place, m₁.modifyExpr id fun e => { e with applied := ⟨rule :: e.applied.ids⟩ }, ?_,
    group_of_addExpr added, (like.key _).trans stored⟩
  simp only [applyingRule, exec_bind, exec_get, exec_lift, he, if_neg marked,
    bindings, List.mapM_cons, List.mapM_nil, made, exec_pure, exec_modify]
  cases r? <;> rfl

/-! ### Tasks -/

/-- Expressions stay implemented. -/
theorem implemented_of_run (answers : env.catalog.Answers) (going : env.isCancelled = false)
    (operations : ∀ s ∈ base.flatMap LogicalOperator.operations, s.inputs ≠ [])
    (h : m.Implemented) (ranked : m.Ranked base n) {rules : RuleSet} {t : Task K}
    (ready : t.Ready m) {next : List (Task K)}
    (run : (t.run env rules).exec m = (.ok next, m')) : m'.Implemented := by
  by_cases applies : ∃ rule id r?, t = applyRule rule id r?
  swap
  · exact h.settled
      (settled_of_run ranked run fun rule id r? same => applies ⟨rule, id, r?, same⟩).1
  obtain ⟨rule, id, r?, rfl⟩ := applies
  obtain ⟨op, ids, hk, -⟩ := ready
  have run : (applyingRule env rule id r?).exec m = (.ok next, m') := run
  have done := (applyingRule_yields answers going operations ranked hk rule r?).of_exec run
  rcases done with ⟨-, rfl, -⟩ | ⟨unmarked, ⟨m₁, enters, rfl⟩, -⟩
  · exact h
  have like :
      m₁.Like (m₁.modifyExpr id fun e => { e with applied := ⟨rule :: e.applied.ids⟩ }) :=
    .modifyExpr m₁ id fun _ => rfl
  refine ⟨fun {place op' ids'} hk' plain =>
    ?_, fun {place op₁ ids₁ rule₁ op'} hk' implements mark => ?_⟩
  · rw [like.key] at hk'
    cases known : m.key? place with
    | some k =>
      obtain rfl := Option.some.inj ((enters.extended.key _ _ known).symm.trans hk')
      obtain ⟨source, op₁, rule₁, here, hsource, implements, mark⟩ := h.origin known plain
      exact ⟨source, op₁, rule₁, here,
        (like.key _).trans (enters.extended.key _ _ hsource), implements,
        (enters.mem_marks hk).2 (.inl mark)⟩
    | none =>
      obtain ⟨here, op₁, implements, same⟩ :=
        (enters.fresh hk' known).resolve_left Bool.noConfusion
      cases same
      exact ⟨id, op, rule, here.symm,
        (like.key _).trans (enters.extended.key _ _ hk), implements,
        (enters.mem_marks hk).2 (.inr ⟨rfl, rfl⟩)⟩
  · rw [like.key] at hk'
    cases known : m.key? place with
    | none =>
      rcases (enters.mem_marks hk).1 mark with old | ⟨rfl, -⟩
      · rw [marks_of_key?_none known] at old
        cases old
      · rw [hk] at known
        cases known
    | some k =>
      obtain rfl := Option.some.inj ((enters.extended.key _ _ known).symm.trans hk')
      rcases (enters.mem_marks hk).1 mark with old | ⟨rfl, rfl⟩
      · obtain ⟨place', here, stored⟩ := h.stored known implements old
        exact ⟨place', here, (like.key _).trans (enters.extended.key _ _ stored)⟩
      · obtain ⟨place', m₃, run'', here, stored⟩ :=
          exec_applyingRule env h ranked known unmarked implements r?
        rw [run] at run''
        cases run''
        exact ⟨place', here, stored⟩

end Task

end QueryOptimizer
