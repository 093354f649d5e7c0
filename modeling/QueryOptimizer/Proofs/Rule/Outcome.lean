import QueryOptimizer.Proofs.Memo.Saturation
import QueryOptimizer.Proofs.Rule.Rewriting

/-!
# What rules make

An exploration rule makes a logical operator of a binding and an implementation rule a physical
one. Neither makes an enforcer: these are only put on top of what has been found. The operators
that a rule makes have as many inputs as they take, if those have that it was given.

## Main results

* `RuleId.apply_makes`: which operators the rules make.
* `RuleId.apply_saturated`: what a rule makes is saturated.
-/

namespace QueryOptimizer

variable {K : Type} {m : Memo K} {k : ExprKey} {r : RuleId} {t t' u : ExprTree}

/-! ### Kinds of operators -/

/-- Whether a tree is a new logical operator. -/
def ExprTree.MakesLogical (t : ExprTree) : Prop :=
  ∃ op inputs, t = .operator (.logical op) inputs

/-- The rule that makes a physical operator that is no enforcer, and the logical operator
that it implements. -/
def PhysicalOperator.implemented? : PhysicalOperator → Option (RuleId × LogicalOperator)
  | tableScan s => some (.getToTableScan, .get s)
  | dynamicTableScan s => some (.dynamicGetToDynamicTableScan, .dynamicGet s)
  | valuesScan v => some (.valuesToValuesScan, .values v)
  | filter p => some (.selectToFilter, .select p)
  | compute ds => some (.projectToCompute, .project ds)
  | hashAggregate g => some (.groupByToHashAggregate, .groupBy g)
  | limit l => some (.limitToPhysicalLimit, .limit l)
  | hashJoin j => some (.joinToHashJoin, .join j)
  | nestedLoopJoin j => some (.joinToNestedLoopJoin, .join j)
  | indexNestedLoopJoin a => some (.applyToIndexNestedLoopJoin, .apply a)
  | unionAll s => some (.unionAllToPhysicalUnionAll, .setOp s)
  | hashSetOp s => some (.setOpToHashSetOp, .setOp s)
  | sequence id => some (.anchorToSequence, .cteAnchor id)
  | cteProducer p => some (.producerToPhysical, .cteProducer p)
  | cteConsumer c => some (.consumerToPhysical, .cteConsumer c)
  | sort _ | motion _ => none

theorem PhysicalOperator.implemented?_bare (op : PhysicalOperator) :
    op.bare.implemented? = op.implemented?.map (Prod.map id LogicalOperator.bare) := by
  cases op <;> rfl

namespace RuleId

/-- Only one rule makes an operator, and of one logical operator only. -/
theorem implemented?_of_physical? {op : LogicalOperator} {op' : PhysicalOperator}
    (h : r.physical? op = some op') : op'.implemented? = some (r, op) := by
  unfold physical? at h
  split at h
  all_goals (try split at h) <;> first | (cases h; rfl) | cases h

/-- An implementation tells the rule and the logical operator that it comes from. -/
theorem eq_of_physical? {r' : RuleId} {op op' : LogicalOperator} {p p' : PhysicalOperator}
    (h : r.physical? op = some p) (h' : r'.physical? op' = some p') (same : (p == p') = true) :
    r = r' ∧ (op == op') = true := by
  have bare := congrArg PhysicalOperator.implemented? (PhysicalOperator.beq_iff_bare.1 same)
  rw [PhysicalOperator.implemented?_bare, PhysicalOperator.implemented?_bare,
    implemented?_of_physical? h, implemented?_of_physical? h', Option.map_some,
    Option.map_some,
    Option.some.injEq, Prod.map_apply, Prod.map_apply, Prod.mk.injEq] at bare
  exact ⟨bare.1, LogicalOperator.beq_iff_bare.2 bare.2⟩

/-- No logical operator is implemented by an enforcer. -/
theorem isEnforcer_of_physical? {op : LogicalOperator} {op' : PhysicalOperator}
    (h : r.physical? op = some op') : op'.isEnforcer = false := by
  unfold physical? at h
  split at h
  all_goals (try split at h) <;> first | (cases h; rfl) | cases h

/-- The rules that make physical operators are no exploration rules. -/
theorem notMem_explorations_of_physical? {op : LogicalOperator} {op' : PhysicalOperator}
    (h : r.physical? op = some op') : r ∉ explorations := by
  unfold physical? at h
  split at h
  all_goals first | decide | cases h

/-- A rule that exchanges joins explores. -/
theorem mem_explorations_of_exchanges {type : JoinType} (h : r.exchanges type = true) :
    r ∈ explorations := by
  unfold exchanges at h
  split at h
  all_goals first | decide | cases h

/-- A rule that replaces a set operation by a join explores. -/
theorem mem_explorations_of_joinFor? {kind : SetOpKind × JoinType}
    (h : r.joinFor? = some kind) :
    r ∈ explorations := by
  unfold joinFor? at h
  split at h
  all_goals first | decide | cases h

/-- Rules that explore make logical trees, the others a physical operator
that is no enforcer. -/
theorem Rewrites.makes (h : r.Rewrites m k t') :
    if r ∈ explorations then t'.MakesLogical
    else ∃ op inputs, t' = .operator (.physical op) inputs ∧ op.isEnforcer = false := by
  cases h with
  | exchange exchanges =>
    rw [if_pos (mem_explorations_of_exchanges exchanges)]
    exact ⟨_, _, rfl⟩
  | rejoin joins =>
    rw [if_pos (mem_explorations_of_joinFor? joins)]
    exact ⟨_, _, rfl⟩
  | implement implements =>
    rw [if_neg (notMem_explorations_of_physical? implements)]
    exact ⟨_, _, rfl, isEnforcer_of_physical? implements⟩
  | _ => exact ⟨_, _, rfl⟩

/-- An exploration rule makes a logical operator, an implementation rule a physical one
that is no enforcer. -/
theorem apply_makes (binds : m.Binds r.pattern t) (made : r.apply m t = .ok (some t')) :
    if r ∈ explorations then t'.MakesLogical
    else ∃ op inputs, t' = .operator (.physical op) inputs ∧ op.isEnforcer = false := by
  obtain ⟨_, _, _, -, -, rewrites⟩ := rewrites_of_apply binds made
  exact rewrites.makes

/-- No rule makes an enforcer. -/
theorem isEnforcer_of_apply (binds : m.Binds r.pattern t)
    (made : r.apply m t = .ok (some t')) :
    t'.isEnforcer = false := by
  have makes := apply_makes binds made
  split at makes
  · obtain ⟨op, inputs, rfl⟩ := makes
    rfl
  · obtain ⟨op, inputs, rfl, plain⟩ := makes
    exact plain

end RuleId

/-! ### Numbers of inputs -/

namespace ExprTree.Saturated

/-- Groups are saturated. -/
theorem groups (ids : List GroupId) : ∀ t ∈ ids.map ExprTree.group, t.Saturated := by
  intro t ht
  obtain ⟨i, -, rfl⟩ := List.mem_map.1 ht
  exact .group i

/-- A join of saturated trees is saturated. -/
theorem joined {j : Join} (ht : t.Saturated) (hu : u.Saturated) :
    (ExprTree.joined j t u).Saturated :=
  .operator rfl (by simp [ht, hu])

/-- An operator with one input is saturated on a saturated tree. -/
theorem single {op : Operator} (one : op.arity = 1) (ht : t.Saturated) :
    (ExprTree.operator op [t]).Saturated :=
  .operator one.symm (List.forall_mem_singleton.2 ht)

/-- An operator over the inputs of an expression. -/
theorem ofInputs (saturated : k.Saturated) {op : Operator}
    (same : op.arity = k.operator.arity) :
    (ExprTree.operator op (k.inputs.map .group)).Saturated :=
  .operator ((List.length_map _).trans (saturated.trans same.symm)) (groups k.inputs)

/-- A saturated tree stays so when its columns are renamed. -/
theorem renamed {target source : List Column} (h : t.Saturated) :
    (SetOperationRule.renamed target source t).Saturated := by
  unfold SetOperationRule.renamed
  split
  · exact h
  · exact h.single (by rfl)

end ExprTree.Saturated

namespace RuleId

/-- A physical operator takes the inputs of the logical one that it implements. -/
theorem arity_of_physical? {op : LogicalOperator} {op' : PhysicalOperator}
    (h : r.physical? op = some op') : op'.arity = op.arity := by
  unfold physical? at h
  split at h
  all_goals (try split at h) <;> first | (cases h; rfl) | cases h

/-- Rules make saturated trees of saturated expressions. -/
theorem Rewrites.saturated (saturated : m.Saturated) {place : ExprId}
    (known : m.key? place = some k) (h : r.Rewrites m k t') : t'.Saturated := by
  have root : k.Saturated := saturated place k known
  cases h with
  | commute => exact .joined (.group _) (.group _)
  | associate => exact .joined (.group _) (.joined (.group _) (.group _))
  | exchange => exact .joined (.joined (.group _) (.group _)) (.group _)
  | lookup => exact .operator rfl (by simpa using ⟨.group _, .single (by rfl) (.group _)⟩)
  | push below =>
    exact .single (by rfl) (.ofInputs (k := ⟨_, _⟩) (saturated _ _ below) (by rfl))
  | merge below => exact .ofInputs (k := ⟨_, _⟩) (saturated _ _ below) (by rfl)
  | unionAll => exact .single (by rfl) (.ofInputs (k := ⟨_, _⟩) root (by rfl))
  | rejoin => exact .single (by rfl) (.renamed (.joined (.group _) (.group _)))
  | implement implements => exact .ofInputs (k := ⟨_, _⟩) root (arity_of_physical? implements)

/-- What a rule makes of a binding is saturated, if the memo is. -/
theorem apply_saturated (saturated : m.Saturated) (binds : m.Binds r.pattern t)
    (made : r.apply m t = .ok (some t')) : t'.Saturated := by
  obtain ⟨place, _, k, -, known, rewrites⟩ := rewrites_of_apply binds made
  exact rewrites.saturated saturated known

end RuleId

end QueryOptimizer
