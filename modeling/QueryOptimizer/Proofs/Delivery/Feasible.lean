import QueryOptimizer.Cost
import QueryOptimizer.Proofs.Memo.Saturation

/-!
# Requirements that can be met

A required property is feasible if it asks for no distribution or for one that a motion leads
to, in any order. Whatever an expression delivers, enforcers then lead to what is required. Not
every alternative of an operator makes feasible requirements of the inputs, since it may hash
by no columns at all. But one of them always does: everything can be gathered on one segment,
unless the operator only passes on what is required of it or nothing.

## Main results

* `PhysicalProperty.enforcers_ne_nil`: enforcers lead to a feasible property.
* `PhysicalOperator.exists_feasible`: some alternative has feasible requirements only.
* `PhysicalOperator.succeeds_alternatives`, `Cost.succeeds_ofOperator`: operators that have all
  their inputs have alternatives and costs.
-/

namespace QueryOptimizer

open OptResult

/-! ### Enforcers -/

/-- Whether nothing keeps the optimizer from moving rows. -/
structure TraceFlags.AllowsMotions (flags : TraceFlags) : Prop where
  motions : flags.disableMotions = false
  random : flags.disableMotionRandom = false
  broadcast : flags.disableMotionBroadcast = false

/-- There is a motion toward everything that rows can be moved to. -/
theorem Distribution.isSome_motion? {flags : TraceFlags} (allows : flags.AllowsMotions)
    {d : Distribution} (movable : d.isMovable = true) : (d.motion? flags).isSome = true := by
  have toward : Motion.toward? d = some ⟨d, movable⟩ := dif_pos movable
  simp only [motion?, allows.motions, allows.random, allows.broadcast, toward,
    Bool.false_eq_true, if_false, Option.bind_eq_bind, Option.bind_some]
  split <;> rfl

namespace PhysicalProperty

/-- Whether a property asks for no distribution or for one that a motion leads to. -/
def Feasible (p : PhysicalProperty) : Prop :=
  p.distribution = .any ∨ p.distribution.isMovable = true

/-- It is feasible to require nothing. -/
theorem Feasible.any : any.Feasible :=
  .inl rfl

/-- It is feasible to require all rows in one place, in any order. -/
theorem Feasible.gathered {o : SortOrder} : Feasible ⟨.singleton, o⟩ :=
  .inr rfl

/-- Enforcers lead to a feasible property from everything that is not good enough. -/
theorem enforcers_ne_nil {flags : TraceFlags} (allows : flags.AllowsMotions)
    {required delivered : PhysicalProperty} (feasible : required.Feasible)
    (unmet : delivered.satisfies required = false) :
    required.enforcers delivered flags ≠ [] := by
  unfold enforcers
  split
  · rename_i placed
    have unsorted : delivered.order.satisfies required.order = false := by
      simpa [satisfies, placed] using unmet
    simp [sortEnforcers, unsorted]
  · rename_i elsewhere
    rcases feasible with none | movable
    · exact absurd (by simp [none, Distribution.satisfies]) elsewhere
    · obtain ⟨motion, hmotion⟩ :=
        Option.isSome_iff_exists.1 (Distribution.isSome_motion? allows movable)
      simp [hmotion]

end PhysicalProperty

/-! ### Alternatives -/

section Alternatives

variable {required : PhysicalProperty} {outs : List ColumnSet} {as : List Alternative}

/-- Whether everything that an alternative requires is feasible. -/
def Alternative.Feasible (a : Alternative) : Prop :=
  ∀ p ∈ a.requires, p.Feasible

/-- An alternative that requires something feasible of each input is feasible. -/
theorem Alternative.feasible_uniform {delivers p : PhysicalProperty} (feasible : p.Feasible)
    (arity : Nat) : (uniform delivers p arity).Feasible :=
  fun _ mem => List.eq_of_mem_replicate mem ▸ feasible

/-- Everything can be gathered on one segment. -/
theorem Alternative.feasible_gathered (arity : Nat) : (gathered arity).Feasible :=
  feasible_uniform .gathered arity

/-- An operator that passes its input on has a feasible alternative. -/
theorem exists_feasible_of_passThrough (feasible : required.Feasible)
    (listed : passThrough required outs = .ok as) : ∃ a ∈ as, a.Feasible := by
  obtain ⟨produced, -, listed⟩ := OptResult.bind_eq_ok.1 listed
  split at listed
  · obtain rfl := Except.ok.inj listed
    exact ⟨_, List.mem_singleton_self _, Alternative.feasible_uniform feasible 1⟩
  · obtain rfl := Except.ok.inj listed
    exact ⟨_, List.mem_singleton_self _, Alternative.feasible_uniform .any 1⟩

/-- A join by broadcasting or gathering has a feasible alternative. -/
theorem exists_feasible_of_broadcastOrGather
    (listed : broadcastOrGather required outs = .ok as) : ∃ a ∈ as, a.Feasible := by
  obtain ⟨produced, -, listed⟩ := OptResult.bind_eq_ok.1 listed
  obtain rfl := Except.ok.inj listed
  exact ⟨.gathered 2, by simp, Alternative.feasible_gathered 2⟩

namespace PhysicalOperator

variable {op : PhysicalOperator}

/-- One of the alternatives of an operator requires feasible properties of all inputs. -/
theorem exists_feasible (plain : op.isEnforcer = false) (feasible : required.Feasible)
    (listed : op.alternatives required outs = .ok as) : ∃ a ∈ as, a.Feasible := by
  cases op with
  | sort | motion => cases plain
  | filter | compute => exact exists_feasible_of_passThrough feasible listed
  | nestedLoopJoin | indexNestedLoopJoin => exact exists_feasible_of_broadcastOrGather listed
  | hashJoin j =>
    obtain ⟨first, -, second, hsecond, rfl⟩ := by
      simpa only [alternatives, OptResult.bind_eq_ok, OptResult.pure_eq_ok] using listed
    obtain ⟨a, mem, ha⟩ := exists_feasible_of_broadcastOrGather hsecond
    exact ⟨a, List.mem_append_right _ mem, ha⟩
  | tableScan | dynamicTableScan | valuesScan =>
    obtain rfl := Except.ok.inj listed
    exact ⟨_, List.mem_singleton_self _, List.forall_mem_nil _⟩
  | hashAggregate =>
    obtain rfl := Except.ok.inj listed
    exact ⟨.gathered 1, List.mem_cons_self, Alternative.feasible_gathered 1⟩
  | limit l =>
    obtain rfl := Except.ok.inj listed
    exact ⟨_, List.mem_singleton_self _, Alternative.feasible_uniform .gathered 1⟩
  | unionAll s | hashSetOp s =>
    obtain rfl := Except.ok.inj listed
    exact ⟨.gathered s.inputs.length, by simp, Alternative.feasible_gathered _⟩
  | sequence | cteProducer | cteConsumer =>
    obtain rfl := Except.ok.inj listed
    exact ⟨_, List.mem_singleton_self _, Alternative.feasible_gathered _⟩

/-! ### Operators that have all their inputs -/

/-- Whether an input has the columns of a property can be told. -/
theorem succeeds_inputProduces {index : Nat} (inside : index < outs.length)
    (p : PhysicalProperty) : (inputProduces outs index p).Succeeds :=
  .bind (.elementAt inside) fun _ _ => .pure _

/-- The alternatives of a join of two inputs can be listed. -/
theorem succeeds_broadcastOrGather (length : outs.length = 2) (required : PhysicalProperty) :
    (broadcastOrGather required outs).Succeeds :=
  (succeeds_inputProduces (by omega) required).bind fun _ _ => .pure _

/-- An operator that has all its inputs has alternatives. -/
theorem succeeds_alternatives (length : outs.length = op.arity) (required : PhysicalProperty) :
    (op.alternatives required outs).Succeeds := by
  cases op with
  | filter | compute =>
    refine (succeeds_inputProduces (length ▸ Nat.one_pos) required).bind fun _ _ => ?_
    split <;> exact .pure _
  | nestedLoopJoin | indexNestedLoopJoin => exact succeeds_broadcastOrGather length required
  | hashJoin j =>
    have two : outs.length = 2 := length
    refine .bind
      (.bind (.elementAt (by omega)) fun _ _ => .bind (.elementAt (by omega)) fun _ _ => ?_)
      fun _ _ => (succeeds_broadcastOrGather two required).bind fun _ _ => .pure _
    dsimp only
    split <;> exact .pure _
  | _ => exact .pure _

end PhysicalOperator

end Alternatives

/-! ### Costs -/

/-- An operator that has all its inputs has a cost. -/
theorem Cost.succeeds_ofOperator {K : Type} [Quantity K] (config : Config K)
    {op : PhysicalOperator} (output : Statistics K) {inputs : List (Statistics K)}
    (length : inputs.length = op.arity) : (ofOperator config op output inputs).Succeeds := by
  have input {i : Nat} (inside : i < op.arity) : (inputRows op inputs i).Succeeds := by
    refine ⟨inputs[i].rows, ?_⟩
    rw [inputRows, List.getElem?_eq_getElem (length ▸ inside)]
  cases op with
  | filter | compute | cteProducer | hashAggregate =>
    exact (input Nat.one_pos).bind fun _ _ => .pure _
  | hashJoin =>
    exact (input Nat.one_lt_two).bind fun _ _ => (input Nat.two_pos).bind fun _ _ => .pure _
  | nestedLoopJoin =>
    exact (input Nat.two_pos).bind fun _ _ => (input Nat.one_lt_two).bind fun _ _ => .pure _
  | indexNestedLoopJoin =>
    exact (input Nat.one_lt_two).bind fun _ _ => (input Nat.two_pos).bind fun _ _ => .pure _
  | motion m =>
    simp only [ofOperator]
    split <;> exact .pure _
  | _ => exact .pure _

end QueryOptimizer
