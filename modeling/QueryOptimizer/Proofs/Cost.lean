import Mathlib.Algebra.Order.Field.Basic
import QueryOptimizer.Cost
import QueryOptimizer.Proofs.Bare
import QueryOptimizer.Proofs.Number.Quantity
import QueryOptimizer.Proofs.Result

/-!
# Costs of operators

Equal operators cost the same, and no operator costs less than nothing as long as there are no
negative numbers of rows.

## Main results

* `Cost.ofOperator_congr`: the cost of an operator does not depend on the names of columns.
* `Cost.ofOperator_nonneg`: exact costs are not negative.
-/

namespace QueryOptimizer

namespace Cost

/-- Operators that match cost the same. -/
theorem ofOperator_congr {K : Type} [Quantity K] {op op' : PhysicalOperator}
    (config : Config K) (output : Statistics K) (inputs : List (Statistics K))
    (same : (op == op') = true) :
    ofOperator config op output inputs = ofOperator config op' output inputs := by
  have bare := PhysicalOperator.beq_iff_bare.1 same
  cases op <;> cases op' <;> first | rfl | cases bare | skip
  case motion.motion m m' =>
    obtain ⟨target, _⟩ := m
    obtain ⟨target', _⟩ := m'
    have targets : target.bare = target'.bare := Distribution.beq_iff_bare.1 same
    cases target <;> cases target' <;> first | rfl | cases targets

variable {K : Type} [ExactQuantity K]

open Quantity

/-- The factors of costs are not negative. -/
theorem factors_nonneg : (0 : K) ≤ scanRow ∧ (0 : K) ≤ handleRow ∧ (0 : K) ≤ buildRow ∧
    (0 : K) ≤ probeRow ∧ (0 : K) ≤ moveRow := by
  simp only [scanRow, handleRow, buildRow, probeRow, moveRow, ExactQuantity.ofScientific_eq]
  norm_num

/-- The rows of an input are not negative. -/
theorem inputRows_nonneg {op : PhysicalOperator} {inputs : List (Statistics K)} {index : Nat}
    {rows : K} (below : ∀ s ∈ inputs, 0 ≤ s.rows) (h : inputRows op inputs index = .ok rows) :
    0 ≤ rows := by
  unfold inputRows at h
  split at h
  · rename_i s found
    obtain rfl := Except.ok.inj h
    exact below s (List.mem_of_getElem? found)
  · cases h

/-- An operator over inputs with rows costs something, or nothing. -/
theorem ofOperator_nonneg {config : Config K} {op : PhysicalOperator} {output : Statistics K}
    {inputs : List (Statistics K)} {cost : K} (rows : 0 ≤ output.rows)
    (width : 0 ≤ output.rowWidth) (below : ∀ s ∈ inputs, 0 ≤ s.rows)
    (h : ofOperator config op output inputs = .ok cost) : 0 ≤ cost := by
  obtain ⟨scan, handle, build, probe, move⟩ := factors_nonneg (K := K)
  have lookup (a : K) : 0 ≤ larger a 1.0 := by
    rw [larger_eq_max, one_eq]
    exact le_max_of_le_right zero_le_one
  cases op with
  | tableScan | dynamicTableScan =>
    obtain rfl := Except.ok.inj h
    have bytes : (100.0 : K) = 100 := by
      rw [ExactQuantity.ofScientific_eq]
      norm_num
    rw [one_eq, bytes]
    positivity
  | valuesScan | cteConsumer | limit | unionAll =>
    obtain rfl := Except.ok.inj h
    positivity
  | filter | compute | cteProducer =>
    obtain ⟨a, ha, same⟩ := OptResult.bind_eq_ok.1 h
    obtain rfl := Except.ok.inj same
    have := inputRows_nonneg below ha
    positivity
  | hashAggregate =>
    obtain ⟨a, ha, same⟩ := OptResult.bind_eq_ok.1 h
    obtain rfl := Except.ok.inj same
    have := inputRows_nonneg below ha
    positivity
  | hashJoin | nestedLoopJoin =>
    simp only [ofOperator, OptResult.bind_eq_ok] at h
    obtain ⟨a, ha, b, hb, same⟩ := h
    obtain rfl := Except.ok.inj same
    have := inputRows_nonneg below ha
    have := inputRows_nonneg below hb
    positivity
  | indexNestedLoopJoin =>
    simp only [ofOperator, OptResult.bind_eq_ok] at h
    obtain ⟨a, ha, b, hb, same⟩ := h
    obtain rfl := Except.ok.inj same
    have := inputRows_nonneg below hb
    have := lookup (log2 (a + 1.0))
    positivity
  | hashSetOp =>
    obtain rfl := Except.ok.inj h
    have : 0 ≤ sum (inputs.map (·.rows)) := by
      rw [sum_eq]
      exact List.sum_nonneg fun r hr => by
        obtain ⟨s, hs, rfl⟩ := List.mem_map.1 hr
        exact below s hs
    positivity
  | sequence =>
    obtain rfl := Except.ok.inj h
    exact handle
  | sort =>
    obtain rfl := Except.ok.inj h
    have := lookup output.rows
    have := lookup (log2 (larger output.rows 1.0))
    positivity
  | motion m =>
    simp only [ofOperator] at h
    split at h
    · obtain rfl := Except.ok.inj h
      rw [ExactQuantity.ofNat_eq]
      positivity
    · obtain rfl := Except.ok.inj h
      positivity

end Cost

end QueryOptimizer
