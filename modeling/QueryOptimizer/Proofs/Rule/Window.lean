import QueryOptimizer.Proofs.Delivery.Satisfaction
import QueryOptimizer.Proofs.Semantics.Operator

/-!
# Windows of limits

On rows in a known order a limit has no choice: it skips the first ones and takes those that
follow (`Limit.window`). One limit that does what two limits do has to skip what both skip, and
what the outer one skips is missing from what the inner one takes. Offsets and counts are held
within 64 bits. A sum of offsets that is too large for that is cut down to the largest offset,
which skips no row too few, because there are not that many rows.

## Main results

* `Limit.mergeOver_eq_some_iff`: when two limits are merged, and into which limit.
* `Limit.keeps_window`: the window is among the rows that a limit may keep.
* `Limit.merges_exactly`: a merged limit has the window of both limits and is in
  the order of both.
-/

namespace QueryOptimizer

namespace Limit

universe u

variable {α : Type u} {outer inner merged : Limit} {rows : List α}

/-- The rows that follow the first `offset` ones, or the first `count` of these. -/
def window (l : Limit) (rows : List α) : List α :=
  match l.count with
  | some n => (rows.drop l.offset).take n
  | none => rows.drop l.offset

/-- The window is among the rows that a limit may keep when their order is open. -/
theorem keeps_window (l : Limit) (rows : List Row) :
    l.Keeps (rows : Bag) (l.window rows : Bag) := by
  unfold window
  cases count : l.count with
  | none =>
    exact ⟨Multiset.coe_le.2 (rows.drop_sublist l.offset).subperm, by simp [count], by simp⟩
  | some n =>
    have taken : ((rows.drop l.offset).take n).Sublist rows :=
      ((rows.drop l.offset).take_sublist n).trans (rows.drop_sublist l.offset)
    refine ⟨Multiset.coe_le.2 taken.subperm, ?_, fun _ => ?_⟩
    · rintro k hk
      obtain rfl := Option.some.inj (count.symm.trans hk)
      simp
    · simp only [Multiset.coe_card, List.length_take, List.length_drop]
      omega

/-- Two limits are merged unless the outer one asks for an order of its own. -/
theorem mergeOver_eq_some_iff : outer.mergeOver inner = some merged ↔
    (outer.order.isEmpty = true ∨ (outer.order == inner.order) = true) ∧
      merged.offset = min (inner.offset + outer.offset) maximum ∧
      merged.count = (match inner.count.map (· - outer.offset), outer.count with
        | some m, some n => some (min m n)
        | some m, none => some m
        | none, n => n) ∧
      merged.order = inner.order := by
  have apart : (!outer.order.isEmpty && outer.order != inner.order) = true ↔
      ¬(outer.order.isEmpty = true ∨ (outer.order == inner.order) = true) := by
    cases outer.order.isEmpty <;> cases same : outer.order == inner.order <;> simp [bne, same]
  obtain ⟨offset, count, order⟩ := merged
  unfold mergeOver
  split
  · rename_i h
    simp [apart.1 h]
  · rename_i h
    constructor
    · intro made
      obtain ⟨rfl, rfl, rfl⟩ := mk.inj (Option.some.inj made)
      exact ⟨not_not.1 (mt apart.2 h), rfl, rfl, rfl⟩
    · rintro ⟨-, rfl, rfl, rfl⟩
      rfl

/-- Skipping the largest offset skips all rows, as skipping more would. -/
theorem drop_min_maximum (small : rows.length ≤ maximum) (n : Nat) :
    rows.drop (min n maximum) = rows.drop n := by
  rcases Nat.le_total n maximum with fits | beyond
  · rw [Nat.min_eq_left fits]
  · rw [Nat.min_eq_right beyond, List.drop_eq_nil_of_le small,
      List.drop_eq_nil_of_le (small.trans beyond)]

/-- What the outer limit skips of the rows that the inner one takes is missing
from the count. -/
theorem window_mergeOver (h : outer.mergeOver inner = some merged)
    (small : rows.length ≤ maximum) :
    merged.window rows = outer.window (inner.window rows) := by
  obtain ⟨-, offset, count, -⟩ := mergeOver_eq_some_iff.1 h
  have skipped : rows.drop merged.offset = (rows.drop inner.offset).drop outer.offset := by
    rw [offset, drop_min_maximum small, List.drop_drop]
  unfold window
  rw [count, skipped]
  cases inner.count with
  | none => cases outer.count <;> rfl
  | some m =>
    cases outer.count with
    | none => exact (List.drop_take).symm
    | some n => simp only [Option.map_some, List.drop_take, List.take_take, Nat.min_comm]

/-- Rows in the order of the merged limit are in the orders of both limits. -/
theorem satisfies_mergeOver (h : outer.mergeOver inner = some merged) :
    merged.order.satisfies inner.order = true ∧ merged.order.satisfies outer.order = true := by
  obtain ⟨mergeable, -, -, order⟩ := mergeOver_eq_some_iff.1 h
  rw [order]
  refine ⟨inner.order.satisfies_refl, SortOrder.satisfies_iff.2 ?_⟩
  rcases mergeable with none | same
  · simp [SortOrder.bare, List.isEmpty_iff.1 none]
  · rw [SortOrder.beq_iff_bare.1 same]

/-- Limits are merged exactly when the outer one has no order or that of the inner one. Then,
of fewer than `2 ^ 64` rows, the merged limit has the rows that the outer one has of those of
the inner one, and its order is good enough for both, whatever the offsets and counts are. -/
theorem merges_exactly (outer inner : Limit) :
    ((outer.mergeOver inner).isSome = true ↔
      outer.order.isEmpty = true ∨ (outer.order == inner.order) = true) ∧
    ∀ merged, outer.mergeOver inner = some merged →
      (∀ {α : Type u} (rows : List α), rows.length < 2 ^ 64 →
        merged.window rows = outer.window (inner.window rows)) ∧
      merged.order.satisfies inner.order = true ∧
        merged.order.satisfies outer.order = true := by
  refine ⟨?_, fun merged h => ⟨fun rows few => ?_, satisfies_mergeOver h⟩⟩
  · simp only [Option.isSome_iff_exists, mergeOver_eq_some_iff]
    exact ⟨fun ⟨_, mergeable, _⟩ => mergeable, fun mergeable =>
      ⟨⟨_, _, _⟩, mergeable, rfl, rfl, rfl⟩⟩
  · exact window_mergeOver h (Nat.le_pred_of_lt few)

/-- Of twenty rows the merged limit has the two that are left after ten and eight of the ten
that follow; offsets whose sum is too large leave nothing of three rows. -/
theorem merges_exactly_sample :
    ∃ merged saturated, mergeOver ⟨8, none, {}⟩ ⟨2, some 10, {}⟩ = some merged ∧
      mergeOver ⟨maximum, some 5, {}⟩ ⟨2, none, {}⟩ = some saturated ∧
      (List.range 20).length < 2 ^ 64 ∧ merged.window (List.range 20) = [10, 11] ∧
      saturated.offset = maximum ∧ saturated.window [1, 2, 3] = [] := by
  have twenty :=
    ((merges_exactly ⟨8, none, {}⟩ ⟨2, some 10, {}⟩).2 _ rfl).1 (List.range 20) (by decide)
  have three :=
    ((merges_exactly ⟨maximum, some 5, {}⟩ ⟨2, none, {}⟩).2 _ rfl).1 [1, 2, 3] (by decide)
  exact ⟨_, _, rfl, rfl, by decide, twenty.trans (by decide), rfl, three.trans (by decide)⟩

end Limit

end QueryOptimizer
