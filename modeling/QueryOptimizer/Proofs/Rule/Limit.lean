import QueryOptimizer.Proofs.Semantics.Bare
import QueryOptimizer.Proofs.Semantics.Scoping

/-!
# Equivalences of limits

The equivalences behind the rules about limits. Which rows a limit keeps is open, so both sides
of an equivalence have to allow the same choices.

## Main results

* `Equivalence.limitBelowProject`: a limit and a projection may change places.
* `Equivalence.mergeLimits`: two limits are one.
-/

namespace QueryOptimizer

namespace Limit

/-! ### Rows that are kept -/

/-- Rows that are kept of a projection come from rows that could have been kept before. -/
theorem exists_le_of_le_map {f : Row → Row} {kept all : Bag} (h : kept ≤ all.map f) :
    ∃ b ≤ all, kept = b.map f := by
  induction kept using Quotient.inductionOn with | _ ks
  induction all using Quotient.inductionOn with | _ as
  obtain ⟨ls, perm, sub⟩ := Multiset.coe_le.1 h
  obtain ⟨bs, hbs, rfl⟩ := List.sublist_map_iff.1 sub
  exact ⟨bs, Multiset.coe_le.2 hbs.subperm, (Multiset.coe_eq_coe.2 perm).symm⟩

/-- Between two bags there is one of every size between theirs. -/
theorem exists_between {a c : Bag} (h : a ≤ c) (n : Nat) (ha : a.card ≤ n) (hc : n ≤ c.card) :
    ∃ b, a ≤ b ∧ b ≤ c ∧ b.card = n := by
  obtain ⟨d, rfl⟩ := Multiset.le_iff_exists_add.1 h
  rw [Multiset.card_add] at hc
  obtain ⟨e, he, card⟩ : ∃ e ≤ d, e.card = n - a.card := by
    induction d using Quotient.inductionOn with | _ ds
    have length : n - a.card ≤ ds.length := Nat.sub_le_iff_le_add'.2 hc
    exact ⟨ds.take (n - a.card), Multiset.coe_le.2 (ds.take_sublist _).subperm,
      (List.length_take_of_le length)⟩
  refine ⟨a + e, Multiset.le_add_right a e, Multiset.add_le_add_left he, ?_⟩
  rw [Multiset.card_add, card, Nat.add_sub_cancel' ha]

/-- Rows that are kept of projected rows are projected from rows that are kept. -/
theorem keeps_map {l : Limit} {all kept : Bag} (f : Row → Row) :
    l.Keeps (all.map f) kept ↔ ∃ b, l.Keeps all b ∧ kept = b.map f := by
  constructor
  · intro h
    obtain ⟨b, hb, rfl⟩ := exists_le_of_le_map h.kept_le
    exact ⟨b, ⟨hb, by simpa using h.card_le, by simpa using h.offset⟩, rfl⟩
  · rintro ⟨b, h, rfl⟩
    exact ⟨Multiset.map_le_map h.kept_le, by simpa using h.card_le, by simpa using h.offset⟩

/-- Two limits keep the same rows as the one limit that they are merged into. -/
theorem keeps_mergeOver {outer inner l : Limit} (merged : outer.mergeOver inner = some l)
    (inside : ∀ n ∈ inner.count, n ≤ maximum) {all kept : Bag} :
    l.Keeps all kept ↔ ∃ b, inner.Keeps all b ∧ outer.Keeps b kept := by
  unfold mergeOver at merged
  split at merged
  · cases merged
  obtain rfl := Option.some.inj merged
  obtain ⟨outerOffset, outerCount, outerOrder⟩ := outer
  obtain ⟨innerOffset, innerCount, innerOrder⟩ := inner
  constructor
  · rintro ⟨le, card, offset⟩
    have le' := Multiset.card_le_card le
    -- the inner limit keeps as many rows as it may, among them those that are kept in the end
    let left := if all.card ≤ maximum then all.card - innerOffset else all.card
    obtain ⟨b, hb, hall, size⟩ := exists_between le (innerCount.elim left (min · left))
      (by cases innerCount <;> cases outerCount <;> simp [left]
        at card offset ⊢ <;> split <;> omega)
      (by cases innerCount <;> simp [left] <;> split <;> omega)
    refine ⟨b, ⟨hall, ?_, ?_⟩, ⟨hb, ?_, ?_⟩⟩
    · cases innerCount <;> simp at size ⊢; omega
    · cases innerCount <;> simp [left] at size ⊢ <;> split at size <;> omega
    · cases innerCount <;> cases outerCount <;> simp at card ⊢ <;> omega
    · cases innerCount <;> cases outerCount <;> simp [left] at size card offset inside ⊢ <;>
        split at size <;> omega
  · rintro ⟨b, ⟨le, card, offset⟩, ⟨le', card', offset'⟩⟩
    refine ⟨le'.trans le, ?_, ?_⟩
    · have := Multiset.card_le_card le
      cases innerCount <;> cases outerCount <;> simp at card card' inside offset' ⊢ <;> omega
    · have := Multiset.card_le_card le
      have := Multiset.card_le_card le'
      simp at offset offset' ⊢
      omega

/-- The offset of a merged limit can be stored. -/
theorem offset_mergeOver {outer inner l : Limit} (merged : outer.mergeOver inner = some l) :
    l.offset ≤ maximum := by
  unfold mergeOver at merged
  split at merged
  · cases merged
  obtain rfl := Option.some.inj merged
  exact Nat.min_le_right _ _

/-- The count of a merged limit can be stored if those of both limits can. -/
theorem count_mergeOver {outer inner l : Limit} (merged : outer.mergeOver inner = some l)
    (inside : ∀ n ∈ inner.count, n ≤ maximum) (outside : ∀ n ∈ outer.count, n ≤ maximum) :
    ∀ n ∈ l.count, n ≤ maximum := by
  unfold mergeOver at merged
  split at merged
  · cases merged
  obtain rfl := Option.some.inj merged
  obtain ⟨outerOffset, outerCount, outerOrder⟩ := outer
  obtain ⟨innerOffset, innerCount, innerOrder⟩ := inner
  cases innerCount <;> cases outerCount <;> simp at inside outside ⊢ <;> omega

/-- The order of merged limits is that of the inner one, and the outer one does not
sort by other columns. -/
theorem order_mergeOver {outer inner l : Limit} (merged : outer.mergeOver inner = some l) :
    l.order = inner.order ∧ outer.order.usedColumns.idSet ⊆ inner.order.usedColumns.idSet := by
  unfold mergeOver at merged
  split at merged
  · cases merged
  · rename_i same
    obtain rfl := Option.some.inj merged
    refine ⟨rfl, ?_⟩
    cases unsorted : outer.order.isEmpty with
    | true =>
      obtain none : outer.order.keys = [] := List.isEmpty_iff.1 unsorted
      simp [SortOrder.usedColumns, none]
    | false =>
      have equal : (outer.order == inner.order) = true := by simpa [unsorted, bne] using same
      exact (SortOrder.idSet_usedColumns_eq_of_beq equal).subset

end Limit

namespace Equivalence

open LogicalOperator

variable (I : Interpretation) (db : Database) {m : Meaning} {l outer inner : Limit}
  {ds : List Definition}

/-- The columns that a limit makes, defines and reads. -/
theorem limit_scope (l : Limit) (m : Scope) : (LogicalOperator.limit l).scope [m] =
    ⟨m.output, m.output ∪ m.defined, l.order.usedColumns.idSet \ m.output ∪ m.free⟩ := by
  simp [LogicalOperator.scope, produced, inherited, usedColumns]

/-- The columns that a projection makes, defines and reads. -/
theorem project_scope (ds : List Definition) (m : Scope) :
    (LogicalOperator.project ds).scope [m] =
    ⟨m.output ∪ Column.idsOf (Definition.columns ds),
      m.output ∪ Column.idsOf (Definition.columns ds) ∪ m.defined,
      (Definition.usedColumns ds).idSet \ m.output ∪ m.free⟩ := by
  simp [LogicalOperator.scope, produced, inherited, usedColumns]

/-- A limit over a projection may go below it if it does not sort by a column
that is computed. -/
theorem limitBelowProject (hm : m.Sound) (lower : InScope (.project ds) [m])
    (upper : InScope (.limit l) [(LogicalOperator.project ds).meaning I db [m]])
    (apart : Disjoint l.order.usedColumns.idSet (Column.idsOf (Definition.columns ds))) :
    InScope (.limit l) [m] ∧
      InScope (.project ds) [(LogicalOperator.limit l).meaning I db [m]] ∧
      (LogicalOperator.project ds).meaning I db [(LogicalOperator.limit l).meaning I db [m]] =
        (LogicalOperator.limit l).meaning I db
    [(LogicalOperator.project ds).meaning I db [m]] := by
  have hidden := upper.free_disjoint
  have mOut := hm.output_subset
  simp only [List.map, LogicalOperator.meaning, project_scope, limit_scope] at hidden
  obtain ⟨offset, count⟩ : l.offset ≤ Limit.maximum ∧ ∀ n ∈ l.count, n ≤ Limit.maximum := by
    cases upper.fits with
    | limit offset count => exact ⟨offset, count⟩
  obtain ⟨distinct, fresh⟩ : Column.Distinct (Definition.columns ds) ∧
      Disjoint (Column.idsOf (Definition.columns ds)) m.defined := by
    cases lower.fits with
    | project distinct fresh => exact ⟨distinct, fresh⟩
  have columns :
    (LogicalOperator.project ds).scope [(LogicalOperator.limit l).scope [m.toScope]] =
      (LogicalOperator.limit l).scope [(LogicalOperator.project ds).scope [m.toScope]] := by
    have apart := Finset.disjoint_left.1 apart
    simp only [project_scope, limit_scope]
    ext i <;> grind
  refine ⟨⟨.limit offset count, ?_⟩,
    ⟨.project distinct ?_, columns ▸ upper.free_disjoint⟩,
    Meaning.eq_of_scope columns fun env out => ?_⟩
  · simp only [List.map, limit_scope]
    have inside := Finset.disjoint_left.1 apart
    exact hidden.mono (by grind) (by grind)
  · change Disjoint _ ((LogicalOperator.limit l).scope [m.toScope]).defined
    rw [limit_scope]
    exact fresh.mono_right (by grind)
  · simp only [LogicalOperator.meaning, results, Set.mem_ofPred_eq]
    constructor
    · rintro ⟨b, ⟨all, hall, kept⟩, rfl⟩
      exact ⟨_, ⟨all, hall, rfl⟩, (Limit.keeps_map _).2 ⟨b, kept, rfl⟩⟩
    · rintro ⟨_, ⟨all, hall, rfl⟩, kept⟩
      obtain ⟨b, below, rfl⟩ := (Limit.keeps_map _).1 kept
      exact ⟨b, ⟨all, hall, below⟩, rfl⟩

/-- Two limits are the one that they are merged into. -/
theorem mergeLimits (lower : InScope (.limit inner) [m])
    (upper : InScope (.limit outer) [(LogicalOperator.limit inner).meaning I db [m]])
    (merged : outer.mergeOver inner = some l) :
    InScope (.limit l) [m] ∧
      (LogicalOperator.limit l).meaning I db [m] =
        (LogicalOperator.limit outer).meaning I db
          [(LogicalOperator.limit inner).meaning I db [m]] := by
  obtain ⟨-, inside⟩ : inner.offset ≤ Limit.maximum ∧
      ∀ n ∈ inner.count, n ≤ Limit.maximum := by
    cases lower.fits with
    | limit offset count => exact ⟨offset, count⟩
  obtain ⟨-, outside⟩ : outer.offset ≤ Limit.maximum ∧
      ∀ n ∈ outer.count, n ≤ Limit.maximum := by
    cases upper.fits with
    | limit offset count => exact ⟨offset, count⟩
  have hidden := upper.free_disjoint
  obtain ⟨order, used⟩ := Limit.order_mergeOver merged
  simp only [List.map, LogicalOperator.meaning, limit_scope] at hidden
  have columns : (LogicalOperator.limit l).scope [m.toScope] =
      (LogicalOperator.limit outer).scope
      [(LogicalOperator.limit inner).scope [m.toScope]] := by
    simp only [limit_scope, order]
    ext i <;> grind
  refine ⟨⟨.limit (Limit.offset_mergeOver merged)
    (Limit.count_mergeOver merged inside outside), columns ▸ upper.free_disjoint⟩,
      Meaning.eq_of_scope columns fun env out => ?_⟩
  simp only [LogicalOperator.meaning, results, Set.mem_ofPred_eq,
    Limit.keeps_mergeOver merged inside]
  constructor
  · rintro ⟨all, hall, b, hb, kept⟩
    exact ⟨b, ⟨all, hall, hb⟩, kept⟩
  · rintro ⟨b, ⟨all, hall, hb⟩, kept⟩
    exact ⟨all, hall, b, hb, kept⟩

end Equivalence

end QueryOptimizer
