import QueryOptimizer.Proofs.Semantics.Domain

/-!
# Rows that columns tell apart

Columns tell the rows of a bag apart when no two of the rows agree on them, where a null
agrees with a null. More columns tell fewer rows apart all the better. In a join the columns
of the left rows still do when every left row has at most one match, and together with those
of the right rows always.

## Main results

* `uniqueOn_bind`: rows that are made for each of the rows that columns tell apart.
* `JoinType.uniqueOn_rows`, `JoinType.card_rows_le_one`: the rows that a join
  makes for one left row.
-/

namespace QueryOptimizer

/-- The row with nothing but the values of some columns. -/
def Row.only (S : Finset Nat) (r : Row) : Row := fun i => if i ∈ S then r i else none

/-- Rows are equal on some columns if they agree on them. -/
theorem Row.only_eq_only {S : Finset Nat} {r s : Row} :
    r.only S = s.only S ↔ ∀ i ∈ S, r i = s i := by
  constructor
  · intro same i hi
    simpa [Row.only, hi] using congrFun same i
  · intro agree
    funext i
    by_cases hi : i ∈ S
    · simp [Row.only, hi, agree i hi]
    · simp [Row.only, hi]

/-- Keeping some columns of others that are kept is keeping these. -/
theorem Row.only_only {S T : Finset Nat} (h : S ⊆ T) (r : Row) :
    (r.only T).only S = r.only S :=
  Row.only_eq_only.2 fun i hi => by simp [Row.only, h hi]

namespace Bag

variable {rows rows' : Bag} {S T : Finset Nat}

/-- Whether no two rows agree on the columns. -/
def UniqueOn (rows : Bag) (S : Finset Nat) : Prop :=
  (Multiset.map (Row.only S) rows).Nodup

/-- Fewer rows are unique, too. -/
theorem UniqueOn.of_le (h : rows.UniqueOn S) (le : rows' ≤ rows) : rows'.UniqueOn S :=
  Multiset.nodup_of_le (Multiset.map_le_map le) h

/-- Rows that are unique are there once. -/
theorem UniqueOn.nodup (h : rows.UniqueOn S) : Multiset.Nodup rows :=
  Multiset.Nodup.of_map _ h

/-- Unique rows that agree are equal. -/
theorem UniqueOn.eq_of_agree (h : rows.UniqueOn S) {r s : Row} (hr : r ∈ rows) (hs : s ∈ rows)
    (agree : ∀ i ∈ S, r i = s i) : r = s :=
  Multiset.inj_on_of_nodup_map h r hr s hs (Row.only_eq_only.2 agree)

/-- What columns tell apart stays apart in rows that are made of the rows, as long as the new
rows differ when the old ones do. -/
theorem UniqueOn.map (h : rows.UniqueOn S) {f : Row → Row}
    (apart : ∀ r ∈ rows, ∀ s ∈ rows, (∀ i ∈ T, f r i = f s i) → ∀ i ∈ S, r i = s i) :
    Bag.UniqueOn (Multiset.map f rows) T := by
  unfold UniqueOn
  rw [Multiset.map_map]
  exact h.nodup.map_on fun r hr s hs same =>
    h.eq_of_agree hr hs (apart r hr s hs (Row.only_eq_only.1 same))

/-- Rows are unique on more columns. -/
theorem UniqueOn.mono (h : rows.UniqueOn S) (le : S ⊆ T) : rows.UniqueOn T := by
  have same : Bag.UniqueOn (Multiset.map (fun r => r) rows) T :=
    h.map fun r _ s _ agree i hi => agree i (le hi)
  rwa [Multiset.map_id'] at same

/-- A single row is unique. -/
theorem UniqueOn.of_card_le_one (h : Multiset.card rows ≤ 1) (S : Finset Nat) :
    rows.UniqueOn S := by
  unfold UniqueOn
  rcases Nat.le_one_iff_eq_zero_or_eq_one.1 h with none | one
  · simp [Multiset.card_eq_zero.1 none]
  · obtain ⟨r, rfl⟩ := Multiset.card_eq_one.1 one
    simp

/-- Rows that are told apart and agree on the columns that do so are at most one. -/
theorem UniqueOn.card_le_one (h : rows.UniqueOn S)
    (agree : ∀ r ∈ rows, ∀ s ∈ rows, ∀ i ∈ S, r i = s i) : Multiset.card rows ≤ 1 := by
  by_contra two
  obtain ⟨r, hr⟩ := Multiset.card_pos_iff_exists_mem.1 (by omega : 0 < Multiset.card rows)
  obtain ⟨rest, split⟩ := Multiset.exists_cons_of_mem hr
  obtain ⟨s, hs⟩ := Multiset.card_pos_iff_exists_mem.1
    (by rw [split, Multiset.card_cons] at two; omega : 0 < Multiset.card rest)
  have hs' : s ∈ rows := split ▸ Multiset.mem_cons_of_mem hs
  obtain rfl := h.eq_of_agree hr hs' (agree r hr s hs')
  exact (Multiset.nodup_cons.1 (split ▸ h.nodup)).1 hs

end Bag

/-- Of things with different keys, each makes some things without repetition from which its key
can be read. Then nothing is made twice. -/
theorem nodup_bind_of_key {α β κ : Type*} {s : Multiset α} {f : α → Multiset β} (key : α → κ)
    (read : β → κ) (distinct : (s.map key).Nodup) (reads : ∀ a ∈ s, ∀ b ∈ f a, read b = key a)
    (each : ∀ a ∈ s, (f a).Nodup) : (s.bind f).Nodup := by
  refine Multiset.nodup_bind.2 ⟨each, ?_⟩
  induction s using Quotient.inductionOn with
  | h as =>
    refine Multiset.pairwise_coe_iff.2 ⟨as, .refl as, ?_⟩
    have distinct : as.Pairwise fun a b => key a ≠ key b := List.pairwise_map.1 distinct
    refine distinct.imp_of_mem fun {a b} ha hb different => ?_
    refine Multiset.disjoint_left.2 fun {x} hxa hxb => different ?_
    rw [← reads a ha x hxa, ← reads b hb x hxb]

/-- Rows that are made for each of some rows are told apart by columns that tell
these apart and are not changed, together with columns that tell the rows apart that
are made for one row. -/
theorem uniqueOn_bind {α : Type} {s : Multiset α} {left : α → Row} {made : α → Bag}
    {S T : Finset Nat} (distinct : Bag.UniqueOn (s.map left) S) (within : S ⊆ T)
    (kept : ∀ a ∈ s, ∀ r ∈ made a, ∀ i ∈ S, r i = left a i)
    (each : ∀ a ∈ s, (made a).UniqueOn T) : Bag.UniqueOn (s.bind made) T := by
  unfold Bag.UniqueOn
  rw [Multiset.map_bind]
  refine nodup_bind_of_key (fun a => (left a).only S) (Row.only S) ?_
    (fun a ha b hb => ?_) each
  · simpa [Bag.UniqueOn, Multiset.map_map] using distinct
  · obtain ⟨r, hr, rfl⟩ := Multiset.mem_map.1 hb
    rw [Row.only_only within]
    exact Row.only_eq_only.2 (kept a ha r hr)

/-! ### Joins -/

namespace JoinType

variable {type : JoinType} {right S : Finset Nat} {p : Row → Truth} {l : Row} {rs : Bag}

/-- The pairs of a left row with right rows that are told apart. -/
theorem uniqueOn_beside (h : rs.UniqueOn S) (within : S ⊆ right) :
    Bag.UniqueOn (rs.map (l.beside right)) S :=
  h.map fun r _ s _ agree i hi => by
    simpa only [Row.beside_of_mem (within hi)] using agree i hi

/-- Columns that tell the right rows apart tell the rows of the join apart that
one left row has. -/
theorem uniqueOn_rows (h : rs.UniqueOn S) (within : S ⊆ right) :
    (type.rows right p l rs).UniqueOn S := by
  have hits : Bag.UniqueOn ((rs.map (l.beside right)).filter fun r => p r = some true) S :=
    (uniqueOn_beside h within).of_le (Multiset.filter_le _ _)
  have one (r : Row) : Bag.UniqueOn {r} S := .of_card_le_one (by simp) S
  have none : Bag.UniqueOn 0 S := .of_card_le_one (by simp) S
  cases type <;> simp only [rows]
  case inner => exact hits
  case leftOuter => split <;> [exact one _; exact hits]
  case leftSemi => split <;> [exact none; exact one _]
  all_goals split <;> [exact one _; exact none]

/-- A left row is in the join at most once if at most one pair passes the predicate or only
left rows are kept. -/
theorem card_rows_le_one
    (h : type.isLeftOnly = true ∨
      Multiset.card ((rs.map (l.beside right)).filter fun r => p r = some true) ≤ 1) :
    Multiset.card (type.rows right p l rs) ≤ 1 := by
  cases type <;> simp only [rows]
  case inner => exact h.resolve_left (by simp [isLeftOnly])
  case leftOuter =>
    split
    · simp
    · exact h.resolve_left (by simp [isLeftOnly])
  all_goals split <;> simp

end JoinType

end QueryOptimizer
