import Mathlib.Algebra.Order.BigOperators.Group.Multiset
import Mathlib.Algebra.Order.Ring.Nat
import QueryOptimizer.Proofs.Derivation.SetConstraint
import QueryOptimizer.Proofs.Semantics.Unique

/-!
# Counting rows

Bounds on row counts are put together from the bounds of inputs. They are held within 64 bits,
so the largest bound may stand for any larger one and says nothing by itself
(`RowBound.Bounds`). For a number of rows that fits into 64 bits, this makes no difference
(`RowBound.Bounds.le`).

## Main results

* `RowBound.Bounds.times`: a bound on pairs of rows.
* `JoinType.rowBound_spec`, `SetOperation.rowBound_spec`: how many rows joins
  and set operations have.
-/

namespace QueryOptimizer

namespace RowBound

variable {b c : RowBound} {m n : Nat}

/-- Whether there are at most as many rows as a bound says. The largest bound that can
be held says nothing. -/
def Bounds (b : RowBound) (n : Nat) : Prop :=
  ∀ k ∈ b.limit?, k < maximum → n ≤ k

namespace Bounds

/-- Every number is within the bound that says nothing. -/
theorem unbounded (n : Nat) : RowBound.unbounded.Bounds n :=
  fun _ h => by cases h

/-- A number is within a bound that it does not exceed. -/
theorem atMost (h : n ≤ m) : (RowBound.atMost m).Bounds n := by
  intro k hk small
  obtain rfl := Option.some.inj hk
  omega

/-- A bound holds of smaller numbers, too. -/
theorem mono (h : b.Bounds n) (le : m ≤ n) : b.Bounds m :=
  fun k hk small => le.trans (h k hk small)

/-- A number of rows that fits into 64 bits is within its bound. -/
theorem le (h : b.Bounds n) (fits : n ≤ maximum) {k : Nat} (hk : b.limit? = some k) :
    n ≤ k := by
  by_cases small : k < maximum
  · exact h k hk small
  · omega

/-- Only zero is bounded by zero. -/
theorem eq_zero (h : b.Bounds n) (zero : b.isZero = true) : n = 0 :=
  Nat.le_zero.1 (h 0 (beq_iff_eq.1 zero) (by decide))

/-- A sum is bounded by the sum of bounds, which stops at the largest
number that can be stored. -/
theorem plus (hb : b.Bounds m) (hc : c.Bounds n) : (b.plus c).Bounds (m + n) := by
  unfold RowBound.plus
  split
  · rename_i k l hk hl
    intro j hj small
    obtain rfl := Option.some.inj hj
    have hm : m ≤ k := hb k hk (by omega)
    have hn : n ≤ l := hc l hl (by omega)
    omega
  · exact unbounded _

/-- A bound on what comes of each of some rows bounds what comes of all of them. -/
theorem times {α : Type*} {pairs : Multiset α} {f : α → Nat} (hb : b.Bounds pairs.card)
    (hc : ∀ x ∈ pairs, c.Bounds (f x)) : (b.times c).Bounds (pairs.map f).sum := by
  have all {k : Nat} (each : ∀ x ∈ pairs, f x ≤ k) : (pairs.map f).sum ≤ pairs.card * k := by
    have le := Multiset.sum_le_card_nsmul (pairs.map f) k fun n hn => by
      obtain ⟨x, hx, rfl⟩ := Multiset.mem_map.1 hn
      exact each x hx
    rwa [Multiset.card_map, Nat.nsmul_eq_mul] at le
  have few : (0 : Nat) < maximum := by decide
  have nothing (total : (pairs.map f).sum ≤ 0) :
    (RowBound.atMost 0).Bounds (pairs.map f).sum := .atMost total
  have noPairs (zero : b.limit? = some 0) : (pairs.map f).sum ≤ 0 := by
    rw [Multiset.card_eq_zero.1 (Nat.le_zero.1 (hb 0 zero few)), Multiset.map_zero,
      Multiset.sum_zero]
  have noRows (zero : c.limit? = some 0) : (pairs.map f).sum ≤ 0 :=
    (all fun x hx => hc x hx 0 zero few).trans_eq (Nat.mul_zero _)
  rcases b with ⟨_ | _ | k⟩ <;> rcases c with ⟨_ | _ | l⟩
  case none.none | none.some.succ | some.succ.none => exact unbounded _
  case none.some.zero | some.succ.some.zero => exact nothing (noRows rfl)
  case some.zero.none | some.zero.some.zero | some.zero.some.succ =>
    exact nothing (noPairs rfl)
  case some.succ.some.succ =>
    intro j hj small
    obtain rfl := Option.some.inj hj
    have product : (k + 1) * (l + 1) < maximum := by omega
    have hm : pairs.card ≤ k + 1 :=
      hb (k + 1) rfl ((Nat.le_mul_of_pos_right _ l.succ_pos).trans_lt product)
    have hn : ∀ x ∈ pairs, f x ≤ l + 1 := fun x hx =>
      hc x hx (l + 1) rfl ((Nat.le_mul_of_pos_left _ k.succ_pos).trans_lt product)
    have le : (pairs.map f).sum ≤ (k + 1) * (l + 1) :=
      (all hn).trans (Nat.mul_le_mul_right _ hm)
    omega

/-- A number is bounded by the smaller one of two bounds of it. -/
theorem min (hb : b.Bounds n) (hc : c.Bounds n) : (b.min c).Bounds n := by
  unfold RowBound.min
  split
  · rename_i k l hk hl
    intro j hj small
    obtain rfl := Option.some.inj hj
    change Min.min k l < maximum at small
    change n ≤ Min.min k l
    rcases Nat.le_total k l with le | le
    · rw [Nat.min_eq_left le] at small ⊢
      exact hb k hk small
    · rw [Nat.min_eq_right le] at small ⊢
      exact hc l hl small
  · exact hb
  · exact hc

/-- A sum of several numbers is bounded by the sum of their bounds. -/
theorem foldl_plus {bounds : List RowBound} {counts : List Nat}
    (h : List.Forall₂ Bounds bounds counts) (hb : b.Bounds n) :
    (bounds.foldl RowBound.plus b).Bounds (n + counts.sum) := by
  induction h generalizing b n with
  | nil => simpa using hb
  | cons first _ ih =>
    rw [List.foldl_cons, List.sum_cons, ← Nat.add_assoc]
    exact ih (hb.plus first)

/-- A number is bounded by the smallest one of several bounds of it. -/
theorem foldl_min {bounds : List RowBound} (h : ∀ c ∈ bounds, c.Bounds n) (hb : b.Bounds n) :
    (bounds.foldl RowBound.min b).Bounds n := by
  induction bounds generalizing b with
  | nil => exact hb
  | cons c cs ih =>
    obtain ⟨first, rest⟩ := List.forall_mem_cons.1 h
    exact ih rest (hb.min first)

end Bounds

end RowBound

/-! ### Joins -/

namespace JoinType

variable {K : Type} {type : JoinType} {right : Finset Nat} {p : Row → Truth}

/-- A row has no more partners than there are rows. -/
theorem card_hits_le {l : Row} {rs : Bag} :
    ((rs.map (l.beside right)).filter fun r => p r = some true).card ≤ rs.card :=
  (Multiset.card_le_card (Multiset.filter_le _ _)).trans_eq (Multiset.card_map _ _)

/-- A left row is kept, or there is a row for each match. -/
theorem card_rows_le {l : Row} {rs : Bag} : (type.rows right p l rs).card ≤ max rs.card 1 := by
  cases type <;> simp only [rows]
  case inner => exact card_hits_le.trans (Nat.le_max_left _ _)
  case leftOuter =>
    split
    · exact Nat.le_max_right _ _
    · exact card_hits_le.trans (Nat.le_max_left _ _)
  all_goals
    split
    · simp
    · simp

/-- The bound of a join. The rows are made for pairs of a left row and the right
rows that belong to it. -/
theorem rowBound_spec {a b : Relation K} {c : RowBound} (made : type.rowBound [a, b] = .ok c)
    {pairs : Multiset (Row × Bag)} (left : a.property.rowBound.Bounds pairs.card)
    (each : ∀ x ∈ pairs, b.property.rowBound.Bounds x.2.card) :
    c.Bounds (pairs.bind fun x => type.rows right p x.1 x.2).card := by
  rw [Multiset.card_bind]
  have once (one : ∀ x ∈ pairs, (type.rows right p x.1 x.2).card ≤ 1) :
      a.property.rowBound.Bounds
      (pairs.map (Multiset.card ∘ fun x => type.rows right p x.1 x.2)).sum := by
    refine left.mono ?_
    have le := Multiset.sum_le_card_nsmul (pairs.map fun x => (type.rows right p x.1 x.2).card)
        1 fun n hn => by
      obtain ⟨x, hx, rfl⟩ := Multiset.mem_map.1 hn
      exact one x hx
    rwa [Multiset.card_map, Nat.nsmul_eq_mul, Nat.mul_one] at le
  simp only [rowBound, Inputs.get_zero, Inputs.get_one, bind, Except.bind] at made
  split at made
  · rename_i only
    obtain rfl := Except.ok.inj made
    exact once fun x _ => card_rows_le_one (.inl only)
  · rename_i both
    split at made
    · rename_i none
      obtain ⟨outer, zero⟩ := Bool.and_eq_true_iff.1 none
      obtain rfl := eq_of_beq outer
      obtain rfl := Except.ok.inj made
      refine once fun x hx => card_rows_le.trans ?_
      rw [(each x hx).eq_zero zero]
      exact Nat.max_le.2 ⟨Nat.zero_le 1, le_rfl⟩
    · rename_i some
      obtain rfl := Except.ok.inj made
      refine left.times fun x hx => ?_
      cases type with
      | inner => exact (each x hx).mono card_hits_le
      | leftOuter =>
        refine .mono ?_ card_rows_le
        intro k hk small
        have positive : k ≠ 0 := by
          rintro rfl
          have zero : b.property.rowBound.isZero = true := beq_iff_eq.2 hk
          rw [zero] at some
          exact some rfl
        exact Nat.max_le.2 ⟨each x hx k hk small, Nat.pos_of_ne_zero positive⟩
      | _ => exact absurd rfl both

end JoinType

/-! ### Set operations -/

namespace SetOpKind

variable {kind : SetOpKind} {ts : List (Multiset Tuple)}

/-- A sum of bags is as large as these together. -/
theorem card_sum (ts : List (Multiset Tuple)) : ts.sum.card = (ts.map Multiset.card).sum := by
  induction ts with
  | nil => rfl
  | cons b bs ih => rw [List.sum_cons, Multiset.card_add, ih, List.map_cons, List.sum_cons]

/-- An intersection is within each of its bags. -/
theorem foldl_inter_le {a b : Multiset Tuple} (hb : b ∈ ts) : ts.foldl (· ∩ ·) a ≤ b := by
  induction ts generalizing a with
  | nil => cases hb
  | cons c cs ih =>
    rcases List.mem_cons.1 hb with rfl | hb
    · exact (foldl_le (fun _ _ => Multiset.inter_le_left) _ cs).trans Multiset.inter_le_right
    · exact ih hb

/-- A union has at most the rows of all its inputs. -/
theorem card_union_le (union : kind = .union ∨ kind = .unionAll) :
    (kind.tuples ts).card ≤ (ts.map Multiset.card).sum := by
  rcases union with rfl | rfl
  · exact (Multiset.card_le_card (Multiset.dedup_le _)).trans_eq (card_sum ts)
  · exact (card_sum ts).le

/-- An intersection has no more rows than any of its inputs, if the one that removes duplicates
has no tuples that are the same without being equal. -/
theorem card_intersect_le (intersect : kind = .intersect ∨ kind = .intersectAll)
    (exact : kind = .intersect → ∀ a ∈ ts, ∀ b ∈ ts, ∀ t ∈ a, ∀ u ∈ b, t.same u = true → t = u)
    {b : Multiset Tuple} (hb : b ∈ ts) : (kind.tuples ts).card ≤ b.card := by
  refine Multiset.card_le_card ?_
  rcases intersect with rfl | rfl
  · refine (Multiset.le_iff_subset (nodup_tuples rfl ts)).2 fun t ht => ?_
    obtain ⟨a, ha, hta⟩ := mem_of_mem_tuples ht
    obtain ⟨i, hi, rfl⟩ := List.getElem_of_mem hb
    obtain ⟨c, hc, u, hu, same⟩ := among_of_mem_tuples ht i hi
    obtain rfl := Option.some.inj ((List.getElem?_eq_getElem hi).symm.trans hc)
    exact exact rfl a ha _ hb t hta u hu same ▸ hu
  · cases ts with
    | nil => cases hb
    | cons a as =>
      rcases List.mem_cons.1 hb with rfl | hb
      · exact foldl_le (fun _ _ => Multiset.inter_le_left) _ as
      · exact foldl_inter_le hb

/-- A difference has no more rows than its first input. -/
theorem card_difference_le (difference : kind = .difference ∨ kind = .differenceAll)
    {a : Multiset Tuple} {as : List (Multiset Tuple)} :
    (kind.tuples (a :: as)).card ≤ a.card := by
  refine Multiset.card_le_card ?_
  rcases difference with rfl | rfl
  · exact (Multiset.dedup_le _).trans (foldl_le (fun _ _ => Multiset.filter_le _ _) a as)
  · exact foldl_le Multiset.sub_le_self a as

end SetOpKind

/-- The bound of a set operation. -/
theorem SetOperation.rowBound_spec {K : Type} {s : SetOperation} {rels : Inputs K}
    {c : RowBound} (made : s.rowBound rels = .ok c) {ts : List (Multiset Tuple)}
    (some : rels ≠ [])
    (h : List.Forall₂ (fun r t => r.property.rowBound.Bounds t.card) rels ts)
    (exact : s.kind = .intersect → ∀ a ∈ ts, ∀ b ∈ ts, ∀ t ∈ a, ∀ u ∈ b,
      t.same u = true → t = u) : c.Bounds (s.kind.tuples ts).card := by
  have counts :
      List.Forall₂ RowBound.Bounds (rels.map (·.property.rowBound)) (ts.map Multiset.card) :=
    List.forall₂_map_left_iff.2 (List.forall₂_map_right_iff.2 h)
  have least (intersect : s.kind = .intersect ∨ s.kind = .intersectAll) :
      ((rels.map (·.property.rowBound)).foldl RowBound.min .unbounded).Bounds
      (s.kind.tuples ts).card := by
    refine .foldl_min (fun b hb => ?_) (.unbounded _)
    obtain ⟨r, hr, rfl⟩ := List.mem_map.1 hb
    obtain ⟨t, ht, bounds⟩ := exists_of_mem_right h.flip hr
    exact RowBound.Bounds.mono bounds (SetOpKind.card_intersect_le intersect exact ht)
  unfold rowBound at made
  cases kind : s.kind with
  | unionAll | union =>
    rw [kind] at made
    obtain rfl := Except.ok.inj made
    have sum := RowBound.Bounds.foldl_plus counts (.atMost (Nat.le_refl 0))
    rw [Nat.zero_add] at sum
    exact sum.mono (SetOpKind.card_union_le (by simp))
  | intersect | intersectAll =>
    rw [kind] at made
    obtain rfl := Except.ok.inj made
    exact kind ▸ least (by simp [kind])
  | difference | differenceAll =>
    rw [kind] at made
    cases h with
    | nil => exact absurd rfl some
    | cons first _ =>
      obtain rfl := Except.ok.inj made
      exact first.mono (SetOpKind.card_difference_le (by simp))

end QueryOptimizer
