import QueryOptimizer.Proofs.Derivation.Constraint

/-!
# Derived constraints of set operations

A row of a set operation comes from its inputs: from one of the inputs of a union, from all
inputs of an intersection, from the first input of a difference (`SetOpKind.Among`). Its
constraint is put together from what is known of the inputs in the same way.

## Main results

* `SetOpKind.among_of_mem_tuples`: where the tuples of a set operation come from.
* `SetOperation.constraint_spec`: the constraint of a set operation.
-/

namespace QueryOptimizer

variable {K : Type} {Γ : Nat → DataType} {S : Finset Nat}

/-! ### Tuples -/

namespace Tuple

/-- A tuple is the same as itself. -/
theorem same_self (t : Tuple) : t.same t = true := by
  have all : (List.zipWith Value.same t t).all id = true := by
    induction t with
    | nil => rfl
    | cons v t ih =>
      rw [List.zipWith_cons_cons, List.all_cons, id_eq, Value.same_self, Bool.true_and]
      exact ih
  rw [same, all, beq_self_eq_true, Bool.true_and]

/-- Columns get values that are the same from tuples that are the same. -/
theorem same_assign {t u : Tuple} (same : t.same u = true) (r s : Row) {cols : List Column}
    (length : t.length = cols.length) :
    ∀ i ∈ Column.idsOf cols, (r.assign cols t i).same (s.assign cols u i) = true := by
  induction cols generalizing t u with
  | nil => simp
  | cons c cs ih =>
    obtain ⟨v, vs, rfl⟩ := List.exists_cons_of_length_eq_add_one length
    obtain ⟨lengths, values⟩ := Bool.and_eq_true_iff.1 same
    obtain ⟨w, ws, rfl⟩ :=
      List.exists_cons_of_length_eq_add_one ((beq_iff_eq.1 lengths).symm.trans length)
    simp only [List.zipWith_cons_cons, List.all_cons, id_eq, Bool.and_eq_true] at values
    have rest : Tuple.same vs ws = true := by simpa [Tuple.same, values.2] using lengths
    intro i hi
    by_cases hc : i = c.id
    · simpa [Row.assign, hc] using values.1
    · rw [Column.idsOf_cons, Finset.mem_union, Finset.mem_singleton] at hi
      simpa [Row.assign, hc] using ih rest (by simpa using length) i (hi.resolve_left hc)

end Tuple

namespace SetOpKind

variable {kind : SetOpKind} {bags : List (Multiset Tuple)} {t : Tuple}

/-- What has to be true of which inputs, of which there are `n`, for a row of a
set operation. -/
def Among (kind : SetOpKind) (n : Nat) (P : Nat → Prop) : Prop :=
  match kind with
  | unionAll | union => ∃ i < n, P i
  | intersect | intersectAll => ∀ i < n, P i
  | difference | differenceAll => P 0

/-- What is known of contributing inputs may be weakened. -/
theorem Among.imp {n : Nat} {P Q : Nat → Prop} (some : 0 < n) (h : kind.Among n P)
    (all : ∀ i < n, P i → Q i) : kind.Among n Q := by
  cases kind with
  | unionAll | union =>
    obtain ⟨i, hi, h⟩ := h
    exact ⟨i, hi, all i hi h⟩
  | intersect | intersectAll => exact fun i hi => all i hi (h i hi)
  | difference | differenceAll => exact all 0 some h

/-- What is left after several filters has passed each of them. -/
theorem mem_foldl_filter {f : Multiset Tuple → Tuple → Prop} [∀ b, DecidablePred (f b)]
    {bag : Multiset Tuple} (h : t ∈ bags.foldl (fun acc b => acc.filter (f b)) bag) :
    t ∈ bag ∧ ∀ b ∈ bags, f b t := by
  induction bags generalizing bag with
  | nil => exact ⟨h, by simp⟩
  | cons b bs ih =>
    obtain ⟨here, rest⟩ := ih h
    obtain ⟨here, first⟩ := Multiset.mem_filter.1 here
    exact ⟨here, List.forall_mem_cons.2 ⟨first, rest⟩⟩

/-- What is in an intersection is in each bag. -/
theorem mem_foldl_inter {bag : Multiset Tuple} (h : t ∈ bags.foldl (· ∩ ·) bag) :
    t ∈ bag ∧ ∀ b ∈ bags, t ∈ b := by
  induction bags generalizing bag with
  | nil => exact ⟨h, by simp⟩
  | cons b bs ih =>
    obtain ⟨here, rest⟩ := ih h
    obtain ⟨first, second⟩ := Multiset.mem_inter.1 here
    exact ⟨first, List.forall_mem_cons.2 ⟨second, rest⟩⟩

/-- A tuple of a set operation is the same as tuples of its inputs. -/
theorem among_of_mem_tuples (h : t ∈ kind.tuples bags) :
    kind.Among bags.length fun i => ∃ bag ∈ bags[i]?, ∃ u ∈ bag, t.same u = true := by
  have one : (∃ bag ∈ bags, t ∈ bag) →
      ∃ i < bags.length, ∃ bag ∈ bags[i]?, ∃ u ∈ bag, t.same u = true := by
    rintro ⟨bag, hbag, ht⟩
    obtain ⟨i, hi, rfl⟩ := List.getElem_of_mem hbag
    exact ⟨i, hi, bags[i], List.getElem?_eq_getElem hi, t, ht, t.same_self⟩
  have all (each : ∀ bag ∈ bags, ∃ u ∈ bag, t.same u = true) :
      ∀ i < bags.length, ∃ bag ∈ bags[i]?, ∃ u ∈ bag, t.same u = true :=
    fun i hi => ⟨bags[i], List.getElem?_eq_getElem hi, each _ (List.getElem_mem hi)⟩
  cases kind with
  | unionAll | union => exact one (mem_of_mem_tuples h)
  | difference =>
    cases bags with
    | nil => cases Multiset.notMem_zero t h
    | cons b bs =>
      exact ⟨b, rfl, t, (mem_foldl_filter (Multiset.mem_dedup.1 h)).1, t.same_self⟩
  | differenceAll =>
    cases bags with
    | nil => cases Multiset.notMem_zero t h
    | cons b bs =>
      exact ⟨b, rfl, t, Multiset.mem_of_le (foldl_le Multiset.sub_le_self b bs) h, t.same_self⟩
  | intersect =>
    cases bags with
    | nil => cases Multiset.notMem_zero t h
    | cons b bs =>
      obtain ⟨here, rest⟩ := mem_foldl_filter (Multiset.mem_dedup.1 h)
      refine all (List.forall_mem_cons.2 ⟨⟨t, here, t.same_self⟩, fun c hc => ?_⟩)
      obtain ⟨u, hu⟩ := Multiset.card_pos_iff_exists_mem.1 (Nat.pos_of_ne_zero (rest c hc))
      obtain ⟨hu, same⟩ := Multiset.mem_filter.1 hu
      exact ⟨u, hu, same⟩
  | intersectAll =>
    cases bags with
    | nil => cases Multiset.notMem_zero t h
    | cons b bs =>
      obtain ⟨here, rest⟩ := mem_foldl_inter h
      exact all
        (List.forall_mem_cons.2
          ⟨⟨t, here, t.same_self⟩, fun c hc => ⟨t, rest c hc, t.same_self⟩⟩)

end SetOpKind

namespace LogicalOperator

variable {s : SetOperation} {ms : List Meaning} {row : Row} {bags : List Bag}

/-- A set operation that fits has the tuples of each input. -/
theorem Fits.length_tuples (fits : (LogicalOperator.setOp s).Fits Meaning.toScope ms)
    (results : List.Forall₂ (fun m b => b ∈ m.results row) ms bags) :
    (List.zipWith Bag.tuples bags s.inputs).length = ms.length := by
  cases fits with
  | setOp someColumn distinct someInput apart aligned fresh =>
    rw [List.length_zipWith, ← results.length_eq, aligned.length_eq, Nat.min_self]

/-- A tuple of a set operation is the same as tuples of rows of its inputs. -/
theorem Fits.among_of_mem_tuples (fits : (LogicalOperator.setOp s).Fits Meaning.toScope ms)
    (results : List.Forall₂ (fun m b => b ∈ m.results row) ms bags) {t : Tuple}
    (ht : t ∈ s.kind.tuples (List.zipWith Bag.tuples bags s.inputs)) :
    s.kind.Among ms.length fun i => ∃ m ∈ ms[i]?, ∃ cols ∈ s.inputs[i]?, ∃ bag ∈ m.results row,
      ∃ r ∈ bag, t.same (r.tuple cols) = true := by
  have some : 0 < ms.length := by
    cases fits with
    | setOp someColumn distinct someInput apart aligned fresh =>
      exact List.length_pos_iff.2 someInput
  have among := SetOpKind.among_of_mem_tuples ht
  rw [fits.length_tuples results] at among
  refine among.imp some fun i hi comes => ?_
  obtain ⟨tuples, htuples, u, hu, same⟩ := comes
  obtain ⟨b, cols, hb, hcols, rfl⟩ := List.getElem?_zipWith_eq_some.1 htuples
  obtain ⟨r, hr, rfl⟩ := Multiset.mem_map.1 hu
  obtain ⟨hi', rfl⟩ := List.getElem?_eq_some_iff.1 hb
  exact ⟨ms[i], List.getElem?_eq_getElem hi, cols, hcols, bags[i],
    results.get hi hi', r, hr, same⟩

end LogicalOperator

/-! ### Constraints -/

namespace SetOperation

variable {s : SetOperation} {rels : Inputs K} {p : ConstraintProperty}

/-- What is known of an input is known of the rows of which the columns of the set operation
have the values that the columns of the input have. -/
theorem inputConstraint_spec {n : Nat} {cols : List Column} {rel : Relation K}
    (hcols : s.inputs[n]? = some cols) (hrel : rels[n]? = some rel)
    (lengths : cols.length = s.output.length) (distinct : Column.Distinct s.output)
    (types : ∀ p ∈ cols.zip s.output, Γ p.1.id = Γ p.2.id)
    (about : rel.property.constraint.About Γ S)
    (new : ∀ i ∈ S, i ∉ Column.idsOf cols → i ∉ Column.idsOf s.output)
    (made : s.inputConstraint rels n = .ok p) : p.About Γ (Column.idsOf s.output) ∧
      ∀ r x : Row, r.HasTypes Γ → x.HasTypes Γ → rel.property.constraint.Holds r →
        (∀ i ∈ Column.idsOf s.output, (r.assign s.output (r.tuple cols) i).same (x i) = true) →
          p.Holds x := by
  simp only [inputConstraint, OptResult.bind_eq_ok, OptResult.pure_eq_ok] at made
  obtain ⟨cols', foundCols, rel', foundRel, q, renamed, rfl⟩ := made
  obtain rfl := Option.some.inj (hcols.symm.trans (OptResult.elementAt_eq_ok.1 foundCols))
  obtain rfl := Option.some.inj (hrel.symm.trans (Inputs.get_eq_ok.1 foundRel))
  exact ConstraintProperty.newNames_spec lengths distinct types about new renamed

/-- Properties that are put together one after the other, where one of them has to hold. -/
theorem disjoin_spec {f : Nat → OptResult ConstraintProperty} {others : List Nat}
    {first : ConstraintProperty} (about : ∀ i q, f i = .ok q → q.About Γ S)
    (start : first.About Γ S)
    (made : others.foldlM (fun acc i => return acc.disjoin (← f i)) first = .ok p) :
    p.About Γ S ∧ ∀ x : Row, x.HasTypes Γ →
      (first.Holds x ∨ ∃ i ∈ others, ∀ q, f i = .ok q → q.Holds x) → p.Holds x := by
  induction others generalizing first with
  | nil =>
    obtain rfl := OptResult.pure_eq_ok.1 made
    exact ⟨start, fun x _ h => by simpa using h⟩
  | cons i others ih =>
    rw [List.foldlM_cons, OptResult.bind_eq_ok] at made
    obtain ⟨next, joined, made⟩ := made
    obtain ⟨q, hq, joined⟩ := OptResult.bind_eq_ok.1 joined
    obtain rfl := OptResult.pure_eq_ok.1 joined
    obtain ⟨whole, holds⟩ := ih (start.disjoin (about i q hq)) made
    refine ⟨whole, fun x hx h => holds x hx ?_⟩
    rcases h with here | ⟨j, hj, there⟩
    · exact .inl (.disjoin start (about i q hq) hx (.inl here))
    · rcases List.mem_cons.1 hj with rfl | hj
      · exact .inl (.disjoin start (about _ q hq) hx (.inr (there q hq)))
      · exact .inr ⟨j, hj, there⟩

/-- Properties that are put together one after the other, where all of them have to hold. -/
theorem conjoin_spec {f : Nat → OptResult ConstraintProperty} {others : List Nat}
    {first : ConstraintProperty} (about : ∀ i q, f i = .ok q → q.About Γ S)
    (start : first.About Γ S)
    (made : others.foldlM (fun acc i => return acc.conjoin (← f i)) first = .ok p) :
    p.About Γ S ∧ ∀ x : Row, x.HasTypes Γ →
      (first.Holds x ∧ ∀ i ∈ others, ∀ q, f i = .ok q → q.Holds x) → p.Holds x := by
  induction others generalizing first with
  | nil =>
    obtain rfl := OptResult.pure_eq_ok.1 made
    exact ⟨start, fun x _ h => h.1⟩
  | cons i others ih =>
    rw [List.foldlM_cons, OptResult.bind_eq_ok] at made
    obtain ⟨next, joined, made⟩ := made
    obtain ⟨q, hq, joined⟩ := OptResult.bind_eq_ok.1 joined
    obtain rfl := OptResult.pure_eq_ok.1 joined
    obtain ⟨whole, holds⟩ := ih (start.conjoin (about i q hq)) made
    refine ⟨whole, fun x hx h => holds x hx ?_⟩
    obtain ⟨next, rest⟩ := List.forall_mem_cons.1 h.2
    exact ⟨.conjoin start (about i q hq) hx h.1 (next q hq), rest⟩

/-- A row has the property of a set operation if it has the properties of the inputs
that it comes from. -/
theorem constraint_spec (about : ∀ i q, s.inputConstraint rels i = .ok q → q.About Γ S)
    (some : 0 < rels.length) (made : s.constraint rels = .ok p) :
    p.About Γ S ∧ ∀ x : Row, x.HasTypes Γ →
      (s.kind.Among rels.length fun i => ∀ q, s.inputConstraint rels i = .ok q → q.Holds x) →
        p.Holds x := by
  obtain ⟨first, hfirst, made⟩ := OptResult.bind_eq_ok.1 made
  have start := about 0 first hfirst
  have others {i : Nat} : i ∈ (List.range rels.length).tail ↔ 1 ≤ i ∧ i < rels.length := by
    rw [List.range_eq_range', List.tail_range', List.mem_range'_1]
    omega
  cases kind : s.kind with
  | unionAll | union =>
    rw [kind] at made
    obtain ⟨whole, holds⟩ := disjoin_spec about start made
    refine ⟨whole, fun x hx h => holds x hx ?_⟩
    obtain ⟨i, hi, h⟩ := h
    rcases Nat.eq_zero_or_pos i with rfl | later
    · exact .inl (h first hfirst)
    · exact .inr ⟨i, others.2 ⟨later, hi⟩, h⟩
  | intersect | intersectAll =>
    rw [kind] at made
    obtain ⟨whole, holds⟩ := conjoin_spec about start made
    exact ⟨whole, fun x hx h => holds x hx
      ⟨h 0 some first hfirst, fun i hi => h i (others.1 hi).2⟩⟩
  | difference | differenceAll =>
    rw [kind] at made
    obtain rfl := OptResult.pure_eq_ok.1 made
    exact ⟨start, fun x _ h => h _ hfirst⟩

end SetOperation

end QueryOptimizer
