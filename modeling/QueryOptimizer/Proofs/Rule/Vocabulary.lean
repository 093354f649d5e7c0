import Mathlib.Data.Finset.Sort
import Mathlib.Data.Set.Finite.List
import QueryOptimizer.Proofs.Rule.Weight

/-!
# The vocabulary of a search

The rules take predicates apart and put them together again, they move limits about, and they
turn set operations into other operators. Limits apart, the operators that can come about in
this way are made of what was there at the start: predicates are conjunctions of no more
conditions than the weights allow. So up to equality there are finitely many of them.

## Main results

* `LogicalOperator.finite_coined`: up to equality there are finitely many operators.
* `Scalar.Composed.conjoin?`: rotated joins have such predicates.
-/

namespace QueryOptimizer

/-! ### Operators that can come about -/

namespace LogicalOperator

/-- The predicate of a join. -/
def predicates : LogicalOperator → List Scalar
  | join j => [j.predicate]
  | _ => []

/-- The conditions that rules get from an operator. -/
def atoms : LogicalOperator → List Scalar
  | join j => j.predicate.conjuncts
  | setOp s => s.inputs.flatMap fun left => s.inputs.flatMap fun right =>
      List.zipWith (fun l r => .binary .isNotDistinctFrom (.column l) (.column r)) left right
  | _ => []

/-- The set operation. -/
def operations : LogicalOperator → List SetOperation
  | setOp s => [s]
  | _ => []

end LogicalOperator

variable {base : List LogicalOperator} {n : Nat}

/-- The predicates that can come about from some operators: their own ones, and conjunctions of
at most `n` conditions. -/
inductive Scalar.Composed (base : List LogicalOperator) (n : Nat) : Scalar → Prop
  | original {p : Scalar} (mem : p ∈ base.flatMap LogicalOperator.predicates) :
      Composed base n p
  | always : Composed base n (.ofBool true)
  | conjunction {es : List Scalar} {p : Scalar}
      (atoms : ∀ e ∈ es, e ∈ base.flatMap LogicalOperator.atoms) (short : es.length ≤ n)
      (made : conjoin? es = some p) : Composed base n p

/-- The operators that can come about from some operators. -/
inductive LogicalOperator.Coined (base : List LogicalOperator) (n : Nat) :
    LogicalOperator → Prop
  | original {op : LogicalOperator} (mem : op ∈ base) : Coined base n op
  | limit (l : Limit) : Coined base n (.limit l)
  | join {type : JoinType} {p : Scalar} (composed : p.Composed base n) :
      Coined base n (.join ⟨type, p⟩)
  | select {p : Scalar} (composed : p.Composed base n) : Coined base n (.select p)
  | apply {p : Scalar} (composed : p.Composed base n) (cols : ColumnSet) :
      Coined base n (.apply ⟨.inner, .ofBool true, cols.toList.filter p.usedColumns.contains⟩)
  | unionAll {s : SetOperation} (mem : s ∈ base.flatMap operations) :
      Coined base n (.setOp { s with kind := .unionAll })
  | distinct {s : SetOperation} (mem : s ∈ base.flatMap operations) :
      Coined base n (.groupBy (.distinctOn s.output))
  | rename {s : SetOperation} {left : List Column} (mem : s ∈ base.flatMap operations)
      (side : left ∈ s.inputs) :
      Coined base n (.project (List.zipWith (fun c s => (c, .column s)) s.output left))

/-! ### There are finitely many -/

/-- There are finitely many predicates that are composed of so many conditions. -/
theorem Scalar.finite_composed (base : List LogicalOperator) (n : Nat) :
    {p | Scalar.Composed base n p}.Finite := by
  set atoms := base.flatMap LogicalOperator.atoms
  have : Finite {e // e ∈ atoms} := (List.finite_toSet atoms).to_subtype
  have lists : {es : List Scalar | (∀ e ∈ es, e ∈ atoms) ∧ es.length ≤ n}.Finite :=
    ((List.finite_length_le {e // e ∈ atoms} n).image (List.map Subtype.val)).subset
      fun es ⟨mem, short⟩ => ⟨es.attachWith (· ∈ atoms) mem, by simpa using short, by simp⟩
  have originals := List.finite_toSet (base.flatMap LogicalOperator.predicates)
  refine ((originals.union (Set.finite_singleton (ofBool true))).union
    (lists.image fun es => (conjoin? es).getD (ofBool true))).subset fun p hp => ?_
  cases hp with
  | original mem => exact .inl (.inl mem)
  | always => exact .inl (.inr rfl)
  | conjunction mem short made => exact .inr ⟨_, ⟨mem, short⟩, by simp [made]⟩

namespace LogicalOperator

/-- The columns with some ids, with nothing but the ids. -/
def columnsOf (ids : Finset Nat) : List Column :=
  (ids.sort (· ≤ ·)).map fun i => ⟨i, .null, 0, "", .computed⟩

/-- Some columns of a set, up to names and types, are determined by their ids. -/
theorem exists_columnsOf (cols used : ColumnSet) :
    ∃ ids ⊆ used.ids.toFinset,
      (cols.toList.filter used.contains).map Column.bare = columnsOf ids := by
  set kept := cols.toList.filter used.contains
  have rising : (kept.map (·.id)).Pairwise (· < ·) :=
    List.pairwise_map.2 (cols.sorted.sublist List.filter_sublist)
  have sorted : (kept.map (·.id)).toFinset.sort (· ≤ ·) = kept.map (·.id) :=
    (List.toFinset_sort _ (rising.imp Nat.ne_of_lt)).2 (rising.imp Nat.le_of_lt)
  refine ⟨(kept.map (·.id)).toFinset, fun i hi => ?_, ?_⟩
  · obtain ⟨c, hc, rfl⟩ := List.mem_map.1 (List.mem_toFinset.1 hi)
    obtain ⟨d, hd, same⟩ := List.any_eq_true.1 (List.mem_filter.1 hc).2
    exact List.mem_toFinset.2 (List.mem_map.2 ⟨d, hd, beq_iff_eq.1 same⟩)
  · rw [columnsOf, sorted, List.map_map]
    rfl

/-- Limits apart, there are finitely many operators up to equality. -/
theorem finite_coined (base : List LogicalOperator) (n : Nat) :
    (bare '' {op | op.Coined base n ∧ op.isLimit = false}).Finite := by
  have types : {t : JoinType | True}.Finite :=
    (List.finite_toSet
      [.inner, .leftOuter, .leftSemi, .leftAntiSemi, .leftAntiSemiNotIn]).subset fun t _ => by
        cases t <;> simp
  have predicates := Scalar.finite_composed base n
  have operations := List.finite_toSet (base.flatMap operations)
  have originals := (List.finite_toSet base).image bare
  have joins := types.image2 (fun type p => (join ⟨type, p⟩).bare) predicates
  have selects := predicates.image fun p => (select p).bare
  have applies : (⋃ p ∈ {p | Scalar.Composed base n p},
      (fun ids => apply ⟨.inner, .ofBool true, columnsOf ids⟩) ''
        (p.usedColumns.ids.toFinset.powerset : Set (Finset Nat))).Finite :=
    predicates.biUnion fun p _ => (Finset.finite_toSet _).image _
  have unions := operations.image fun s => (setOp { s with kind := .unionAll }).bare
  have distincts := operations.image fun s => (groupBy (.distinctOn s.output)).bare
  have renames : (⋃ s ∈ {s | s ∈ base.flatMap LogicalOperator.operations},
      (fun left => (project (List.zipWith (fun c s => (c, .column s)) s.output left)).bare) ''
        {left | left ∈ s.inputs}).Finite :=
    operations.biUnion fun s _ => (List.finite_toSet s.inputs).image _
  refine ((((((originals.union joins).union selects).union applies).union unions).union
    distincts).union renames).subset ?_
  rintro _ ⟨op, ⟨coined, plain⟩, rfl⟩
  cases coined with
  | original mem => exact .inl (.inl (.inl (.inl (.inl (.inl ⟨_, mem, rfl⟩)))))
  | limit => cases plain
  | join composed =>
    exact .inl (.inl (.inl (.inl (.inl (.inr ⟨_, trivial, _, composed, rfl⟩)))))
  | select composed => exact .inl (.inl (.inl (.inl (.inr ⟨_, composed, rfl⟩))))
  | @apply p composed cols =>
    obtain ⟨ids, sub, same⟩ := exists_columnsOf cols p.usedColumns
    refine .inl (.inl (.inl (.inr (Set.mem_biUnion composed ⟨ids, ?_, ?_⟩))))
    · exact Finset.mem_coe.2 (Finset.mem_powerset.2 sub)
    · simp [bare, Apply.bare, same, Scalar.ofBool, Scalar.bare]
  | unionAll mem => exact .inl (.inl (.inr ⟨_, mem, rfl⟩))
  | distinct mem => exact .inl (.inr ⟨_, mem, rfl⟩)
  | rename mem side => exact .inr (Set.mem_biUnion mem ⟨_, side, rfl⟩)

end LogicalOperator

/-! ### The rules stay within it -/

namespace Scalar

/-- An atom is not a conjunction. -/
theorem conjuncts_of_mem_atoms {c : Scalar} (h : c ∈ base.flatMap LogicalOperator.atoms) :
    c.conjuncts = [c] := by
  obtain ⟨op, -, hc⟩ := List.mem_flatMap.1 h
  cases op with
  | join j => exact conjuncts_of_mem_conjuncts hc
  | setOp s =>
    obtain ⟨left, -, hc⟩ := List.mem_flatMap.1 hc
    obtain ⟨right, -, hc⟩ := List.mem_flatMap.1 hc
    obtain ⟨i, hi, rfl⟩ := List.mem_iff_getElem.1 hc
    rw [List.getElem_zipWith]
    rfl
  | _ => cases hc

namespace Composed

variable {p q : Scalar}

/-- The conjuncts of a composed predicate are atoms. -/
theorem mem_atoms (h : p.Composed base n) {c : Scalar} (mem : c ∈ p.conjuncts)
    (something : c.isTrue = false) : c ∈ base.flatMap LogicalOperator.atoms := by
  cases h with
  | original known =>
    obtain ⟨op, hop, hp⟩ := List.mem_flatMap.1 known
    refine List.mem_flatMap.2 ⟨op, hop, ?_⟩
    cases op with
    | join j =>
      obtain rfl := List.mem_singleton.1 hp
      exact mem
    | _ => cases hp
  | always =>
    obtain rfl := List.mem_singleton.1 mem
    cases something
  | conjunction atoms _ made =>
    rw [conjuncts_conjoin?_self made fun e he => conjuncts_of_mem_atoms (atoms e he)] at mem
    exact atoms c mem

/-- Composed predicates are spread into atoms. -/
theorem mem_atoms_of_spread (hp : p.Composed base n) (hq : q.Composed base n) {c : Scalar}
    (mem : c ∈ p.spread q) : c ∈ base.flatMap LogicalOperator.atoms := by
  obtain ⟨mem, something⟩ := List.mem_filter.1 mem
  have something : c.isTrue = false := by simpa using something
  rcases List.mem_append.1 mem with mem | mem
  · exact hp.mem_atoms mem something
  · exact hq.mem_atoms mem something

/-- Some of the conditions of two predicates make a predicate, unless there are too many. -/
theorem conjoin? (hp : p.Composed base n) (hq : q.Composed base n)
    (short : p.conditions + q.conditions ≤ n) (f : Scalar → Bool) {r : Scalar}
    (made : Scalar.conjoin? ((p.spread q).filter f) = some r) : r.Composed base n := by
  refine .conjunction (fun e he => hp.mem_atoms_of_spread hq (List.mem_filter.1 he).1) ?_ made
  exact (List.length_filter_le _ _).trans ((length_spread p q).trans_le short)

/-- Some of the conditions of composed predicates compose a predicate again. -/
theorem conjoin?_getD (hp : p.Composed base n) (hq : q.Composed base n)
    (short : p.conditions + q.conditions ≤ n) (f : Scalar → Bool) :
    ((Scalar.conjoin? ((p.spread q).filter f)).getD (.ofBool true)).Composed base n := by
  cases made : Scalar.conjoin? ((p.spread q).filter f) with
  | none => exact .always
  | some r => exact hp.conjoin? hq short f made

end Composed

end Scalar

namespace LogicalOperator.Coined

/-- The predicate of a join of the search is composed. -/
theorem predicate {j : Join} (h : Coined base n (.join j)) : j.predicate.Composed base n := by
  cases h with
  | original mem => exact .original (List.mem_flatMap.2 ⟨_, mem, List.mem_singleton_self _⟩)
  | join composed => exact composed

/-- The rules make no set operations but unions that keep duplicates. -/
theorem operation {s : SetOperation} (h : Coined base n (.setOp s))
    (notAll : s.kind ≠ .unionAll) : s ∈ base.flatMap operations := by
  cases h with
  | original mem => exact List.mem_flatMap.2 ⟨_, mem, List.mem_singleton_self _⟩
  | unionAll => exact absurd rfl notAll

/-- The rows of the inputs of a set operation are compared. -/
theorem composed_sameRow? {s : SetOperation} {left right : List Column} {p : Scalar}
    (known : s ∈ base.flatMap operations) (hl : left ∈ s.inputs) (hr : right ∈ s.inputs)
    (short : min left.length right.length ≤ n)
    (made : SetOperationRule.sameRow? left right = some p) : p.Composed base n := by
  obtain ⟨op, hop, hs⟩ := List.mem_flatMap.1 known
  refine .conjunction (fun e he => List.mem_flatMap.2 ⟨op, hop, ?_⟩)
    ((List.length_zipWith ..).trans_le short) made
  cases op with
  | setOp s' =>
    obtain rfl := List.mem_singleton.1 hs
    exact List.mem_flatMap.2 ⟨left, hl, List.mem_flatMap.2 ⟨right, hr, he⟩⟩
  | _ => cases hs

end LogicalOperator.Coined

end QueryOptimizer
