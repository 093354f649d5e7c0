import QueryOptimizer.Derivation.Statistics
import QueryOptimizer.Proofs.Derivation.Counting

/-!
# Empty statistics

Statistics are marked empty only where there are no rows: the estimates of each operator are
empty only if the estimates of inputs are, or if no row passes a predicate.

## Main results

* `Statistics.isEmpty_join`, `SetOperation.statistics_spec`: which inputs of joins and set
  operations have to be empty.
* `Statistics.filter_spec`: when no row passes a filter.
-/

namespace QueryOptimizer

variable {K : Type} [Quantity K]

namespace Statistics

variable {s left right : Statistics K} {p : JoinPredicate} {catalog : Catalog K}
  {config : Config K}

/-! ### Operators on one input -/

/-- The statistics of a stored table are not marked empty. -/
theorem isEmpty_ofTable {t : Table} {cols : List Column}
    (made : ofTable catalog config t cols = .ok s) : s.isEmpty = false := by
  obtain ⟨stats, -, made⟩ := OptResult.bind_eq_ok.1 made
  obtain rfl := OptResult.pure_eq_ok.1 made
  rfl

/-- The statistics of constant rows are marked empty if there are none. -/
theorem isEmpty_ofRows (cols : List Column) (rows : List (List Datum)) :
    (ofRows cols rows : Statistics K).isEmpty = rows.isEmpty := by
  unfold ofRows
  split
  · rename_i none
    exact none.symm
  · rename_i some
    exact (Bool.eq_false_iff.2 some).symm

/-- A filter leaves nothing only of nothing, or if no row can pass the predicate. -/
theorem filter_spec {e : Scalar} {t : Statistics K} (made : s.filter catalog config e = .ok t)
    (empty : t.isEmpty = true) : s.isEmpty = true ∨ e.isFalse = true ∨
      ∃ known, ConstraintProperty.ofPredicate catalog e = .ok known ∧
        known.isContradiction = true := by
  unfold filter at made
  split at made
  · rename_i none
    exact .inl none
  split at made
  · rename_i false
    exact .inr (.inl false)
  obtain ⟨known, read, made⟩ := OptResult.bind_eq_ok.1 made
  split at made
  · rename_i contradiction
    exact .inr (.inr ⟨known, read, contradiction⟩)
  obtain ⟨kept, -, made⟩ := OptResult.bind_eq_ok.1 made
  obtain rfl := OptResult.pure_eq_ok.1 made
  exact .inl empty

/-- A projection is marked empty if its input is. -/
theorem isEmpty_project (ds : List Definition) : (s.project ds).isEmpty = s.isEmpty := by
  suffices all : ∀ t : Statistics K, (ds.foldl s.define t).isEmpty = t.isEmpty from all s
  induction ds with
  | nil => exact fun _ => rfl
  | cons d ds ih =>
    intro t
    rw [List.foldl_cons, ih]
    unfold define
    split <;> rfl

/-- A grouping is marked empty if its input is, unless it has no keys. -/
theorem isEmpty_groupBy (keys aggregates : List Column) :
    (s.groupBy config keys aggregates).isEmpty = (s.isEmpty && !keys.isEmpty) := by
  unfold groupBy
  split
  · rename_i none
    exact none.symm
  · rename_i some
    exact (Bool.eq_false_iff.2 some).symm

/-! ### Joins -/

/-- An inner join is marked empty if one of its inputs is. -/
theorem isEmpty_innerJoin :
    (innerJoin config left right p).isEmpty = (left.isEmpty || right.isEmpty) := by
  unfold innerJoin
  split
  · rename_i none
    exact none.symm
  · rfl

/-- A semijoin is marked empty if one of its inputs is. -/
theorem isEmpty_semiJoin :
    (semiJoin config left right p).isEmpty = (left.isEmpty || right.isEmpty) := by
  unfold semiJoin
  split
  · rename_i none
    exact none.symm
  · rename_i some
    exact (Bool.eq_false_iff.2 some).symm

/-- An antijoin is marked empty if its left input is. -/
theorem isEmpty_antiJoin {notIn keepHistograms : Bool} :
    (antiJoin config left right p notIn keepHistograms).isEmpty = left.isEmpty := by
  unfold antiJoin
  split
  · rfl
  · rename_i some
    exact (Bool.or_eq_false_iff.1 (Bool.eq_false_iff.2 some)).1.symm

/-- A left outer join is marked empty if its left input is. -/
theorem isEmpty_leftOuterJoin :
    (leftOuterJoin config left right p).isEmpty = left.isEmpty := by
  unfold leftOuterJoin
  split
  · rename_i none
    exact none.symm
  · rename_i some
    exact (Bool.eq_false_iff.2 some).symm

/-- A join is empty only if its left input is, or if its right input is and it
keeps matches only. -/
theorem isEmpty_join {type : JoinType}
    (empty : (join config type left right p).isEmpty = true) :
    left.isEmpty = true ∨ right.isEmpty = true ∧ (type = .inner ∨ type = .leftSemi) := by
  cases type with
  | inner =>
    rw [join, isEmpty_innerJoin, Bool.or_eq_true] at empty
    exact empty.imp_right fun h => ⟨h, .inl rfl⟩
  | leftSemi =>
    rw [join, isEmpty_semiJoin, Bool.or_eq_true] at empty
    exact empty.imp_right fun h => ⟨h, .inr rfl⟩
  | leftOuter =>
    rw [join, isEmpty_leftOuterJoin] at empty
    exact .inl empty
  | leftAntiSemi | leftAntiSemiNotIn =>
    rw [join, isEmpty_antiJoin] at empty
    exact .inl empty

/-! ### Set operations -/

/-- A concatenation is marked empty if both of its inputs are. -/
theorem isEmpty_unionAll (first second : SetInput K) (output : List Column) :
    (unionAll first second output).isEmpty =
      (first.stats.isEmpty && second.stats.isEmpty) := by
  unfold unionAll
  cases h : first.stats.isEmpty <;> cases h' : second.stats.isEmpty
  · rfl
  · exact h
  · exact h'
  · rfl

/-- A concatenation of several inputs is marked empty if all of them are. -/
theorem isEmpty_unionAllOf (inputs : List (SetInput K)) (output : List Column) :
    (unionAllOf inputs output).isEmpty = inputs.all (·.stats.isEmpty) := by
  have all (inputs : List (SetInput K)) (t : Statistics K) :
      (inputs.foldl (fun acc i => unionAll ⟨acc, output⟩ i output) t).isEmpty =
        (t.isEmpty && inputs.all (·.stats.isEmpty)) := by
    induction inputs generalizing t with
    | nil => exact (Bool.and_true _).symm
    | cons i is ih => rw [List.foldl_cons, ih, isEmpty_unionAll, List.all_cons, Bool.and_assoc]
  cases inputs with
  | nil => rfl
  | cons first others => exact all others _

/-- A difference that keeps duplicates is marked empty if its first input is. -/
theorem isEmpty_differenceAll {first second : SetInput K} {output : List Column} :
    (differenceAll config first second output).isEmpty = first.stats.isEmpty :=
  isEmpty_antiJoin

/-- A difference is marked empty only if its first input is. -/
theorem isEmpty_difference {first second : SetInput K} {output : List Column}
    (empty : (difference config first second output).isEmpty = true) :
    first.stats.isEmpty = true := by
  have empty : (first.stats.groupBy config first.cols []).isEmpty = true :=
    isEmpty_antiJoin.symm.trans empty
  rw [isEmpty_groupBy, Bool.and_eq_true] at empty
  exact empty.1

/-- An intersection that keeps duplicates is marked empty if one of its inputs is. -/
theorem isEmpty_intersectAll {first second : SetInput K} {output : List Column} :
    (intersectAll config first second output).isEmpty =
      (first.stats.isEmpty || second.stats.isEmpty) :=
  isEmpty_semiJoin

/-- An intersection is marked empty only if one of its inputs is. -/
theorem isEmpty_intersect {first second : SetInput K} {output : List Column}
    (empty : (intersect config first second output).isEmpty = true) :
    first.stats.isEmpty = true ∨ second.stats.isEmpty = true := by
  have empty :
      ((first.stats.groupBy config first.cols []).isEmpty || second.stats.isEmpty) = true :=
    isEmpty_semiJoin.symm.trans empty
  rw [isEmpty_groupBy, Bool.or_eq_true, Bool.and_eq_true] at empty
  exact empty.imp_left And.left

end Statistics

/-- No row comes of a join with empty estimates. The rows are made for pairs of a left row and
the right rows that belong to it. -/
theorem JoinType.statistics_spec {type : JoinType} {e : Scalar} {config : Config K}
    {a b : Relation K} {t : Statistics K} (made : type.statistics e config [a, b] = .ok t)
    (empty : t.isEmpty = true) {pairs : Multiset (Row × Bag)}
    (left : a.statistics.isEmpty = true → pairs = 0)
    (each : b.statistics.isEmpty = true → ∀ x ∈ pairs, x.2 = 0) (right : Finset Nat)
    (p : Row → Truth) : (pairs.bind fun x => type.rows right p x.1 x.2) = 0 := by
  obtain rfl := Except.ok.inj made
  rcases Statistics.isEmpty_join empty with none | ⟨none, kept⟩
  · rw [left none, Multiset.zero_bind]
  · refine Multiset.eq_zero_of_forall_notMem fun z hz => ?_
    obtain ⟨x, hx, hz⟩ := Multiset.mem_bind.1 hz
    rw [each none x hx] at hz
    rcases kept with rfl | rfl <;> exact Multiset.notMem_zero z hz

/-! ### Inputs of set operations -/

namespace SetOperation

variable {s : SetOperation} {rels : Inputs K} {t : Statistics K} {config : Config K}

omit [Quantity K] in
/-- If an operation on two inputs leaves nothing only of nothing in the first one, or
in the second one where `both` holds, then so does the operation applied from the
left to all inputs. -/
theorem foldlM_spec {both : Prop} {input : Nat → OptResult (Statistics.SetInput K)}
    (read : ∀ i a, input i = .ok a → ∃ r, rels[i]? = some r ∧ a.stats = r.statistics)
    {f : Statistics.SetInput K → Statistics.SetInput K → List Column → Statistics K}
    (step : ∀ a b, (f a b s.output).isEmpty = true → a.stats.isEmpty = true ∨ both ∧
      b.stats.isEmpty = true) {others : List Nat} {acc : Statistics K}
    (made : others.foldlM (fun acc i => return f ⟨acc, s.output⟩ (← input i) s.output) acc =
      .ok t) (empty : t.isEmpty = true) :
    acc.isEmpty = true ∨ both ∧ ∃ i : Nat, ∃ r : Relation K, rels[i]? = some r ∧
      r.statistics.isEmpty = true := by
  induction others generalizing acc with
  | nil =>
    obtain rfl := OptResult.pure_eq_ok.1 made
    exact .inl empty
  | cons i others ih =>
    rw [List.foldlM_cons] at made
    obtain ⟨next, joined, rest⟩ := OptResult.bind_eq_ok.1 made
    obtain ⟨a, ha, joined⟩ := OptResult.bind_eq_ok.1 joined
    obtain rfl := OptResult.pure_eq_ok.1 joined
    obtain ⟨r, found, same⟩ := read i a ha
    rcases ih rest with here | there
    · exact (step _ _ here).imp_right fun none => ⟨none.1, i, r, found, same ▸ none.2⟩
    · exact .inr there

omit [Quantity K] in
/-- If putting inputs together marks the result empty, the first input is marked so or, where
both sides count, any other one. -/
theorem foldStatistics_spec {both : Prop}
    {f : Statistics.SetInput K → Statistics.SetInput K → List Column → Statistics K}
    (step : ∀ a b, (f a b s.output).isEmpty = true → a.stats.isEmpty = true ∨ both ∧
      b.stats.isEmpty = true) (made : s.foldStatistics rels f = .ok t)
    (empty : t.isEmpty = true) :
    ∃ i r, rels[i]? = some r ∧ r.statistics.isEmpty = true ∧ (i = 0 ∨ both) := by
  have read (i : Nat) (a : Statistics.SetInput K)
      (h : (do return ⟨(← rels.get i).statistics, ← s.inputCols i⟩ : OptResult
        (Statistics.SetInput K)) = .ok a) :
      ∃ r, rels[i]? = some r ∧ a.stats = r.statistics := by
    obtain ⟨r, found, h⟩ := OptResult.bind_eq_ok.1 h
    obtain ⟨cols, -, h⟩ := OptResult.bind_eq_ok.1 h
    obtain rfl := OptResult.pure_eq_ok.1 h
    exact ⟨r, Inputs.get_eq_ok.1 found, rfl⟩
  obtain ⟨a, readFirst, made⟩ := OptResult.bind_eq_ok.1 made
  obtain ⟨b, readSecond, made⟩ := OptResult.bind_eq_ok.1 made
  obtain ⟨r, foundFirst, first⟩ := read 0 a readFirst
  obtain ⟨r', foundSecond, second⟩ := read 1 b readSecond
  rcases foldlM_spec read step made empty with here | ⟨both, i, r, found, none⟩
  · rcases step a b here with none | ⟨both, none⟩
    · exact ⟨0, r, foundFirst, first ▸ none, .inl rfl⟩
    · exact ⟨1, r', foundSecond, second ▸ none, .inr both⟩
  · exact ⟨i, r, found, none, .inr both⟩

/-- If the estimates of a set operation are empty, then so are the estimates of inputs without
which there is no row. -/
theorem statistics_spec (lengths : rels.length = s.inputs.length)
    (made : s.statistics config rels = .ok t) (empty : t.isEmpty = true) :
    ¬s.kind.Among rels.length fun i => ∀ r, rels[i]? = some r →
      r.statistics.isEmpty = false := by
  have union
    (none : (Statistics.unionAllOf (s.statisticsInputs rels) s.output).isEmpty = true) :
      ¬∃ i < rels.length, ∀ r, rels[i]? = some r → r.statistics.isEmpty = false := by
    rintro ⟨i, hi, some⟩
    rw [Statistics.isEmpty_unionAllOf, List.all_eq_true] at none
    have hi' : i < s.inputs.length := lengths ▸ hi
    have mem : (rels[i], s.inputs[i]) ∈ rels.zip s.inputs :=
      List.mem_iff_getElem?.2 ⟨i, List.getElem?_zip_eq_some.2
        ⟨List.getElem?_eq_getElem hi, List.getElem?_eq_getElem hi'⟩⟩
    have here : rels[i].statistics.isEmpty = true := none _ (List.mem_map_of_mem mem)
    rw [some rels[i] (List.getElem?_eq_getElem hi)] at here
    cases here
  have first
    (none : ∃ i r, rels[i]? = some r ∧ r.statistics.isEmpty = true ∧ (i = 0 ∨ False)) :
      ¬∀ r, rels[0]? = some r → r.statistics.isEmpty = false := by
    rintro some
    obtain ⟨i, r, found, none, rfl | impossible⟩ := none
    · rw [some r found] at none
      cases none
    · exact impossible
  have any (none : ∃ i r, rels[i]? = some r ∧ r.statistics.isEmpty = true ∧ (i = 0 ∨ True)) :
      ¬∀ i < rels.length, ∀ r, rels[i]? = some r → r.statistics.isEmpty = false := by
    rintro some
    obtain ⟨i, r, found, none, -⟩ := none
    rw [some i (List.getElem?_eq_some_iff.1 found).1 r found] at none
    cases none
  unfold statistics at made
  cases kind : s.kind with
  | unionAll =>
    rw [kind] at made
    obtain rfl := OptResult.pure_eq_ok.1 made
    exact union empty
  | union =>
    rw [kind] at made
    obtain rfl := OptResult.pure_eq_ok.1 made
    rw [Statistics.isEmpty_groupBy, Bool.and_eq_true] at empty
    exact union empty.1
  | difference =>
    rw [kind] at made
    exact first
      (foldStatistics_spec
        (fun a b none => .inl (Statistics.isEmpty_difference none)) made empty)
  | differenceAll =>
    rw [kind] at made
    exact first
      (foldStatistics_spec
        (fun a b none => .inl (Statistics.isEmpty_differenceAll.symm.trans none)) made empty)
  | intersect =>
    rw [kind] at made
    refine any (foldStatistics_spec (fun a b none => ?_) made empty)
    exact (Statistics.isEmpty_intersect none).imp_right fun none => ⟨trivial, none⟩
  | intersectAll =>
    rw [kind] at made
    refine any (foldStatistics_spec (fun a b none => ?_) made empty)
    rw [Statistics.isEmpty_intersectAll, Bool.or_eq_true] at none
    exact none.imp_right fun none => ⟨trivial, none⟩

end SetOperation

end QueryOptimizer
