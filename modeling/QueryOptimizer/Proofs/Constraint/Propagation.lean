import QueryOptimizer.Proofs.Constraint.Property

/-!
# Propagation is exact

Every row that has what a property is made of has the property
(`ConstraintProperty.Holds.ofClasses`). Here is the converse. Uniting classes loses no class of
two columns, and the copies of a constraint stand beside it, so the rows that have a property
are those that have what it is made of. A projection of a conjunction says what the projections
of its parts say, neither more nor less. Since a class has a copy of what is known of one of
its columns for each of the others, everything that is known of a column can be read off the
projection on any other column of its class.

## Main results

* `ConstraintProperty.apart_mergeClasses`, `ConstraintProperty.exists_mem_mergeClasses`: united
  classes have no columns in common, and every class of two columns is within one of them.
* `ConstraintProperty.holds_ofClasses`, `ConstraintProperty.holds_conjoin`:
  which rows have a property.
* `Constraint.admitsOn_conjunction?`: projections of conjunctions.
* `ConstraintProperty.propagation`: propagation is sound and complete.
-/

namespace QueryOptimizer

variable {Γ : Nat → DataType} {S : Finset Nat} {r : Row}

/-- A row that a conjunction admits is admitted by all that is put in. -/
theorem Constraint.admits_of_conjunction? {cs : List Constraint} {strategy : LookupStrategy}
    (hr : r.HasTypes Γ) (regular : ∀ c ∈ cs, c.Regular Γ)
    (h : ∀ c ∈ conjunction? cs strategy, c.admits r = true) : ∀ c ∈ cs, c.admits r = true := by
  have all : (conjunction? cs strategy).all _ = _ := admits_conjunction? hr regular
  rw [(Option.all_eq_true _ _).2 h] at all
  exact List.all_eq_true.1 all.symm

namespace ConstraintProperty

variable {p q : ConstraintProperty} {classes : List ColumnSet} {constraint : Option Constraint}

/-! ### United classes -/

section SwapRemove

variable {α : Type} {as : List α} {index : Nat}

/-- The last element takes the place of the one that is removed, any other one
stays where it is. -/
theorem getElem?_swapRemove (as : List α) (index : Nat) {j : Nat}
    (inside : j < as.length - 1) :
    (swapRemove as index)[j]? = as[if index = j then as.length - 1 else j]? := by
  have last : as.getLast? = some as[as.length - 1] := by
    rw [List.getLast?_eq_getElem?, List.getElem?_eq_getElem]
  simp only [swapRemove, last, List.getElem?_dropLast, List.length_set, inside, if_true,
    List.getElem?_set]
  split
  · rename_i same
    rw [if_pos (by omega), List.getElem?_eq_getElem]
  · rfl

/-- An element of a list is the one that is removed or is left. -/
theorem eq_or_mem_swapRemove (inside : index < as.length) {a : α} (h : a ∈ as) :
    a = as[index] ∨ a ∈ swapRemove as index := by
  obtain ⟨j, hj, rfl⟩ := List.mem_iff_getElem.1 h
  rcases eq_or_ne index j with rfl | different
  · exact .inl rfl
  refine .inr (List.mem_iff_getElem?.2 ?_)
  rcases Nat.lt_or_ge j (as.length - 1) with before | behind
  · exact ⟨j, by
      rw [getElem?_swapRemove as index before, if_neg different, List.getElem?_eq_getElem]⟩
  · obtain rfl : j = as.length - 1 := by omega
    exact ⟨index, by
      rw [getElem?_swapRemove as index (by omega), if_pos rfl, List.getElem?_eq_getElem]⟩

/-- A symmetric relation between the elements of a list holds between those that are left. -/
theorem pairwise_swapRemove {R : α → α → Prop} (symm : ∀ a b, R a b → R b a)
    (h : as.Pairwise R) : (swapRemove as index).Pairwise R := by
  have all {i j : Nat} {a b : α} (different : i ≠ j) (ha : as[i]? = some a)
      (hb : as[j]? = some b) : R a b := by
    obtain ⟨hi, rfl⟩ := List.getElem?_eq_some_iff.1 ha
    obtain ⟨hj, rfl⟩ := List.getElem?_eq_some_iff.1 hb
    rcases Nat.lt_or_gt_of_ne different with lt | gt
    · exact List.pairwise_iff_getElem.1 h i j hi hj lt
    · exact symm _ _ (List.pairwise_iff_getElem.1 h j i hj hi gt)
  refine List.pairwise_iff_getElem.2 fun i j hi hj lt => ?_
  have bound := length_swapRemove as index
  have at_i := getElem?_swapRemove as index (bound ▸ hi)
  have at_j := getElem?_swapRemove as index (bound ▸ hj)
  rw [List.getElem?_eq_getElem hi] at at_i
  rw [List.getElem?_eq_getElem hj] at at_j
  refine all ?_ at_i.symm at_j.symm
  split <;> split <;> omega

end SwapRemove

/-- A class that absorbs others contains these, and keeps the rest as they are. -/
theorem subset_absorb (current : ColumnSet) (merged : List ColumnSet) :
    current.idSet ⊆ (absorb current merged).1.idSet ∧
      ∀ m ∈ merged, m ∈ (absorb current merged).2 ∨
        m.idSet ⊆ (absorb current merged).1.idSet := by
  fun_induction absorb current merged with
  | case1 current merged _ => exact ⟨subset_rfl, fun m hm => .inl hm⟩
  | case2 current merged i found inside ih =>
    obtain ⟨united, rest⟩ := ih
    rw [ColumnSet.idSet_union] at united
    refine ⟨Finset.subset_union_left.trans united, fun m hm => ?_⟩
    rcases eq_or_mem_swapRemove inside hm with rfl | hm
    · exact .inr (Finset.subset_union_right.trans united)
    · exact rest m hm

/-- A class that is added, or was there, is within a class afterwards. -/
theorem exists_mem_addClass {merged : List ColumnSet} {c m : ColumnSet}
    (h : m = c ∨ m ∈ merged) : ∃ u ∈ addClass merged c, m.idSet ⊆ u.idSet := by
  obtain ⟨united, rest⟩ := subset_absorb c merged
  rcases h with rfl | h
  · exact ⟨_, List.mem_append_right _ (List.mem_singleton.2 rfl), united⟩
  · rcases rest m h with kept | within
    · exact ⟨m, List.mem_append_left _ kept, subset_rfl⟩
    · exact ⟨_, List.mem_append_right _ (List.mem_singleton.2 rfl), within⟩

/-- Uniting classes loses no class. -/
theorem exists_mem_foldl_addClass {cls : ColumnSet} (merged : List ColumnSet)
    (h : cls ∈ classes ∨ ∃ u ∈ merged, cls.idSet ⊆ u.idSet) :
    ∃ u ∈ classes.foldl addClass merged, cls.idSet ⊆ u.idSet := by
  induction classes generalizing merged with
  | nil => simpa using h
  | cons d ds ih =>
    refine ih _ ?_
    rw [List.mem_cons, or_assoc] at h
    obtain rfl | later | ⟨u, hu, within⟩ := h
    · exact .inr (exists_mem_addClass (.inl rfl))
    · exact .inl later
    · obtain ⟨v, hv, within'⟩ := exists_mem_addClass (c := d) (.inr hu)
      exact .inr ⟨v, hv, within.trans within'⟩

/-- United classes are those of two columns and more. -/
theorem mem_mergeClasses {u : ColumnSet} :
    u ∈ mergeClasses classes ↔ u ∈ classes.foldl addClass [] ∧ 1 < u.idSet.card := by
  rw [mergeClasses, List.mem_filter, decide_eq_true_iff, ColumnSet.size_eq_card]

/-- Every class of two columns is within a united one. -/
theorem exists_mem_mergeClasses {cls : ColumnSet} (h : cls ∈ classes)
    (two : 1 < cls.idSet.card) : ∃ u ∈ mergeClasses classes, cls.idSet ⊆ u.idSet := by
  obtain ⟨u, hu, within⟩ := exists_mem_foldl_addClass [] (.inl h)
  exact ⟨u, mem_mergeClasses.2 ⟨hu, two.trans_le (Finset.card_le_card within)⟩, within⟩

/-- Whether two classes have no column in common. -/
def Apart (a b : ColumnSet) : Prop :=
  Disjoint a.idSet b.idSet

/-- Being apart is symmetric. -/
theorem Apart.symm {a b : ColumnSet} (h : Apart a b) : Apart b a :=
  Disjoint.symm h

/-- A class that has absorbed all classes that it can has no column in common with the rest. -/
theorem apart_absorb (current : ColumnSet) {merged : List ColumnSet}
    (apart : merged.Pairwise Apart) :
    (absorb current merged).2.Pairwise Apart ∧ ∀ m ∈ (absorb current merged).2, Apart m
      (absorb current merged).1 := by
  fun_induction absorb current merged with
  | case1 current merged none =>
    refine ⟨apart, fun m hm => ?_⟩
    have disjoint := List.findIdx?_eq_none_iff.1 none m hm
    exact ColumnSet.isDisjoint_iff.1 (by simpa using disjoint)
  | case2 current merged i found inside ih =>
    exact ih (pairwise_swapRemove (fun _ _ => Apart.symm) apart)

/-- Adding classes keeps them apart. -/
theorem apart_foldl_addClass {merged : List ColumnSet} (apart : merged.Pairwise Apart) :
    (classes.foldl addClass merged).Pairwise Apart := by
  induction classes generalizing merged with
  | nil => exact apart
  | cons d ds ih =>
    obtain ⟨rest, united⟩ := apart_absorb d apart
    refine ih (List.pairwise_append.2 ⟨rest, List.pairwise_singleton _ _, fun m hm u hu => ?_⟩)
    exact List.mem_singleton.1 hu ▸ united m hm

/-- United classes have no columns in common. -/
theorem apart_mergeClasses (classes : List ColumnSet) :
    (mergeClasses classes).Pairwise Apart :=
  (apart_foldl_addClass .nil).sublist List.filter_sublist

/-! ### Rows that have a property -/

/-- Copies of a constraint within classes are in normal form, as it is itself. -/
theorem normal_propagated {c : Constraint} (normal : c.Normal Γ)
    (types : ∀ cls ∈ classes, cls.Linked fun i j => Γ i = Γ j) :
    ∀ d ∈ c :: classes.flatMap (copiesWithin c), d.Normal Γ := by
  refine List.forall_mem_cons.2 ⟨normal, fun d hd => ?_⟩
  obtain ⟨cls, hcls, hd⟩ := List.mem_flatMap.1 hd
  exact (copiesWithin_spec normal (types cls hcls) hd).1.1

/-- What is propagated passes a test if the constraint and its copies do, as it
is for conjunctions. -/
theorem all_propagate {c : Constraint} {f : Constraint → Bool}
    (all : (Constraint.conjunction? (c :: classes.flatMap (copiesWithin c)) .index).all f =
      (c :: classes.flatMap (copiesWithin c)).all f) :
    (propagate classes (some c)).all f = (c :: classes.flatMap (copiesWithin c)).all f := by
  rcases propagate_cases classes c with ⟨none, same⟩ | conjoined
  · simp [none, same]
  · rw [conjoined, all]

/-- Rows that have a property have what it is made of. -/
theorem Holds.of_ofClasses (about : About Γ S ⟨classes, constraint⟩) (hr : r.HasTypes Γ)
    (h : (ConstraintProperty.ofClasses classes constraint).Holds r) :
    Holds ⟨classes, constraint⟩ r where
  classes cls hcls i hi j hj := by
    rcases Nat.lt_or_ge 1 cls.idSet.card with two | one
    · obtain ⟨u, hu, within⟩ := exists_mem_mergeClasses hcls two
      exact h.classes u hu i (within hi) j (within hj)
    · obtain rfl := Finset.card_le_one.1 one i hi j hj
      exact Value.same_self _
  constraint c hc := by
    obtain rfl : constraint = some c := hc
    have normal :=
      normal_propagated (about.constraint c rfl).1 fun cls hcls =>
        (about.mergeClasses.classes cls hcls).2
    have holds : (propagate (ConstraintProperty.mergeClasses classes) (some c)).all
        (Constraint.admits r) = true :=
      (Option.all_eq_true _ _).2 h.constraint
    rw [all_propagate (Constraint.admits_conjunction? hr fun d hd => (normal d hd).regular)]
      at holds
    exact List.all_eq_true.1 holds c (by simp)

/-- The rows that have a property are those that have what it is made of. -/
theorem holds_ofClasses (about : About Γ S ⟨classes, constraint⟩) (hr : r.HasTypes Γ) :
    (ofClasses classes constraint).Holds r ↔ Holds ⟨classes, constraint⟩ r :=
  ⟨.of_ofClasses about hr, .ofClasses about hr⟩

/-- The rows of a conjunction of properties are those of both. -/
theorem holds_conjoin (hp : p.About Γ S) (hq : q.About Γ S) (hr : r.HasTypes Γ) :
    (p.conjoin q).Holds r ↔ p.Holds r ∧ q.Holds r := by
  refine ⟨fun h => ?_, fun h => h.1.conjoin hp hq hr h.2⟩
  have both := Holds.of_ofClasses (hp.both hq) hr h
  have known :=
    Constraint.admits_of_conjunction? hr
      (fun c hc => (hp.parts hq c hc).1.regular) both.constraint
  refine ⟨⟨fun cls hcls => both.classes cls (List.mem_append_left _ hcls),
    fun c hc => known c ?_⟩,
      ⟨fun cls hcls => both.classes cls (List.mem_append_right _ hcls),
        fun c hc => known c ?_⟩⟩
  · exact List.mem_append_left _ (Option.mem_toList.2 hc)
  · exact List.mem_append_right _ (Option.mem_toList.2 hc)

end ConstraintProperty

/-! ### Projections on one column -/

namespace Constraint

variable {c d : Constraint} {cs parts : List Constraint}
  {strategy : LookupStrategy} {col : Column}

/-- Whether what a constraint says about a column admits a row. -/
def admitsOn (col : Column) (r : Row) (c : Constraint) : Bool :=
  (onColumn col c).all (admits r)

/-- An interval says something about its own column only. -/
theorem admitsOn_interval (i : Interval) :
    admitsOn col r (interval i) = (!(i.column == col) || i.admits (r i.column.id)) := by
  unfold admitsOn onColumn
  cases i.column == col <;> simp

/-- What a constraint admits as a row it admits on a column. -/
theorem admitsOn_of_admits (normal : c.Normal Γ) (hr : r.HasTypes Γ) (h : c.admits r = true) :
    admitsOn col r c = true :=
  (Option.all_eq_true _ _).2 fun _ hd =>
    (onColumn_spec normal.regular normal.spread hd).admits r hr h

/-- What is unbounded admits everything on a column. -/
theorem admitsOn_of_isUnbounded (normal : c.Normal Γ) (hr : r.HasTypes Γ)
    (h : c.isUnbounded = true) : admitsOn col r c = true :=
  admitsOn_of_admits normal hr (admits_of_isUnbounded h r)

/-- A constraint says something about the columns that it uses only. -/
theorem mem_uses_of_onColumn (h : onColumn col c = some d) : col.id ∈ c.uses := by
  have used {s : ColumnSet} (inside : s.contains col = true) : col.id ∈ s.idSet :=
    ColumnSet.mem_idSet.2 inside
  cases c with
  | interval i =>
    unfold onColumn at h
    split at h
    · rename_i same
      simpa using (Column.beq_iff.1 same).symm
    · cases h
  | conjunction parts strategy | disjunction parts strategy =>
    unfold onColumn at h
    split at h
    · cases h
    · rename_i inside
      simpa only [uses, usedColumns] using used (by simpa using inside)
  | negation c =>
    unfold onColumn at h
    split at h
    · rename_i single
      simpa only [uses, usedColumns] using used (Bool.and_eq_true_iff.1 single).2
    · cases h

/-- What parts say together is what each of them says. -/
theorem Projection.all_conjoin {ps : List Projection} (hr : r.HasTypes Γ)
    (regular : ∀ p ∈ ps, ∀ b ∈ p.bound, b.Regular Γ) :
    (conjoin ps).all (admits r) = ps.all fun p => p.bound.all (admits r) := by
  have effective : ∀ b ∈ ps.filterMap effective?, b.Regular Γ := fun b hb => by
    obtain ⟨p, hp, found⟩ := List.mem_filterMap.1 hb
    exact regular p hp b (bound_of_effective? found)
  have all : (conjunction? (ps.filterMap effective?) .scan).all _ = _ :=
    admits_conjunction? hr effective
  rw [conjoin, all, List.all_filterMap]
  refine List.all_congr rfl fun p => ?_
  cases known : p.bound with
  | none => simp [effective?, known]
  | some b =>
    cases full : b.isUnbounded with
    | true => simp [effective?, known, Option.filter_some, full, admits_of_isUnbounded full]
    | false => simp [effective?, known, Option.filter_some, full]

/-- The parts that are looked up for a column, on this column only or also on others,
are those that use it. -/
theorem mem_selected {ps : List Projection} {p : Projection} :
    p ∈ strategy.select (·.used) ps col ++
      ps.filter (fun p => decide (1 < p.used.size) && p.used.contains col) ↔
      p ∈ ps ∧ p.used.contains col = true := by
  have some (inside : p.used.contains col = true) : 0 < p.used.size := by
    rw [ColumnSet.size_eq_card]
    exact Finset.card_pos.2 ⟨_, ColumnSet.mem_idSet.2 inside⟩
  simp only [LookupStrategy.select_eq, List.mem_append, List.mem_filter, PartIndex.isOn,
    Bool.and_eq_true, decide_eq_true_eq, beq_iff_eq]
  constructor
  · rintro (⟨hp, inside, -⟩ | ⟨hp, -, inside⟩) <;> exact ⟨hp, inside⟩
  · rintro ⟨hp, inside⟩
    obtain one | two : p.used.size = 1 ∨ 1 < p.used.size := by have := some inside; omega
    · exact .inl ⟨hp, inside, one⟩
    · exact .inr ⟨hp, two, inside⟩

/-- A conjunction says about a column what its parts say about it. -/
theorem admitsOn_conjunction (normal : ∀ p ∈ parts, p.Normal Γ) (hr : r.HasTypes Γ) :
    admitsOn col r (conjunction parts strategy) = parts.all (admitsOn col r) := by
  have silent {p : Constraint} (unused : p.usedColumns.contains col ≠ true) :
      admitsOn col r p = true := by
    unfold admitsOn
    cases said : onColumn col p with
    | none => rfl
    | some d => exact absurd (ColumnSet.mem_idSet.1 (mem_uses_of_onColumn said)) unused
  rw [admitsOn, onColumn]
  split
  · rename_i outside
    refine (List.all_eq_true.2 fun p hp => silent fun inside => ?_).symm
    have used :=
      (mem_idSet_usedColumnsFrom .empty parts col.id).2
        (.inr ⟨p, hp, ColumnSet.mem_idSet.2 inside⟩)
    simp [ColumnSet.contains, ColumnSet.mem_idSet.1 used] at outside
  · simp only
    have regular : ∀ p ∈ projections col parts, ∀ b ∈ p.bound, b.Regular Γ := by
      rw [projections_eq_map]
      intro p hp b hb
      obtain ⟨c, hc, rfl⟩ := List.mem_map.1 hp
      exact ((normal c hc).of_onColumn hb).regular
    rw [Projection.all_conjoin hr fun p hp => regular p (mem_selected.1 hp).1, Bool.eq_iff_iff,
      List.all_eq_true, List.all_eq_true, projections_eq_map]
    constructor
    · intro h p hp
      by_cases used : p.usedColumns.contains col = true
      · exact h _ (mem_selected.2 ⟨List.mem_map.2 ⟨p, hp, rfl⟩, used⟩)
      · exact silent used
    · intro h p hp
      obtain ⟨c, hc, rfl⟩ := List.mem_map.1 (mem_selected.1 hp).1
      exact h c hc

/-- A constraint says of a column what its conjuncts say. -/
theorem all_admitsOn_conjuncts (normal : c.Normal Γ) (hr : r.HasTypes Γ) :
    c.conjuncts.all (admitsOn col r) = admitsOn col r c := by
  cases normal with
  | conjunction parts => exact (admitsOn_conjunction parts hr).symm
  | _ => simp [conjuncts]

/-- The intersection of intervals on one column says of it what both of them say. -/
theorem admitsOn_combine_intersect (hr : r.HasTypes Γ) (i j : Interval)
    (hi : (interval i).Normal Γ) (hj : (interval j).Normal Γ)
    (same : i.column.id = j.column.id) :
    admitsOn col r (interval (i.intersect j)) =
      (admitsOn col r (interval i) && admitsOn col r (interval j)) := by
  have both := admits_combine_intersect hr i j hi.regular hj.regular same
  simp only [admits_interval] at both
  have column : (i.intersect j).column == col ↔ i.column == col := Iff.rfl
  have column' : j.column == col ↔ i.column == col := by simp only [Column.beq_iff, same]
  simp only [admitsOn_interval, both, Bool.eq_iff_iff.2 column, Bool.eq_iff_iff.2 column']
  cases i.column == col <;> simp

/-- What constraints say together about a column is what each of them says. -/
theorem admitsOn_conjunction? (hcs : ∀ c ∈ cs, c.Normal Γ) (hr : r.HasTypes Γ) :
    (conjunction? cs strategy).all (admitsOn col r) = cs.all (admitsOn col r) := by
  obtain ⟨merged, hmerged, eq⟩ := conjunction?_eq cs strategy
  have flat : ∀ c ∈ cs.flatMap conjuncts, c.Normal Γ := fun c hc => by
    obtain ⟨d, hd, hc⟩ := List.mem_flatMap.1 hc
    exact (hcs d hd).conjuncts c hc
  have kept (i j : Interval) (hi : (interval i).Normal Γ) (hj : (interval j).Normal Γ)
      (same : i.column.id = j.column.id) : (interval (i.intersect j)).Normal Γ :=
    .of_regular (regular_combine_intersect i j hi.regular hj.regular same)
  have normal : ∀ c ∈ merged, c.Normal Γ := hmerged ▸ forall_mem_mergeIntervals flat kept
  have bounded : (merged.filter (!·.isUnbounded)).all (admitsOn col r) =
      merged.all (admitsOn col r) := by
    rw [List.all_filter, Bool.eq_iff_iff, List.all_eq_true, List.all_eq_true]
    refine forall₂_congr fun c hc => ?_
    cases full : c.isUnbounded with
    | true => simp [admitsOn_of_isUnbounded (normal c hc) hr full]
    | false => simp
  have parts : (cs.flatMap conjuncts).all (admitsOn col r) = cs.all (admitsOn col r) := by
    rw [List.all_flatMap, Bool.eq_iff_iff, List.all_eq_true, List.all_eq_true]
    exact forall₂_congr fun c hc => by rw [all_admitsOn_conjuncts (hcs c hc) hr]
  have normal' : ∀ c ∈ merged.filter (!·.isUnbounded), c.Normal Γ :=
    fun c hc => normal c (List.mem_filter.1 hc).1
  rw [← parts, ← all_mergeIntervals flat kept (admitsOn_combine_intersect hr),
    ← hmerged, ← bounded, eq]
  generalize merged.filter (!·.isUnbounded) = left at normal' ⊢
  match left with
  | [] => rfl
  | [c] => simp
  | c :: d :: ds => exact admitsOn_conjunction normal' hr

end Constraint

namespace ConstraintProperty

variable {p q : ConstraintProperty} {classes : List ColumnSet} {constraint : Option Constraint}

/-! ### What is known of the columns of a class -/

/-- Whether whatever is known of a column alone admits a value of it. -/
def Allows (known : Option Constraint) (col : Column) (v : Value) : Prop :=
  ∀ c ∈ known, ∀ d ∈ c.onColumn col, ∀ r : Row, r col.id = v → d.admits r = true

/-- For each other column of a class there is a copy of what is known of one of them. -/
theorem mem_copiesWithin {cls : ColumnSet} {s d : Column} (hs : s ∈ cls.toList)
    (hd : d ∈ cls.toList) (other : d.id ≠ s.id) {c : Constraint} {i : Interval}
    (on : i.column.id = s.id) (known : c.onColumn s = some (.interval i)) :
    Constraint.interval (.ofRanges d i.ranges i.includeNull) ∈ copiesWithin c cls := by
  have found : (ColumnMap.empty.insert s d).get? i.column = some d := by
    simp [ColumnMap.get?, ColumnMap.insert, ColumnMap.empty, ColumnMap.insertEntry, on]
  have renamed : (Constraint.interval i).rename (ColumnMap.empty.insert s d) false =
      .ok (.interval (.ofRanges d i.ranges i.includeNull)) := by
    simp only [Constraint.rename, Interval.rename, found]
    rfl
  refine List.mem_flatMap.2 ⟨s, hs, ?_⟩
  simp only [known]
  refine List.mem_filterMap.2 ⟨d, List.mem_filter.2 ⟨hd, ?_⟩, ?_⟩
  · rw [bne, Bool.not_eq_true', Bool.eq_false_iff, ne_eq, Column.beq_iff]
    exact other
  · rw [renamed]
    rfl

/-- The columns of a class have ids of their own. -/
theorem eq_of_id {cls : ColumnSet} {s d : Column} (hs : s ∈ cls.toList) (hd : d ∈ cls.toList)
    (same : s.id = d.id) : s = d := by
  have distinct : (cls.toList.map (·.id)).Nodup :=
    List.pairwise_map.2 (cls.sorted.imp Nat.ne_of_lt)
  exact List.inj_on_of_nodup_map distinct hs hd same

/-- Whatever a constraint says about one column of a class can be read off what has been
propagated to another one. -/
theorem allows_of_propagate {c : Constraint} (normal : c.Normal Γ)
    (types : ∀ cls ∈ classes, cls.Linked fun i j => Γ i = Γ j) {cls : ColumnSet}
    (hcls : cls ∈ classes) {s d : Column} (hs : s ∈ cls.toList) (hd : d ∈ cls.toList)
    {v : Value} (hv : v.HasType (Γ d.id)) (h : Allows (propagate classes (some c)) d v) :
    Allows (some c) s v := by
  rintro _ ⟨⟩ x said r rfl
  have follows := Constraint.onColumn_spec normal.regular normal.spread said
  obtain ⟨i, rfl, on⟩ := (normal.of_onColumn said).eq_interval follows.uses
  cases follows.regular with | interval regular => ?_
  have htype : Γ i.column.id = Γ d.id := by
    rw [on]
    exact types cls hcls _ (ColumnSet.mem_idSet_of_mem hs) _ (ColumnSet.mem_idSet_of_mem hd)
  rw [Constraint.admits_interval, on]
  -- a row of the value alone
  let row : Row := fun j => if j = d.id then r s.id else none
  have hrow : row.HasTypes Γ := fun j => by
    by_cases at_d : j = d.id
    · simpa [row, at_d] using hv
    · simp [row, at_d, Value.HasType]
  have each : ∀ e ∈ c :: classes.flatMap (copiesWithin c), e.admitsOn d row = true := by
    have holds : (propagate classes (some c)).all (Constraint.admitsOn d row) = true :=
      (Option.all_eq_true _ _).2 fun k hk => (Option.all_eq_true _ _).2 fun y hy =>
        h k hk y hy row (if_pos rfl)
    rw [all_propagate (Constraint.admitsOn_conjunction? (normal_propagated normal types) hrow)]
      at holds
    exact List.all_eq_true.1 holds
  rcases eq_or_ne s.id d.id with same | other
  · obtain rfl := eq_of_id hs hd same
    have admits := (Option.all_eq_true _ _).1 (each c (by simp)) _ said
    simpa [row, on] using admits
  · have copied := mem_copiesWithin hs hd other.symm on said
    have copy := each _ (List.mem_cons_of_mem _ (List.mem_flatMap.2 ⟨cls, hcls, copied⟩))
    have admits : (Interval.ofRanges d i.ranges i.includeNull).admits (row d.id) = true := by
      simpa [Constraint.admitsOn_interval, Interval.ofRanges] using copy
    rwa [show row d.id = r s.id from
      if_pos rfl, Interval.admits_ofRanges d regular (htype ▸ hv)] at admits

/-! ### Propagation -/

/-- Whether a property has a constraint in normal form and classes whose columns
are of one type. -/
structure Typed (Γ : Nat → DataType) (p : ConstraintProperty) : Prop where
  classes : ∀ cls ∈ p.classes, cls.Linked fun i j => Γ i = Γ j
  constraint : ∀ c ∈ p.constraint, c.Normal Γ

/-- A property that speaks of typed columns is typed. -/
theorem About.typed (h : p.About Γ S) : p.Typed Γ where
  classes cls hcls := (h.classes cls hcls).2
  constraint c hc := (h.constraint c hc).1

/-- A typed property speaks of some columns. -/
theorem Typed.about (h : p.Typed Γ) : ∃ S, p.About Γ S := by
  obtain ⟨S, within⟩ : ∃ S : Finset Nat, ∀ cls ∈ p.classes, cls.idSet ⊆ S := by
    induction p.classes with
    | nil => exact ⟨∅, by simp⟩
    | cons cls rest ih =>
      obtain ⟨S, within⟩ := ih
      refine ⟨cls.idSet ∪ S,
        List.forall_mem_cons.2 ⟨Finset.subset_union_left, fun m hm => ?_⟩⟩
      exact (within m hm).trans Finset.subset_union_right
  refine ⟨S ∪ p.constraint.elim ∅ Constraint.uses, fun cls hcls => ⟨?_, h.classes cls hcls⟩,
    fun c hc => ⟨h.constraint c hc, ?_⟩⟩
  · exact (within cls hcls).trans Finset.subset_union_left
  · rw [Option.mem_def.1 hc]
    exact Finset.subset_union_right

/-- Propagation is sound and complete. The classes of a property are apart, and each given
class of two columns is within one of them. The rows of a property are those in which the
columns of the given classes agree and that the given constraint admits; and whatever that
constraint says about a column, the property says about each column that is united with it in a
class. The rows of a conjunction of properties are those of both, the rows of either are among
those of a disjunction, and what is left of a property on some columns is true of its rows. -/
theorem propagation_exact (Γ : Nat → DataType) :
    (∀ (classes : List ColumnSet) (constraint : Option Constraint),
      (∀ cls ∈ classes, cls.Linked fun i j => Γ i = Γ j) → (∀ c ∈ constraint, c.Built Γ) →
      (ofClasses classes constraint).Typed Γ ∧
      (ofClasses classes constraint).classes.Pairwise Apart ∧
      (∀ cls ∈ classes, 1 < cls.idSet.card → ∃ u ∈ (ofClasses classes constraint).classes,
        cls.idSet ⊆ u.idSet) ∧
      (∀ r : Row, r.HasTypes Γ → ((ofClasses classes constraint).Holds r ↔
        (∀ cls ∈ classes, cls.Linked fun i j => (r i).same (r j) = true) ∧
          ∀ c ∈ constraint, c.admits r = true)) ∧
      ∀ cls ∈ (ofClasses classes constraint).classes, ∀ s ∈ cls.toList, ∀ d ∈ cls.toList,
        ∀ v : Value, v.HasType (Γ d.id) →
          Allows (ofClasses classes constraint).constraint d v →
          Allows constraint s v) ∧
    ∀ p q : ConstraintProperty, p.Typed Γ → q.Typed Γ →
      ((p.conjoin q).Typed Γ ∧ (p.disjoin q).Typed Γ ∧ ∀ cols, (p.restrict cols).Typed Γ) ∧
      ∀ r : Row, r.HasTypes Γ →
        ((p.conjoin q).Holds r ↔ p.Holds r ∧ q.Holds r) ∧
        (p.Holds r ∨ q.Holds r → (p.disjoin q).Holds r) ∧
        ∀ cols, p.Holds r → (p.restrict cols).Holds r := by
  refine ⟨fun classes constraint types built => ?_, fun p q hp hq => ?_⟩
  · have given : Typed Γ ⟨classes, constraint⟩ := ⟨types, fun c hc => (built c hc).normal⟩
    obtain ⟨S, about⟩ := given.about
    refine ⟨about.ofClasses.typed, apart_mergeClasses classes, fun cls hcls =>
      exists_mem_mergeClasses hcls, fun r hr => ?_, fun cls hcls s hs d hd v hv allows => ?_⟩
    · rw [holds_ofClasses about hr]
      exact ⟨fun h => ⟨h.classes, h.constraint⟩, fun h => ⟨h.1, h.2⟩⟩
    · cases constraint with
      | none => exact fun c hc => nomatch hc
      | some c =>
        have united := about.mergeClasses.typed.classes
        exact allows_of_propagate (given.constraint c rfl) united hcls hs hd hv allows
  · obtain ⟨S, hp⟩ := hp.about
    obtain ⟨T, hq⟩ := hq.about
    have hp := hp.mono (Finset.subset_union_left : S ⊆ S ∪ T)
    have hq := hq.mono (Finset.subset_union_right : T ⊆ S ∪ T)
    exact ⟨⟨(hp.conjoin hq).typed, (hp.disjoin hq).typed, fun cols =>
      (hp.restrict cols).typed⟩, fun r hr =>
        ⟨holds_conjoin hp hq hr, .disjoin hp hq hr, fun cols h => h.restrict hp hr cols⟩⟩

end ConstraintProperty

/-! ### An example -/

namespace Sample

def numbered (id : Nat) : Column := ⟨id, .integer .int64, -1, "x", .computed⟩

/-- A chain of two classes. -/
def chain : List ColumnSet :=
  [.ofList [numbered 0, numbered 1], .ofList [numbered 1, numbered 2]]

def allIntegers (_ : Nat) : DataType := .integer .int64

/-- The first column is below three. -/
def low : Constraint :=
  .interval (.ofRanges (numbered 0) [.below (.integer .int64 3) false] false)

end Sample

open Sample ConstraintProperty in
/-- Three columns in a chain of two classes, of which one is bounded: the bound
excludes 5 for all of them. -/
theorem propagation_exact_chain :
    (∀ cls ∈ chain, cls.Linked fun i j => allIntegers i = allIntegers j) ∧
    low.Built allIntegers ∧
    (∀ cls ∈ (ofClasses chain (some low)).classes, ∀ s ∈ cls.toList,
      ∀ d ∈ cls.toList, s.id = 0 →
      ¬Allows (ofClasses chain (some low)).constraint d (some (.integer .int64 5))) ∧
    (ofClasses chain (some low)).Typed allIntegers ∧
    ∀ r : Row, r.HasTypes allIntegers →
      (((ofClasses chain (some low)).conjoin {}).Holds r ↔
        (ofClasses chain (some low)).Holds r ∧ Holds {} r) := by
  have types : ∀ cls ∈ chain, cls.Linked fun i j => allIntegers i = allIntegers j :=
    fun _ _ _ _ _ _ => rfl
  have built : low.Built allIntegers := by
    refine .interval (numbered 0) false fun r hr => ?_
    obtain rfl := List.mem_singleton.1 hr
    constructor <;> simp [Range.below, allIntegers, Datum.HasType, Datum.type]
  have nothing : Typed allIntegers {} := ⟨by simp, by simp⟩
  obtain ⟨made, operations⟩ := propagation_exact allIntegers
  obtain ⟨typed, -, -, -, propagated⟩ :=
    made chain (some low) types fun c hc => Option.some.inj hc ▸ built
  refine ⟨types, built, fun cls hcls s hs d hd first allows => ?_, typed, fun r hr => ?_⟩
  · have five : Value.HasType (allIntegers d.id) (some (.integer .int64 5)) := by
      rintro _ ⟨⟩
      rfl
    have said : Constraint.onColumn s low = some low := by
      simp [Constraint.onColumn, low, Interval.ofRanges, numbered, BEq.beq, first]
    have admits :=
      propagated cls hcls s hs d hd _ five allows low rfl low said
        (fun _ => some (.integer .int64 5)) rfl
    exact absurd admits (by decide)
  · exact ((operations _ _ typed nothing).2 r hr).1

open Sample ConstraintProperty in
example : (ofClasses chain (some low)).classes.map (·.ids) = [[0, 1, 2]] := by decide +kernel

end QueryOptimizer
