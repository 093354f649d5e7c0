import Mathlib.Order.Comparable
import QueryOptimizer.Proofs.Derivation.Output
import QueryOptimizer.Proofs.Semantics.Unique
import QueryOptimizer.Proofs.Semantics.Value

/-!
# Derived keys

A collection of keys keeps the minimal ones of the sets that are added to it. A set
that contains a known key is passed over, and a new key drops the known ones that
contain it, so no key is above another, and every set that was ever added is still
above one of them (`Keys.Distills`).

The derived keys of an operator tell its rows apart when those of its inputs do. A join may
keep the keys of its left input alone when its right input has a key among the columns that are
equated with left ones. This takes equalities that hold of one value at most (`Domains.Exact`):
a floating-point number may be equal to two whole numbers, and a join by such an equality
breaks the keys that it keeps.

## Main results

* `Keys.ofList_keeps_minimal`: the keys of a list of sets, whatever the order of the list is.
* `JoinType.keys_spec`: the keys of joins.
* `JoinType.not_uniqueOn_of_mixed`: the keys of a join by columns of several types.
* `LogicalOperator.keyed_of_derive`: the keys of every operator.
-/

namespace QueryOptimizer

variable {K : Type} {D : Domains} {I : Interpretation} {db : Database}

/-! ### Collections of keys -/

namespace Keys

/-- Rows are unique on columns that contain a key. -/
theorem isUniqueOn_iff {k : Keys} {cols : ColumnSet} :
    k.isUniqueOn cols = true ↔ ∃ S ∈ k.sets, S.idSet ⊆ cols.idSet := by
  simp [isUniqueOn, ColumnSet.isSubset_iff]

/-- The keys that are left on some columns are those within them. -/
theorem mem_restrict {k : Keys} {cols S : ColumnSet} :
    S ∈ (k.restrict cols).sets ↔ S ∈ k.sets ∧ S.idSet ⊆ cols.idSet := by
  simp [restrict, ColumnSet.isSubset_iff]

/-- A renamed key has the new names of the columns of a key. -/
theorem mem_substitute {k : Keys} {map : ColumnMap} {S : ColumnSet}
    (h : S ∈ (k.substitute map).sets) :
    ∃ T ∈ k.sets, ∀ i, i ∈ S.idSet ↔ ∃ j ∈ T.idSet, map.idFor j = i := by
  obtain ⟨T, hT, rfl⟩ := List.mem_map.1 h
  refine ⟨T, hT, fun i => ?_⟩
  simp only [ColumnSet.idSet_ofList, Column.mem_idsOf, List.mem_map, ColumnSet.mem_idSet,
    ColumnSet.containsId_iff]
  constructor
  · rintro ⟨_, ⟨c, hc, rfl⟩, rfl⟩
    exact ⟨c.id, ⟨c, hc, rfl⟩, (ColumnMap.id_substitute map c).symm⟩
  · rintro ⟨_, ⟨c, hc, rfl⟩, rfl⟩
    exact ⟨_, ⟨c, hc, rfl⟩, ColumnMap.id_substitute map c⟩

/-- Whether neither of two sets contains the other. -/
def Incomparable (s t : ColumnSet) : Prop :=
  IncompRel (· ⊆ ·) s.idSet t.idSet

instance : Std.Symm Incomparable where
  symm _ _ := IncompRel.symm

/-- What a collection keeps of the sets that it has seen: some of them in their order, which
have columns and none of which contains another. Every set with columns that it has seen
contains one of them. -/
structure Distills (k : Keys) (seen : List ColumnSet) : Prop where
  sublist : k.sets.Sublist seen
  occupied : ∀ S ∈ k.sets, S.idSet.Nonempty
  apart : k.sets.Pairwise Incomparable
  covers : ∀ T ∈ seen, T.idSet.Nonempty → ∃ S ∈ k.sets, S.idSet ⊆ T.idSet

/-- Nothing is kept of nothing. -/
theorem distills_none : Distills none [] where
  sublist := .slnil
  occupied := by simp [none]
  apart := .nil
  covers := by simp

namespace Distills

variable {k : Keys} {key S T : ColumnSet} {seen : List ColumnSet}

/-- A set is passed over if it has no columns or contains a known key. -/
theorem skip (h : k.Distills seen)
    (known : key.idSet.Nonempty → ∃ S ∈ k.sets, S.idSet ⊆ key.idSet) :
    k.Distills (seen ++ [key]) where
  sublist := h.sublist.trans (List.sublist_append_left seen [key])
  occupied := h.occupied
  apart := h.apart
  covers T hT some := by
    rcases List.mem_append.1 hT with old | new
    · exact h.covers T old some
    · obtain rfl := List.mem_singleton.1 new
      exact known some

/-- A new key takes the place of the known ones that contain it. -/
theorem replace (h : k.Distills seen) (some : key.idSet.Nonempty)
    (fresh : ∀ S ∈ k.sets, ¬S.idSet ⊆ key.idSet) :
    Distills ⟨k.sets.filter (!key.isSubset ·) ++ [key]⟩ (seen ++ [key]) where
  sublist := (List.filter_sublist.trans h.sublist).append (.refl [key])
  occupied S hS := by
    rcases List.mem_append.1 hS with old | new
    · exact h.occupied S (List.mem_filter.1 old).1
    · exact List.mem_singleton.1 new ▸ some
  apart := by
    refine List.pairwise_append.2
      ⟨h.apart.filter _, List.pairwise_singleton .., fun S hS T hT => ?_⟩
    obtain ⟨old, kept⟩ := List.mem_filter.1 hS
    obtain rfl := List.mem_singleton.1 hT
    refine ⟨fresh S old, fun within => ?_⟩
    simp [ColumnSet.isSubset_iff.2 within] at kept
  covers T hT columns := by
    have newest : key ∈ k.sets.filter (!key.isSubset ·) ++ [key] := by simp
    rcases List.mem_append.1 hT with old | new
    · -- What contains a dropped key contains the one that it was dropped for.
      obtain ⟨S, hS, within⟩ := h.covers T old columns
      by_cases dropped : key.isSubset S
      · exact ⟨key, newest, (ColumnSet.isSubset_iff.1 dropped).trans within⟩
      · exact ⟨S, List.mem_append_left _ (List.mem_filter.2 ⟨hS, by simp [dropped]⟩), within⟩
    · obtain rfl := List.mem_singleton.1 new
      exact ⟨T, newest, subset_rfl⟩

/-- A set that is added is kept if it is minimal. -/
theorem add (h : k.Distills seen) (key : ColumnSet) :
    (k.add key).Distills (seen ++ [key]) := by
  unfold Keys.add
  split
  · rename_i needless
    refine h.skip fun some => ?_
    rw [ColumnSet.nonempty_idSet_iff.1 some, Bool.false_or, List.any_eq_true] at needless
    simpa only [ColumnSet.isSubset_iff] using needless
  · rename_i needed
    rw [Bool.or_eq_true, not_or, Bool.not_eq_true, List.any_eq_true] at needed
    obtain ⟨some, fresh⟩ := needed
    exact h.replace (ColumnSet.nonempty_idSet_iff.2 some) fun S hS within =>
      fresh ⟨S, hS, ColumnSet.isSubset_iff.2 within⟩

/-- Known keys that contain each other are one. -/
theorem eq_of_subset (h : k.Distills seen) (hS : S ∈ k.sets) (hT : T ∈ k.sets)
    (within : S.idSet ⊆ T.idSet) : S = T := by
  by_contra different
  exact (h.apart.forall hS hT different).1 within

/-- The sets that are kept are the minimal ones. -/
theorem exists_iff (h : k.Distills seen) (A : Finset Nat) :
    (∃ S ∈ k.sets, S.idSet = A) ↔
      ((∃ T ∈ seen, T.idSet = A) ∧ A.Nonempty) ∧ ∀ T ∈ seen, T.idSet.Nonempty →
        ¬T.idSet ⊂ A := by
  constructor
  · rintro ⟨S, hS, rfl⟩
    refine ⟨⟨⟨S, h.sublist.subset hS, rfl⟩, h.occupied S hS⟩, fun T hT some proper => ?_⟩
    obtain ⟨R, hR, within⟩ := h.covers T hT some
    obtain rfl := h.eq_of_subset hR hS (within.trans proper.subset)
    exact proper.not_subset within
  · rintro ⟨⟨⟨T, hT, rfl⟩, some⟩, minimal⟩
    obtain ⟨S, hS, within⟩ := h.covers T hT some
    refine ⟨S, hS, ?_⟩
    by_contra different
    exact minimal S (h.sublist.subset hS) (h.occupied S hS) (within.ssubset_of_ne different)

/-- No two known keys have the same columns. -/
theorem nodup (h : k.Distills seen) : (k.sets.map (·.idSet)).Nodup :=
  List.pairwise_map.2 (h.apart.imp fun apart => apart.ne)

/-- Nothing that was known to be unique is lost. -/
theorem isUniqueOn_iff (h : k.Distills seen) (cols : ColumnSet) : k.isUniqueOn cols = true ↔
    ∃ T ∈ seen, T.idSet.Nonempty ∧ T.idSet ⊆ cols.idSet := by
  rw [Keys.isUniqueOn_iff]
  constructor
  · rintro ⟨S, hS, within⟩
    exact ⟨S, h.sublist.subset hS, h.occupied S hS, within⟩
  · rintro ⟨T, hT, some, within⟩
    obtain ⟨S, hS, inside⟩ := h.covers T hT some
    exact ⟨S, hS, inside.trans within⟩

end Distills

/-- The sets of a list are distilled one after the other. -/
theorem distills_ofList (keys : List ColumnSet) : (ofList keys).Distills keys := by
  suffices run : ∀ (k : Keys) (seen : List ColumnSet), k.Distills seen →
      Distills (keys.foldl add k) (seen ++ keys) from run none [] distills_none
  induction keys with
  | nil => exact fun k seen h => (List.append_nil seen).symm ▸ h
  | cons key keys ih =>
    intro k seen h
    rw [List.append_cons]
    exact ih (k.add key) (seen ++ [key]) (h.add key)

/-- What is kept of a list is in it and is not empty. -/
theorem mem_ofList {keys : List ColumnSet} {S : ColumnSet} (h : S ∈ (ofList keys).sets) :
    S ∈ keys ∧ S.isEmpty = false :=
  ⟨(distills_ofList keys).sublist.subset h,
    ColumnSet.nonempty_idSet_iff.1 ((distills_ofList keys).occupied S h)⟩

/-- The keys of a list are the sets with columns of the list that contain no other such set.
They stand in their order, each of them once, none contains another, and another order of the
list gives the same ones. They tell just those columns to be unique that contain some set with
columns of the list. -/
theorem ofList_keeps_minimal (keys : List ColumnSet) :
    (∀ A : Finset Nat, (∃ S ∈ (ofList keys).sets, S.idSet = A) ↔
      ((∃ T ∈ keys, T.idSet = A) ∧ A.Nonempty) ∧ ∀ T ∈ keys, T.idSet.Nonempty → ¬T.idSet ⊂ A) ∧
    (ofList keys).sets.Sublist keys ∧
    ((ofList keys).sets.map (·.idSet)).Nodup ∧
    (ofList keys).sets.Pairwise Incomparable ∧
    (∀ keys', keys.Perm keys' →
      ((ofList keys).sets.map (·.idSet)).Perm ((ofList keys').sets.map (·.idSet))) ∧
    ∀ cols, (ofList keys).isUniqueOn cols = true ↔
      ∃ T ∈ keys, T.idSet.Nonempty ∧ T.idSet ⊆ cols.idSet := by
  have kept := distills_ofList keys
  refine ⟨kept.exists_iff, kept.sublist, kept.nodup, kept.apart, ?_, kept.isUniqueOn_iff⟩
  intro keys' reordered
  have kept' := distills_ofList keys'
  refine (List.perm_ext_iff_of_nodup kept.nodup kept'.nodup).2 fun A => ?_
  simp only [List.mem_map, kept.exists_iff, kept'.exists_iff, reordered.mem_iff]

end Keys

namespace Sample

/-- The set of some columns. -/
def keyOf (ids : List Nat) : ColumnSet :=
  .ofList (ids.map fun id => ⟨id, .integer .int64, -1, "k", .computed⟩)

/-- Sets some of which contain others, before or behind them, with one set twice and
one without columns. -/
def nestedKeys : List ColumnSet :=
  [[0, 1], [2], [0], [], [1, 2], [0], [1, 3]].map keyOf

end Sample

open Sample in
/-- Nested keys in two orders: the minimal ones are kept in both. -/
theorem Keys.ofList_keeps_minimal_nestedKeys :
    nestedKeys.Perm nestedKeys.reverse ∧
    ((ofList nestedKeys).sets.map (·.idSet)).Perm
      ((ofList nestedKeys.reverse).sets.map (·.idSet)) ∧
    (∃ S ∈ (ofList nestedKeys).sets, S.idSet = {1, 3}) ∧
    (ofList nestedKeys).isUniqueOn (keyOf [1, 2]) = true := by
  obtain ⟨minimal, -, -, -, reordered, unique⟩ := ofList_keeps_minimal nestedKeys
  have turned : nestedKeys.Perm nestedKeys.reverse := nestedKeys.reverse_perm.symm
  refine ⟨turned, reordered _ turned, (minimal _).2 ?_, (unique _).2 ?_⟩ <;> decide +kernel

/-! ### Stored tables -/

/-- Whether no two rows of a table have the same values in all positions of a key. -/
def Table.KeysDiffer (t : Table) (rows : Multiset Tuple) : Prop :=
  ∀ key ∈ t.keys, (rows.map fun row => key.map fun i => (row[i]?).getD none).Nodup

/-- The columns of a key are found by their positions. -/
theorem forall₂_of_mapM_getElem? {cols ks : List Column} {key : List Nat}
    (h : key.mapM (cols[·]?) = some ks) :
    List.Forall₂ (fun i c => cols[i]? = some c) key ks := by
  induction key generalizing ks with
  | nil =>
    obtain rfl : [] = ks := by simpa using h
    exact .nil
  | cons i key ih =>
    rw [List.mapM_cons] at h
    obtain ⟨c, hc, rest⟩ := Option.bind_eq_some_iff.1 h
    obtain ⟨cs, hcs, made⟩ := Option.bind_eq_some_iff.1 rest
    obtain rfl := Option.some.inj made
    exact .cons hc (ih hcs)

/-- The columns of a key of a table tell the rows of a scan apart. -/
theorem Table.keysOver_spec {t : Table} {rows : Multiset Tuple} (differ : t.KeysDiffer rows)
    {cols : List Column} (distinct : Column.Distinct cols) {S : ColumnSet}
    (h : S ∈ (t.keysOver cols).sets) (env : Row) :
    S.idSet ⊆ Column.idsOf cols ∧ Bag.UniqueOn (rows.map (env.assign cols)) S.idSet := by
  obtain ⟨key, hkey, found⟩ := List.mem_filterMap.1 (Keys.mem_ofList h).1
  obtain ⟨ks, hks, rfl⟩ := Option.map_eq_some_iff.1 found
  have places := forall₂_of_mapM_getElem? hks
  rw [ColumnSet.idSet_ofList]
  refine ⟨fun i hi => ?_, ?_⟩
  · obtain ⟨c, hc, rfl⟩ := Column.mem_idsOf.1 hi
    obtain ⟨i, -, place⟩ := exists_of_mem_right places hc
    exact Column.mem_idsOf.2 ⟨c, List.mem_of_getElem? place, rfl⟩
  · unfold Bag.UniqueOn
    rw [Multiset.map_map]
    have differ := differ key hkey
    refine differ.of_map.map_on fun u hu v hv same => ?_
    refine Multiset.inj_on_of_nodup_map differ u hu v hv (List.map_congr_left fun i hi => ?_)
    obtain ⟨c, hc, place⟩ := exists_of_mem_right places.flip hi
    have agree := Row.only_eq_only.1 same c.id (Column.mem_idsOf.2 ⟨c, hc, rfl⟩)
    rwa [Row.assign_of_getElem? distinct place, Row.assign_of_getElem? distinct place] at agree

/-! ### Equalities -/

/-- Whether a value of one of two columns equals at most one value of the other column. -/
structure Domains.Exact (D : Domains) (l r : Nat) : Prop where
  right : ∀ a ∈ D l, ∀ b ∈ D r, ∀ c ∈ D r, a.compare b = .eq → a.compare c = .eq → b = c
  left : ∀ a ∈ D l, ∀ b ∈ D l, ∀ c ∈ D r, a.compare c = .eq → b.compare c = .eq → a = b

/-- Columns of one type are equal for one value at most. -/
theorem Domains.exact_ofTypes {Γ : Nat → DataType} {l r : Nat} (same : Γ l = Γ r) :
    (Domains.ofTypes Γ).Exact l r := by
  have equal {a b : Datum} (ha : a.IsValue (Γ r)) (hb : b.IsValue (Γ r))
      (h : a.compare b = .eq) : a = b :=
    Datum.eq_of_compare_eq ha hb h
  constructor
  · intro a ha b hb c hc first second
    change a.IsValue (Γ l) at ha
    rw [same] at ha
    exact (equal ha hb first).symm.trans (equal ha hc second)
  · intro a ha b hb c hc first second
    change a.IsValue (Γ l) at ha
    change b.IsValue (Γ l) at hb
    rw [same] at ha hb
    exact (equal ha hc first).trans (equal hb hc second).symm

/-- Whether all columns that a predicate equates are equal for one value at most. -/
def Scalar.EqualsExactly (D : Domains) (e : Scalar) : Prop :=
  ∀ c ∈ e.conjuncts, ∀ l r, c.asColumnEquality? = some (l, r) → D.Exact l.id r.id

/-- An equality of a join predicate is a conjunct that equates a left with a right column. -/
theorem JoinPredicate.mem_equalities {e : Scalar} {left right : ColumnSet} {l r : Column}
    (h : (l, r) ∈ (ofPredicate e left right).equalities) :
    (l.id ∈ left.idSet ∧ r.id ∈ right.idSet) ∧ ∃ c ∈ e.conjuncts,
      c = .binary .eq (.column l) (.column r) ∨ c = .binary .eq (.column r) (.column l) := by
  obtain ⟨c, hc, found⟩ := List.mem_filterMap.1 h
  have hc := (List.mem_filter.1 hc).1
  unfold equality? at found
  split at found
  · rename_i a b shape
    have shape := Scalar.asColumnEquality?_eq_some.1 shape
    split at found
    · rename_i sides
      obtain ⟨rfl, rfl⟩ := Prod.mk.inj (Option.some.inj found)
      exact ⟨by simpa [ColumnSet.contains] using sides, c, hc, .inl shape⟩
    · split at found
      · rename_i sides
        obtain ⟨rfl, rfl⟩ := Prod.mk.inj (Option.some.inj found)
        exact ⟨by simpa [ColumnSet.contains] using sides, c, hc, .inr shape⟩
      · cases found
  · cases found

/-- Rows that agree on a left column of a predicate agree on the right column that it is
equated with, if the predicate is true in both. -/
theorem Scalar.EqualsExactly.agree {e : Scalar} (exact : e.EqualsExactly D)
    {left right : ColumnSet} {l r : Column}
    (h : (l, r) ∈ (JoinPredicate.ofPredicate e left right).equalities) {a b : Row}
    (ha : a.Within D) (hb : b.Within D) (trueA : e.test I a = some true)
    (trueB : e.test I b = some true) (same : a l.id = b l.id) : a r.id = b r.id := by
  obtain ⟨-, c, hc, shape⟩ := JoinPredicate.mem_equalities h
  have trueA := (Scalar.test_conjuncts I a e).1 trueA c hc
  have trueB := (Scalar.test_conjuncts I b e).1 trueB c hc
  rcases shape with rfl | rfl
  · have exact := exact _ hc l r rfl
    have sameA : (a l.id).same (a r.id) = true := I.same_of_compare_eq trueA
    have sameB : (b l.id).same (b r.id) = true := I.same_of_compare_eq trueB
    rw [← same] at sameB
    cases hx : a l.id <;> cases hy : a r.id <;> cases hz : b r.id <;>
      simp only [hx, hy, hz, Value.same, Bool.false_eq_true, beq_iff_eq] at sameA sameB
    · rfl
    · exact congrArg some (exact.right _ (ha _ _ hx) _ (ha _ _ hy) _ (hb _ _ hz) sameA sameB)
  · have exact := exact _ hc r l rfl
    have sameA : (a r.id).same (a l.id) = true := I.same_of_compare_eq trueA
    have sameB : (b r.id).same (b l.id) = true := I.same_of_compare_eq trueB
    rw [← same] at sameB
    cases hx : a l.id <;> cases hy : a r.id <;> cases hz : b r.id <;>
      simp only [hx, hy, hz, Value.same, Bool.false_eq_true, beq_iff_eq] at sameA sameB
    · rfl
    · exact congrArg some (exact.left _ (ha _ _ hy) _ (hb _ _ hz) _ (ha _ _ hx) sameA sameB)

/-! ### Joins -/

/-- The keys of a join are those of its left input, if only left rows are kept or if a
key of its right input consists of columns that are equated with left ones; otherwise
they are put together. -/
theorem JoinType.keys_eq_ok {type : JoinType} {e : Scalar} {a b : Relation K} {keys : Keys}
    (made : type.keys e [a, b] = .ok keys) :
    (type.isLeftOnly = true ∨ ∃ S ∈ b.property.keys.sets, ∀ i ∈ S.idSet, ∃ l r, r.id = i ∧
        (l, r) ∈
          (JoinPredicate.ofPredicate e a.property.output b.property.output).equalities) ∧
      keys = a.property.keys ∨
    type.isLeftOnly = false ∧ ∀ S ∈ keys.sets, ∃ L ∈ a.property.keys.sets,
      ∃ R ∈ b.property.keys.sets,
      S.idSet = L.idSet ∪ R.idSet := by
  simp only [JoinType.keys, Inputs.get_zero, Inputs.get_one, bind, Except.bind] at made
  split at made
  · rename_i only
    exact .inl ⟨.inl only, (Except.ok.inj made).symm⟩
  · rename_i both
    split at made
    · rename_i unique
      obtain ⟨S, hS, within⟩ := Keys.isUniqueOn_iff.1 unique
      refine .inl ⟨.inr ⟨S, hS, fun i hi => ?_⟩, (Except.ok.inj made).symm⟩
      obtain ⟨r, ⟨l, mem⟩, same⟩ := by simpa using within hi
      exact ⟨l, r, same, mem⟩
    · obtain rfl := Except.ok.inj made
      refine .inr ⟨Bool.eq_false_iff.2 both, fun S hS => ?_⟩
      obtain ⟨L, hL, hS⟩ := List.mem_flatMap.1 (Keys.mem_ofList hS).1
      obtain ⟨R, hR, rfl⟩ := List.mem_map.1 hS
      exact ⟨L, hL, R, hR, ColumnSet.idSet_union L R⟩

/-- The pairs of one left row that pass a predicate are at most one, if columns of the right
rows that are equated with left ones tell the right rows apart. -/
theorem card_hits_le_one {e : Scalar} (exact : e.EqualsExactly D) {left right : ColumnSet}
    (apart : Disjoint left.idSet right.idSet) {S : Finset Nat}
    (equated : ∀ i ∈ S, ∃ l r, r.id = i ∧
      (l, r) ∈ (JoinPredicate.ofPredicate e left right).equalities) {l : Row} (hl : l.Within D)
    {rs : Bag} (hrs : ∀ r ∈ rs, r.Within D) (unique : rs.UniqueOn S) :
    Multiset.card ((rs.map (l.beside right.idSet)).filter fun r => e.test I r = some true) ≤
      1 := by
  have within : S ⊆ right.idSet := fun i hi => by
    obtain ⟨l, r, rfl, mem⟩ := equated i hi
    exact (JoinPredicate.mem_equalities mem).1.2
  have hits := (JoinType.uniqueOn_beside (l := l) unique within).of_le
    (Multiset.filter_le (fun r => e.test I r = some true) _)
  refine hits.card_le_one fun x hx y hy i hi => ?_
  obtain ⟨c, d, rfl, mem⟩ := equated i hi
  obtain ⟨hx, trueX⟩ := Multiset.mem_filter.1 hx
  obtain ⟨hy, trueY⟩ := Multiset.mem_filter.1 hy
  obtain ⟨u, hu, rfl⟩ := Multiset.mem_map.1 hx
  obtain ⟨v, hv, rfl⟩ := Multiset.mem_map.1 hy
  have outside : c.id ∉ right.idSet :=
    Finset.disjoint_left.1 apart (JoinPredicate.mem_equalities mem).1.1
  refine exact.agree mem (hl.beside (hrs u hu) _) (hl.beside (hrs v hv) _) trueX trueY ?_
  rw [Row.beside_of_notMem outside, Row.beside_of_notMem outside]

/-- The keys of a join tell its rows apart. The rows are made for pairs of a left row and the
right rows that belong to it; in an apply these depend on the left row. -/
theorem JoinType.keys_spec {type : JoinType} {e : Scalar} (exact : e.EqualsExactly D)
    {a b : Relation K} {keys : Keys} (made : type.keys e [a, b] = .ok keys)
    (apart : Disjoint a.property.output.idSet b.property.output.idSet)
    (leftWithin : ∀ S ∈ a.property.keys.sets, S.idSet ⊆ a.property.output.idSet)
    (rightWithin : ∀ S ∈ b.property.keys.sets, S.idSet ⊆ b.property.output.idSet) :
    ∀ S ∈ keys.sets, S.idSet ⊆ type.columns a.property.output.idSet b.property.output.idSet ∧
      ∀ pairs : Multiset (Row × Bag), (∀ x ∈ pairs, x.1.Within D ∧ ∀ r ∈ x.2, r.Within D) →
        (∀ S ∈ a.property.keys.sets, Bag.UniqueOn (pairs.map Prod.fst) S.idSet) →
        (∀ x ∈ pairs, ∀ S ∈ b.property.keys.sets, x.2.UniqueOn S.idSet) →
        Bag.UniqueOn
          (pairs.bind fun x => type.rows b.property.output.idSet (e.test I ·) x.1 x.2)
            S.idSet := by
  have kept {S : ColumnSet} (hS : S ∈ a.property.keys.sets) (x : Row × Bag) (r : Row)
      (hr : r ∈ type.rows b.property.output.idSet (e.test I ·) x.1 x.2) (i : Nat)
      (hi : i ∈ S.idSet) :
      r i = x.1 i :=
    rows_apply_of_notMem hr (Finset.disjoint_left.1 apart (leftWithin S hS hi))
  intro S hS
  rcases keys_eq_ok made with ⟨once, rfl⟩ | ⟨both, parts⟩
  · have within : S.idSet ⊆ type.columns a.property.output.idSet b.property.output.idSet := by
      unfold columns
      split
      · exact leftWithin S hS
      · exact (leftWithin S hS).trans Finset.subset_union_left
    refine ⟨within, fun pairs domains left right => ?_⟩
    refine uniqueOn_bind (left S hS) subset_rfl (fun x _ r hr => kept hS x r hr)
      fun x hx => .of_card_le_one (card_rows_le_one (once.imp_right ?_)) _
    rintro ⟨R, hR, equated⟩
    exact card_hits_le_one exact apart equated (domains x hx).1 (domains x hx).2
      (right x hx R hR)
  · obtain ⟨L, hL, R, hR, same⟩ := parts S hS
    rw [same]
    refine ⟨?_, fun pairs _ left right => ?_⟩
    · simpa [columns, both] using Finset.union_subset_union (leftWithin L hL)
        (rightWithin R hR)
    · exact uniqueOn_bind (left L hL) Finset.subset_union_left (fun x _ r hr => kept hL x r hr)
        fun x hx =>
          (uniqueOn_rows (right x hx R hR) (rightWithin R hR)).mono Finset.subset_union_right

namespace Sample

/-- A floating-point column. -/
def reading : Column := ⟨0, .float64, -1, "number", .table 1 0 false 8⟩

/-- A column of whole numbers. -/
def item : Column := ⟨1, .integer .int64, -1, "id", .table 2 0 false 8⟩

/-- A row with `2 ^ 53` as a floating-point number, and a whole number beside it. -/
def measured (n : Int) : Row
  | 0 => some (.float64 0x4340000000000000)
  | 1 => some (.integer .int64 n)
  | _ => none

end Sample

open Sample in
/-- Columns of several types may be equal for several values, and then the keys that a join
keeps do not tell its rows apart: the floating-point number `2 ^ 53` is equal to `2 ^ 53`
and to `2 ^ 53 + 1`. -/
theorem JoinType.not_uniqueOn_of_mixed {a b : Relation K}
    (left : a.property.output = .ofList [reading]) (right : b.property.output = .ofList [item])
    (key : b.property.keys = .ofList [.ofList [item]]) :
    JoinType.inner.keys (.binary .eq (.column reading) (.column item)) [a, b] =
      .ok a.property.keys ∧
      Bag.UniqueOn {measured 9007199254740992, measured 9007199254740993} {item.id} ∧
      ¬Bag.UniqueOn (JoinType.inner.rows {item.id}
        (Scalar.test .strict · (.binary .eq (.column reading) (.column item)))
        (measured 0) {measured 9007199254740992, measured 9007199254740993}) {reading.id} := by
  have differ : (some (.integer .int64 9007199254740992) : Value) ≠
      some (.integer .int64 9007199254740993) := by decide
  refine ⟨?_, ?_, ?_⟩
  · simp only [JoinType.keys, Inputs.get_zero, Inputs.get_one, bind, Except.bind,
      left, right, key]
    rfl
  · simp only [Bag.UniqueOn, Multiset.insert_eq_cons, Multiset.map_cons,
      Multiset.map_singleton, Multiset.nodup_cons, Multiset.mem_singleton,
      Multiset.nodup_singleton, and_true]
    exact fun same => differ (Row.only_eq_only.1 same _ (Finset.mem_singleton_self _))
  · have passes (n : Int) (h : n = 9007199254740992 ∨ n = 9007199254740993) :
        Scalar.test .strict ((measured 0).beside {item.id} (measured n))
          (.binary .eq (.column reading) (.column item)) = some true := by
      rcases h with rfl | rfl <;> decide +kernel
    simp only [JoinType.rows, Bag.UniqueOn, Multiset.insert_eq_cons, Multiset.map_cons,
      Multiset.map_singleton]
    rw [Multiset.filter_eq_self.2]
    · simp only [Multiset.map_cons, Multiset.map_singleton, Multiset.nodup_cons,
        Multiset.mem_singleton, Multiset.nodup_singleton, and_true, not_not]
      refine Row.only_eq_only.2 fun i hi => ?_
      rw [Finset.mem_singleton.1 hi]
      rfl
    · simp only [Multiset.mem_cons, Multiset.mem_singleton]
      rintro r (rfl | rfl)
      · exact passes _ (.inl rfl)
      · exact passes _ (.inr rfl)

/-! ### Groups and set operations -/

/-- The keys of a grouping tell its groups apart. -/
theorem Grouping.uniqueOn_rows {g : Grouping} (some : g.keys ≠ [])
    (apart : Disjoint (Column.idsOf g.keys) (Column.idsOf (Definition.columns g.aggregates)))
    (env : Row) (rows : Bag) : (g.rows I env rows).UniqueOn (Column.idsOf g.keys) := by
  unfold Bag.UniqueOn Grouping.rows
  rw [Multiset.map_map]
  have distinct : (g.keyTuples rows).Nodup := by
    rw [keyTuples, if_neg (by simpa using some)]
    exact Multiset.nodup_dedup _
  refine distinct.map_on fun t ht u hu same => ?_
  obtain ⟨r, -, rfl, first⟩ := exists_of_mem_keyTuples some apart ht I env
  obtain ⟨s, -, rfl, second⟩ := exists_of_mem_keyTuples some apart hu I env
  refine List.map_congr_left fun c hc => ?_
  have hi : c.id ∈ Column.idsOf g.keys := Column.mem_idsOf.2 ⟨c, hc, rfl⟩
  rw [← first _ hi, ← second _ hi]
  exact Row.only_eq_only.1 same _ hi

/-- Different tuples are different rows of the columns that they are assigned to. -/
theorem uniqueOn_assign {cols : List Column} (distinct : Column.Distinct cols)
    {tuples : Multiset Tuple} (lengths : ∀ t ∈ tuples, t.length = cols.length)
    (different : tuples.Nodup) (env : Row) :
    Bag.UniqueOn (tuples.map (env.assign cols)) (Column.idsOf cols) := by
  unfold Bag.UniqueOn
  rw [Multiset.map_map]
  refine different.map_on fun t ht u hu same => ?_
  rw [← Row.tuple_assign env distinct (lengths t ht),
    ← Row.tuple_assign env distinct (lengths u hu)]
  exact List.map_congr_left fun c hc =>
    Row.only_eq_only.1 same c.id (Column.mem_idsOf.2 ⟨c, hc, rfl⟩)

/-! ### Shared results -/

/-- The keys of a shared result tell its rows apart under other columns, too, if
these are new. -/
theorem CteConsumer.uniqueOn_rows {c : CteConsumer} (distinct : Column.Distinct c.cols)
    {S T : ColumnSet} (renamed : ∀ i, i ∈ T.idSet ↔ ∃ j ∈ S.idSet, c.newNames.idFor j = i)
    (within : T.idSet ⊆ Column.idsOf c.cols) (new : Disjoint S.idSet (Column.idsOf c.cols))
    {rows : Bag} (unique : rows.UniqueOn S.idSet) (env : Row) :
    Bag.UniqueOn (rows.map fun r => env.assign c.cols (r.tuple c.producerCols)) T.idSet := by
  -- A column of the key stands under its new name, or it would be new itself.
  have value {j : Nat} (hj : j ∈ S.idSet) (r : Row) :
      env.assign c.cols (r.tuple c.producerCols) (c.newNames.idFor j) = r j := by
    have place : c.newNames.idFor j ∈ Column.idsOf c.cols :=
      within ((renamed _).2 ⟨j, hj, rfl⟩)
    unfold ColumnMap.idFor newNames at place ⊢
    rw [ColumnMap.lookup_ofLists] at place ⊢
    cases found : (c.producerCols.zip c.cols).reverse.find? fun p => p.1.id == j with
    | none =>
      rw [found] at place
      exact absurd place (Finset.disjoint_left.1 new hj)
    | some p =>
      have pair := List.mem_reverse.1 (List.mem_of_find?_eq_some found)
      obtain rfl : p.1.id = j := by simpa using List.find?_some found
      exact Row.assign_of_mem_zip distinct pair env r
  refine unique.map fun r _ s _ agree j hj => ?_
  rw [← value hj r, ← value hj s]
  exact agree _ ((renamed _).2 ⟨j, hj, rfl⟩)

/-! ### Operators -/

/-- Whether the rows of a meaning stay within the domains and the derived keys
tell them apart. -/
structure Relation.Keyed (D : Domains) (r : Relation K) (m : Meaning) : Prop where
  produces : r.Produces m
  within : m.Within D
  keys_subset : ∀ S ∈ r.property.keys.sets, S.idSet ⊆ m.output
  unique : ∀ env : Row, env.Within D → ∀ bag ∈ m.results env, ∀ S ∈ r.property.keys.sets,
    bag.UniqueOn S.idSet

/-- Whether the keys that are known of a shared result tell its rows apart. -/
structure CteInfo.Keyed (db : Database) (D : Domains) (producers : Set CteProducer) (id : Nat)
    (info : CteInfo K) : Prop where
  producer : ∃ p ∈ producers, p.id = id ∧ p.cols = info.cols
  keys_subset : ∀ S ∈ info.property.keys.sets, S.idSet ⊆ Column.idsOf info.cols
  unique : ∀ env : Row, env.Within D → ∀ S ∈ info.property.keys.sets,
    (db.shared id env).UniqueOn S.idSet

/-- Whether the stored rows that an operator reads differ in the keys of their table, and the
columns under which it reads a shared result are new. -/
def LogicalOperator.RespectsKeys (db : Database) (producers : Set CteProducer) :
    LogicalOperator → Prop
  | get s => s.table.KeysDiffer (db.table s.table.id)
  | dynamicGet s => s.table.KeysDiffer (db.table s.table.id)
  | cteConsumer c => ∀ p ∈ producers, p.id = c.id →
      Disjoint (Column.idsOf p.cols) (Column.idsOf c.cols)
  | _ => True

/-- Whether the equalities by which an operator matches rows hold of one value at most. -/
def LogicalOperator.EqualsExactly (D : Domains) : LogicalOperator → Prop
  | join j => j.predicate.EqualsExactly D
  | apply a => a.predicate.EqualsExactly D
  | _ => True

namespace LogicalOperator

variable [Quantity K] {op : LogicalOperator} {rels : Inputs K} {ms : List Meaning}
  {producers : Set CteProducer} {ctes : CteTable K}

omit [Quantity K] in
/-- The keys of a join, when its inputs have keys. -/
theorem keys_spec_of_sides {type : JoinType} {e : Scalar} (exact : e.EqualsExactly D)
    {a b : Relation K} {l r : Meaning} {keys : Keys} (made : type.keys e [a, b] = .ok keys)
    (ha : a.Keyed D l) (hb : b.Keyed D r) (apart : Disjoint l.output r.output) :
    ∀ S ∈ keys.sets, S.idSet ⊆ type.columns l.output r.output ∧
      ∀ pairs : Multiset (Row × Bag), (∀ x ∈ pairs, x.1.Within D ∧ ∀ r ∈ x.2, r.Within D) →
        (∀ S ∈ a.property.keys.sets, Bag.UniqueOn (pairs.map Prod.fst) S.idSet) →
        (∀ x ∈ pairs, ∀ S ∈ b.property.keys.sets, x.2.UniqueOn S.idSet) →
        Bag.UniqueOn
          (pairs.bind fun x => type.rows r.output (e.test I ·) x.1 x.2) S.idSet := by
  have spec := JoinType.keys_spec (I := I) exact made
  rw [ha.produces, hb.produces] at spec
  exact spec apart ha.keys_subset hb.keys_subset

omit [Quantity K] in
/-- The derived keys tell the rows apart, when those of the inputs do. -/
theorem keys_spec (fits : op.Fits Meaning.toScope ms) (sound : ∀ m ∈ ms, m.Sound)
    (respects : op.RespectsKeys db producers) (exact : op.EqualsExactly D)
    (h : List.Forall₂ (Relation.Keyed D) rels ms)
    (shared : ∀ entry ∈ ctes, CteInfo.Keyed db D producers entry.1 entry.2) {keys : Keys}
    (made : op.keys ctes rels = .ok keys) :
    ∀ S ∈ keys.sets, S.idSet ⊆ (op.meaning I db ms).output ∧
      ∀ env : Row, env.Within D → ∀ bag ∈ (op.meaning I db ms).results env,
        bag.UniqueOn S.idSet := by
  intro S hS
  cases fits with
  | get distinct | dynamicGet distinct =>
    obtain rfl := Except.ok.inj made
    obtain ⟨within, -⟩ := Table.keysOver_spec respects distinct hS fun _ => none
    refine ⟨within, fun env _ bag hbag => ?_⟩
    obtain rfl := hbag
    exact (Table.keysOver_spec respects distinct hS env).2
  | values =>
    obtain rfl := Except.ok.inj made
    cases hS
  | @select p m =>
    obtain ⟨a, rfl, ha⟩ := Inputs.of_single h
    obtain rfl := Except.ok.inj made
    refine ⟨ha.keys_subset S hS, fun env henv bag hbag => ?_⟩
    obtain ⟨b, hb, rfl⟩ := hbag
    exact (ha.unique env henv b hb S hS).of_le (Multiset.filter_le _ _)
  | @limit l m =>
    obtain ⟨a, rfl, ha⟩ := Inputs.of_single h
    obtain rfl := Except.ok.inj made
    refine ⟨ha.keys_subset S hS, fun env henv bag hbag => ?_⟩
    obtain ⟨b, hb, kept⟩ := hbag
    exact (ha.unique env henv b hb S hS).of_le kept.kept_le
  | @project ds m distinct fresh =>
    obtain ⟨a, rfl, ha⟩ := Inputs.of_single h
    obtain rfl := Except.ok.inj made
    have within : S.idSet ⊆ m.output := ha.keys_subset S hS
    refine ⟨within.trans Finset.subset_union_left, fun env henv bag hbag => ?_⟩
    obtain ⟨b, hb, rfl⟩ := hbag
    refine (ha.unique env henv b hb S hS).map fun r _ s _ agree i hi => ?_
    have old : i ∉ Column.idsOf (Definition.columns ds) :=
      Finset.disjoint_right.1 fresh ((sound m (by simp)).output_subset (within hi))
    simpa only [Row.assign_of_notMem _ old] using agree i hi
  | @groupBy g m keys distinct fresh =>
    obtain rfl := Except.ok.inj made
    have apart :
        Disjoint (Column.idsOf g.keys) (Column.idsOf (Definition.columns g.aggregates)) :=
      (fresh.mono_right (keys.trans (sound m (by simp)).output_subset)).symm
    obtain ⟨hS, nonempty⟩ := Keys.mem_ofList hS
    obtain rfl := List.mem_singleton.1 hS
    have some : g.keys ≠ [] := fun none => by
      rw [none] at nonempty
      cases nonempty
    rw [ColumnSet.idSet_ofList]
    refine ⟨?_, fun env _ bag hbag => ?_⟩
    · change Column.idsOf g.keys ⊆ Column.idsOf (g.keys ++ Definition.columns g.aggregates)
      rw [Column.idsOf_append]
      exact Finset.subset_union_left
    · obtain ⟨b, -, rfl⟩ := hbag
      exact Grouping.uniqueOn_rows some apart env b
  | @join j l r apart =>
    obtain ⟨a, b, rfl, ha, hb⟩ := Inputs.of_pair h
    obtain ⟨within, unique⟩ :=
      keys_spec_of_sides exact made ha hb (sides_apart apart sound) S hS
    refine ⟨within, fun env henv bag hbag => ?_⟩
    obtain ⟨matched, hls, hrs, rfl⟩ := exists_matched_of_mem_results hbag
    refine unique matched (fun x hx => ⟨?_, ?_⟩) (fun L hL => ?_) fun x hx R hR => ?_
    · exact ha.within env henv _ hls x.1 (Multiset.mem_map_of_mem Prod.fst hx)
    · exact hb.within env henv x.2 (hrs x hx)
    · exact ha.unique env henv _ hls L hL
    · exact hb.unique env henv x.2 (hrs x hx) R hR
  | @apply a l r apart =>
    obtain ⟨left, right, rfl, hl, hr⟩ := Inputs.of_pair h
    obtain ⟨within, unique⟩ :=
      keys_spec_of_sides exact made hl hr (sides_apart apart sound) S hS
    refine ⟨within, fun env henv bag hbag => ?_⟩
    obtain ⟨matched, hls, hrs, rfl⟩ := hbag
    have leftRow {x : Row × Bag} (hx : x ∈ matched) : x.1.Within D :=
      hl.within env henv _ hls x.1 (Multiset.mem_map_of_mem Prod.fst hx)
    have bound {x : Row × Bag} (hx : x ∈ matched) :
        (env.assign a.outer (x.1.tuple a.outer)).Within D :=
      henv.assign ((leftRow hx).tuple a.outer)
    refine unique matched (fun x hx => ⟨leftRow hx, ?_⟩) (fun L hL => ?_) fun x hx R hR => ?_
    · exact hr.within _ (bound hx) x.2 (hrs x hx)
    · exact hl.unique env henv _ hls L hL
    · exact hr.unique _ (bound hx) x.2 (hrs x hx) R hR
  | @setOp s ms someColumn distinct someInput apart aligned fresh =>
    have fits : (setOp s).Fits Meaning.toScope ms :=
      .setOp someColumn distinct someInput apart aligned fresh
    obtain rfl := Except.ok.inj made
    split at hS
    · rename_i distinctRows
      obtain rfl := List.mem_singleton.1 (Keys.mem_ofList hS).1
      rw [ColumnSet.idSet_ofList]
      refine ⟨subset_rfl, fun env _ bag hbag => ?_⟩
      obtain ⟨bags, -, rfl⟩ := hbag
      refine uniqueOn_assign distinct (fun t ht => ?_)
        (SetOpKind.nodup_tuples distinctRows _) env
      obtain ⟨-, -, cols, hcols, r, -, rfl⟩ := SetOpKind.exists_row_of_mem_tuples ht
      exact fits.length_tuple hcols r
    · cases hS
  | @cteAnchor id producer body =>
    obtain ⟨a, b, rfl, -, hb⟩ := Inputs.of_pair h
    obtain rfl := Except.ok.inj made
    exact ⟨hb.keys_subset S hS, fun env henv bag hbag => hb.unique env henv bag hbag S hS⟩
  | @cteProducer p m cols =>
    obtain ⟨a, rfl, ha⟩ := Inputs.of_single h
    obtain rfl := Except.ok.inj made
    obtain ⟨hS, within⟩ := Keys.mem_restrict.1 hS
    rw [ColumnSet.idSet_ofList] at within
    refine ⟨within, fun env henv bag hbag => ?_⟩
    obtain ⟨b, hb, rfl⟩ := hbag
    refine (ha.unique env henv b hb S hS).map fun r _ s _ agree i hi => ?_
    simpa only [Row.assign_tuple _ _ (within hi)] using agree i hi
  | @cteConsumer c distinct length =>
    simp only [LogicalOperator.keys] at made
    split at made
    · rename_i info found
      obtain rfl := Except.ok.inj made
      have known : CteInfo.Keyed db D producers c.id info :=
        shared _ (CteTable.mem_of_find? found)
      obtain ⟨p, hp, same, cols⟩ := known.producer
      obtain ⟨hS, within⟩ := Keys.mem_restrict.1 hS
      obtain ⟨T, hT, renamed⟩ := Keys.mem_substitute hS
      rw [ColumnSet.idSet_ofList] at within
      refine ⟨within, fun env henv bag hbag => ?_⟩
      obtain rfl := hbag
      have new : Disjoint T.idSet (Column.idsOf c.cols) :=
        (respects p hp same).mono_left (cols ▸ known.keys_subset T hT)
      exact CteConsumer.uniqueOn_rows distinct renamed within new
        (known.unique env henv T hT) env
    · obtain rfl := Except.ok.inj made
      cases hS

/-- What is derived about an operator tells its rows apart, when what is derived
about its inputs does. -/
theorem keyed_of_derive (fits : op.Fits Meaning.toScope ms) (sound : ∀ m ∈ ms, m.Sound)
    (stays : op.StaysWithin I db D) (exact : op.EqualsExactly D)
    (respects : op.RespectsKeys db producers) (h : List.Forall₂ (Relation.Keyed D) rels ms)
    (shared : ∀ entry ∈ ctes, CteInfo.Keyed db D producers entry.1 entry.2)
    {env : Environment K} {r : Relation K} (derived : op.Derived env ctes rels r) :
    r.Keyed D (op.meaning I db ms) where
  produces := produces_of_derive fits (h.imp fun _ _ => Relation.Keyed.produces) derived I db
  within := within_meaning fits stays fun m hm => by
    obtain ⟨r, -, keyed⟩ := exists_of_mem_right h hm
    exact keyed.within
  keys_subset S hS := (keys_spec fits sound respects exact h shared derived.keys S hS).1
  unique env henv bag hbag S hS :=
    (keys_spec fits sound respects exact h shared derived.keys S hS).2 env henv bag hbag

end LogicalOperator

end QueryOptimizer
