import Mathlib.Data.List.Nodup
import Mathlib.Logic.Relation
import QueryOptimizer.Proofs.Constraint.Propagation

/-!
# United classes are connected components

Two sets of a list are next to each other if they share a column. Uniting classes goes
through the list once and never splits what it has united, so what it leaves are the
connected components: a united class is made of sets that are connected
(`ConstraintProperty.Joined`), and every set that is connected to one of them is within it,
because no two united classes share a column.

## Main results

* `ConstraintProperty.joined_of_mem`: united classes are made of connected sets.
* `ConstraintProperty.idSet_of_connected`: they are closed under connections.
* `ConstraintProperty.mergeClasses_components`: they are the components of at least two
  columns, each of them once.
-/

namespace QueryOptimizer

namespace ConstraintProperty

variable {classes : List ColumnSet} {a b c d u v : ColumnSet}

/-! ### Connected sets -/

/-- Whether two sets of a list share a column. -/
structure Shares (classes : List ColumnSet) (a b : ColumnSet) : Prop where
  left : a ∈ classes
  right : b ∈ classes
  shared : ¬Disjoint a.idSet b.idSet

/-- Whether sets of a list, each of which shares a column with the one before, lead from
one set to another. -/
def Connected (classes : List ColumnSet) : ColumnSet → ColumnSet → Prop :=
  Relation.ReflTransGen (Shares classes)

/-- The columns of all sets of a list that are connected to one of them. -/
def component (classes : List ColumnSet) (c : ColumnSet) : Set Nat :=
  {i | ∃ d ∈ classes, Connected classes c d ∧ i ∈ d.idSet}

instance : Std.Symm (Shares classes) where
  symm _ _ h := ⟨h.right, h.left, fun apart => h.shared apart.symm⟩

instance : Std.Symm Apart where
  symm _ _ := Apart.symm

/-- Being connected is symmetric. -/
theorem Connected.symm (h : Connected classes a b) : Connected classes b a :=
  Relation.ReflTransGen.stdSymm.symm a b h

/-- Being connected is transitive. -/
theorem Connected.trans (h : Connected classes a b) (h' : Connected classes b c) :
    Connected classes a c :=
  Relation.ReflTransGen.trans h h'

/-- Sets with a column in common are connected. -/
theorem connected_of_mem {i : Nat} (ha : a ∈ classes) (hb : b ∈ classes) (hia : i ∈ a.idSet)
    (hib : i ∈ b.idSet) : Connected classes a b :=
  .single ⟨ha, hb, Finset.not_disjoint_iff.2 ⟨i, hia, hib⟩⟩

/-- Connected sets belong to one component. -/
theorem component_eq_of_connected (h : Connected classes a b) :
    component classes a = component classes b := by
  ext i
  constructor
  · rintro ⟨d, hd, connected, hi⟩
    exact ⟨d, hd, h.symm.trans connected, hi⟩
  · rintro ⟨d, hd, connected, hi⟩
    exact ⟨d, hd, h.trans connected, hi⟩

/-- A set with columns in its component has columns itself. -/
theorem nonempty_of_mem_component {i : Nat} (h : i ∈ component classes c) :
    ∃ j, j ∈ c.idSet := by
  obtain ⟨d, -, connected, hi⟩ := h
  rcases Relation.ReflTransGen.cases_head connected with rfl | ⟨b, first, -⟩
  · exact ⟨i, hi⟩
  · obtain ⟨j, hj, -⟩ := Finset.not_disjoint_iff.1 first.shared
    exact ⟨j, hj⟩

/-! ### United classes -/

/-- Whether a set contains one set of a list and otherwise only columns of sets that
are connected to it. -/
def Joined (classes : List ColumnSet) (u : ColumnSet) : Prop :=
  ∃ c ∈ classes, c.idSet ⊆ u.idSet ∧ ∀ i ∈ u.idSet, i ∈ component classes c

/-- A column that two joined sets share connects them. -/
theorem Joined.union (ha : Joined classes a) (hb : Joined classes b)
    (shared : ¬Disjoint a.idSet b.idSet) : Joined classes (a.union b) := by
  obtain ⟨c, hc, within, of_a⟩ := ha
  obtain ⟨d, hd, -, of_b⟩ := hb
  obtain ⟨i, hia, hib⟩ := Finset.not_disjoint_iff.1 shared
  obtain ⟨x, hx, to_x, hix⟩ := of_a i hia
  obtain ⟨y, hy, to_y, hiy⟩ := of_b i hib
  have link : Connected classes c d :=
    (to_x.trans (connected_of_mem hx hy hix hiy)).trans to_y.symm
  refine ⟨c, hc, ?_, ?_⟩
  · rw [ColumnSet.idSet_union]
    exact within.trans Finset.subset_union_left
  · intro j hj
    rw [ColumnSet.idSet_union, Finset.mem_union] at hj
    rcases hj with hj | hj
    · exact of_a j hj
    · rw [component_eq_of_connected link]
      exact of_b j hj

/-- United classes are made of connected sets. -/
theorem joined_of_mem (h : u ∈ classes.foldl addClass []) : Joined classes u := by
  refine addClass_induction (fun a b => Joined.union) (fun c hc => ?_) (by simp) u h
  exact ⟨c, hc, subset_rfl, fun i hi => ⟨c, hc, .refl, hi⟩⟩

/-- United classes that share a column are one. -/
theorem eq_of_mem {i : Nat} (hu : u ∈ classes.foldl addClass [])
    (hv : v ∈ classes.foldl addClass []) (hiu : i ∈ u.idSet) (hiv : i ∈ v.idSet) : u = v := by
  by_contra different
  have apart : Apart u v := (apart_foldl_addClass .nil).forall hu hv different
  exact Finset.disjoint_left.1 apart hiu hiv

/-- A united class contains all sets that are connected to one within it. -/
theorem idSet_of_connected (hu : u ∈ classes.foldl addClass []) (within : c.idSet ⊆ u.idSet)
    (h : Connected classes c d) : d.idSet ⊆ u.idSet := by
  induction h with
  | refl => exact within
  | @tail d e _ step ih =>
    -- The next set is within some united class, which has the column that it
    -- shares with this one.
    obtain ⟨v, hv, inside⟩ := exists_mem_foldl_addClass [] (.inl step.right)
    obtain ⟨i, hid, hie⟩ := Finset.not_disjoint_iff.1 step.shared
    rwa [eq_of_mem hu hv (ih hid) (inside hie)]

/-- A united class is the component of each set that it shares a column with. -/
theorem idSet_eq_component (hu : u ∈ classes.foldl addClass []) (hc : c ∈ classes) {i : Nat}
    (hic : i ∈ c.idSet) (hiu : i ∈ u.idSet) : (u.idSet : Set Nat) = component classes c := by
  obtain ⟨root, hroot, within, connected⟩ := joined_of_mem hu
  obtain ⟨d, hd, to_d, hid⟩ := connected i hiu
  rw [component_eq_of_connected (to_d.trans (connected_of_mem hd hc hid hic)).symm]
  ext j
  constructor
  · exact connected j
  · rintro ⟨e, -, to_e, hj⟩
    exact idSet_of_connected hu within to_e hj

/-- The united classes are the components of two columns and more. -/
theorem exists_mergeClasses_iff (S : Finset Nat) :
    (∃ u ∈ mergeClasses classes, u.idSet = S) ↔
      1 < S.card ∧ ∃ c ∈ classes, (S : Set Nat) = component classes c := by
  constructor
  · rintro ⟨u, hu, rfl⟩
    obtain ⟨hu, two⟩ := mem_mergeClasses.1 hu
    obtain ⟨i, hi⟩ := Finset.card_pos.1 (Nat.zero_lt_of_lt two)
    obtain ⟨c, hc, -, connected⟩ := joined_of_mem hu
    obtain ⟨d, hd, to_d, hid⟩ := connected i hi
    exact ⟨two, d, hd, idSet_eq_component hu hd hid hi⟩
  · rintro ⟨two, c, hc, same⟩
    obtain ⟨i, hi⟩ := Finset.card_pos.1 (Nat.zero_lt_of_lt two)
    obtain ⟨j, hj⟩ :=
      nonempty_of_mem_component (same ▸ Finset.mem_coe.2 hi : i ∈ component classes c)
    obtain ⟨u, hu, within⟩ := exists_mem_foldl_addClass [] (.inl hc)
    have all : u.idSet = S :=
      Finset.coe_injective ((idSet_eq_component hu hc hj (within hj)).trans same.symm)
    exact ⟨u, mem_mergeClasses.2 ⟨hu, all ▸ two⟩, all⟩

/-- No two united classes have the same columns. -/
theorem nodup_mergeClasses (classes : List ColumnSet) :
    ((mergeClasses classes).map (·.idSet)).Nodup := by
  refine List.pairwise_map.2
    ((apart_mergeClasses classes).imp_of_mem fun {u v} hu _ apart same => ?_)
  obtain ⟨i, hi⟩ := Finset.card_pos.1 (Nat.zero_lt_of_lt (mem_mergeClasses.1 hu).2)
  exact Finset.disjoint_left.1 apart hi (same ▸ hi)

/-- Components do not depend on the order of the list. -/
theorem component_congr {classes' : List ColumnSet} (same : ∀ c, c ∈ classes ↔ c ∈ classes')
    (c : ColumnSet) : component classes c = component classes' c := by
  have shares : Shares classes = Shares classes' := by
    ext a b
    exact ⟨fun h => ⟨(same a).1 h.left, (same b).1 h.right, h.shared⟩,
      fun h => ⟨(same a).2 h.left, (same b).2 h.right, h.shared⟩⟩
  ext i
  simp only [component, Connected, shares, same]

/-- Uniting classes computes connected components: the united classes are the unions of the
connected components of the list that have two columns and more. No two of them share a column,
none is there twice, and but for their order they do not depend on the order of the list. -/
theorem mergeClasses_components (classes : List ColumnSet) :
    (∀ S : Finset Nat, (∃ u ∈ mergeClasses classes, u.idSet = S) ↔
      1 < S.card ∧ ∃ c ∈ classes, (S : Set Nat) = component classes c) ∧
    (mergeClasses classes).Pairwise Apart ∧
    ((mergeClasses classes).map (·.idSet)).Nodup ∧
    ∀ classes', classes.Perm classes' →
      ((mergeClasses classes).map (·.idSet)).Perm ((mergeClasses classes').map (·.idSet)) := by
  refine ⟨exists_mergeClasses_iff, apart_mergeClasses classes, nodup_mergeClasses classes, ?_⟩
  intro classes' reordered
  refine (List.perm_ext_iff_of_nodup (nodup_mergeClasses _) (nodup_mergeClasses _)).2
    fun S => ?_
  simp only [List.mem_map, exists_mergeClasses_iff, reordered.mem_iff,
    component_congr fun c => reordered.mem_iff]

end ConstraintProperty

namespace Sample

/-- Two classes, one that stands alone, and one that has a column of each of the first two. -/
def bridged : List ColumnSet :=
  [.ofList [numbered 0, numbered 1], .ofList [numbered 2, numbered 3], .ofList [numbered 4],
    .ofList [numbered 1, numbered 2]]

end Sample

open Sample ConstraintProperty in
/-- Classes that are connected by a third one, in two orders. -/
theorem mergeClasses_components_bridged :
    (∃ c ∈ bridged, (({0, 1, 2, 3} : Finset Nat) : Set Nat) = component bridged c) ∧
    bridged.Perm bridged.reverse ∧
    ((mergeClasses bridged).map (·.idSet)).Perm
      ((mergeClasses bridged.reverse).map (·.idSet)) := by
  obtain ⟨components, -, -, reordered⟩ := mergeClasses_components bridged
  have united : ∃ u ∈ mergeClasses bridged, u.idSet = {0, 1, 2, 3} := by decide +kernel
  have turned : bridged.Perm bridged.reverse := bridged.reverse_perm.symm
  exact ⟨((components _).1 united).2, turned, reordered _ turned⟩

end QueryOptimizer
