import QueryOptimizer.Constraint.Property
import QueryOptimizer.Proofs.Constraint.Predicate
import QueryOptimizer.Proofs.Constraint.Projection
import QueryOptimizer.Proofs.Constraint.Renaming

/-!
# Constraint properties and rows

A row has a property when the columns of each class agree in it and its constraint admits the
row. The operations on properties are right about rows: what they make is had by every row that
has what it is made of. They rely on the normal form of the constraint and on classes whose
columns are of one type (`ConstraintProperty.About`), and keep both.

## Main results

* `ConstraintProperty.Holds.ofClasses`: classes can be united, and what is known of one column
  of a class is true of the others.
* `ConstraintProperty.Holds.conjoin`, `Holds.disjoin`, `Holds.restrict`,
  `ConstraintProperty.rename_spec`: the operations.
-/

namespace QueryOptimizer

variable {Γ : Nat → DataType} {S T : Finset Nat} {r s : Row}

/-- Whether all columns of a class are related. -/
def ColumnSet.Linked (R : Nat → Nat → Prop) (cls : ColumnSet) : Prop :=
  ∀ i ∈ cls.idSet, ∀ j ∈ cls.idSet, R i j

/-- The ids of an intersection. -/
@[simp] theorem ColumnSet.idSet_inter (s t : ColumnSet) :
    (s.inter t).idSet = s.idSet ∩ t.idSet := by
  ext i
  simp

/-- A column of a set has one of its ids. -/
theorem ColumnSet.mem_idSet_of_mem {s : ColumnSet} {c : Column} (h : c ∈ s.toList) :
    c.id ∈ s.idSet :=
  mem_idSet.2 (containsId_iff.2 ⟨c, h, rfl⟩)

namespace ColumnSet.Linked

variable {R : Nat → Nat → Prop} {a b : ColumnSet}

/-- Classes that share a column are one class. -/
theorem union (trans : ∀ i j k, R i j → R j k → R i k) (ha : a.Linked R) (hb : b.Linked R)
    (shared : ¬Disjoint a.idSet b.idSet) : (a.union b).Linked R := by
  obtain ⟨k, hka, hkb⟩ := Finset.not_disjoint_iff.1 shared
  intro i hi j hj
  rw [idSet_union, Finset.mem_union] at hi hj
  rcases hi with hi | hi <;> rcases hj with hj | hj
  · exact ha i hi j hj
  · exact trans i k j (ha i hi k hka) (hb k hkb j hj)
  · exact trans i k j (hb i hi k hkb) (ha k hka j hj)
  · exact hb i hi j hj

/-- Columns of a smaller set are linked, too. -/
theorem mono (h : a.Linked R) (le : b.idSet ⊆ a.idSet) : b.Linked R :=
  fun i hi j hj => h i (le hi) j (le hj)

end ColumnSet.Linked

namespace ConstraintProperty

/-! ### Properties -/

/-- Whether a property speaks of given columns, with a constraint in normal form and classes
whose columns are of one type. -/
structure About (Γ : Nat → DataType) (S : Finset Nat) (p : ConstraintProperty) : Prop where
  classes : ∀ cls ∈ p.classes, cls.idSet ⊆ S ∧ cls.Linked fun i j => Γ i = Γ j
  constraint : ∀ c ∈ p.constraint, c.Normal Γ ∧ c.uses ⊆ S

/-- Whether a row has a property. -/
structure Holds (p : ConstraintProperty) (r : Row) : Prop where
  classes : ∀ cls ∈ p.classes, cls.Linked fun i j => (r i).same (r j) = true
  constraint : ∀ c ∈ p.constraint, c.admits r = true

variable {p q : ConstraintProperty}

/-- A property that speaks of some columns speaks of more. -/
theorem About.mono (h : p.About Γ S) (le : S ⊆ T) : p.About Γ T where
  classes cls hcls := (h.classes cls hcls).imp_left fun within => within.trans le
  constraint c hc := (h.constraint c hc).imp_right fun within => within.trans le

/-- Nothing is known. -/
theorem About.nothing (Γ : Nat → DataType) (S : Finset Nat) :
    ({} : ConstraintProperty).About Γ S :=
  ⟨by simp, by simp⟩

/-- Every row has the property that says nothing. -/
theorem Holds.nothing (r : Row) : ({} : ConstraintProperty).Holds r :=
  ⟨by simp, by simp⟩

/-- No row has a contradiction. -/
theorem Holds.not_isContradiction (h : p.Holds r) : p.isContradiction = false := by
  unfold isContradiction
  cases known : p.constraint with
  | none => rfl
  | some c =>
    have admits := h.constraint c known
    rw [Option.any_some, Bool.eq_false_iff]
    intro contradiction
    rw [Constraint.admits_of_isContradiction contradiction] at admits
    cases admits

/-- Both or none of two rows that agree have a property. -/
theorem Holds.congr (about : p.About Γ S) (hr : r.HasTypes Γ) (hs : s.HasTypes Γ)
    (agree : ∀ i ∈ S, (r i).same (s i) = true) (h : p.Holds r) : p.Holds s where
  classes cls hcls i hi j hj := by
    obtain ⟨within, types⟩ := about.classes cls hcls
    have htype : Γ i = Γ j := types i hi j hj
    have hri : (r i).HasType (Γ j) := htype ▸ hr i
    have hsi : (s i).HasType (Γ j) := htype ▸ hs i
    have back : (s i).same (r i) = true := Value.same_symm hri hsi (agree i (within hi))
    have middle : (s i).same (r j) = true :=
      Value.same_trans hsi hri (hr j) back (h.classes cls hcls i hi j hj)
    exact Value.same_trans hsi (hr j) (hs j) middle (agree j (within hj))
  constraint c hc := by
    obtain ⟨normal, within⟩ := about.constraint c hc
    rw [← Constraint.admits_congr normal.regular hr hs fun i hi => agree i (within hi)]
    exact h.constraint c hc

/-- Rows that agree on the columns that a property speaks of have it alike. -/
theorem Holds.of_eq (about : p.About Γ S) (eq : ∀ i ∈ S, s i = r i) (h : p.Holds r) :
    p.Holds s where
  classes cls hcls i hi j hj := by
    have within := (about.classes cls hcls).1
    change (s i).same (s j) = true
    rw [eq i (within hi), eq j (within hj)]
    exact h.classes cls hcls i hi j hj
  constraint c hc := by
    obtain ⟨normal, within⟩ := about.constraint c hc
    rw [Constraint.admits_congr_of_intervals normal.regular fun i _ hi =>
      congrArg i.admits (eq _ (within hi))]
    exact h.constraint c hc

/-- What is known about no column is true of every row. -/
theorem About.holds (about : p.About Γ ∅) (r : Row) : p.Holds r where
  classes cls hcls i hi := by cases (about.classes cls hcls).1 hi
  constraint c hc := by
    obtain ⟨normal, within⟩ := about.constraint c hc
    obtain ⟨i, hi⟩ := normal.uses_nonempty
    cases within hi

/-! ### Classes -/

/-- What is left after a removal was there before. -/
theorem mem_of_mem_swapRemove {α : Type} {as : List α} {index : Nat} {a : α}
    (h : a ∈ swapRemove as index) : a ∈ as := by
  unfold swapRemove at h
  split at h
  · rename_i last found
    rcases List.mem_or_eq_of_mem_set (List.mem_of_mem_dropLast h) with h | rfl
    · exact h
    · exact List.mem_of_getLast? found
  · cases h

/-- What holds of all classes holds of the classes that are left after one has absorbed others,
if it holds of the union of two that share a column. -/
theorem absorb_induction {P : ColumnSet → Prop}
    (union : ∀ a b, P a → P b → ¬Disjoint a.idSet b.idSet → P (a.union b))
    {current : ColumnSet} {merged : List ColumnSet} (first : P current)
    (rest : ∀ c ∈ merged, P c) :
    P (absorb current merged).1 ∧ ∀ c ∈ (absorb current merged).2, P c := by
  fun_induction absorb current merged with
  | case1 current merged _ => exact ⟨first, rest⟩
  | case2 current merged i found inside ih =>
    refine ih ?_ fun c hc => rest c (mem_of_mem_swapRemove hc)
    obtain ⟨_, shares, -⟩ := List.findIdx?_eq_some_iff_getElem.1 found
    refine union _ _ first (rest _ (List.getElem_mem inside)) fun apart => ?_
    have apart : merged[i].isDisjoint current = true := ColumnSet.isDisjoint_iff.2 apart.symm
    simp [apart] at shares

/-- What holds of all classes holds of those that they are united to, if it holds of the union
of two that share a column. -/
theorem addClass_induction {P : ColumnSet → Prop}
    (union : ∀ a b, P a → P b → ¬Disjoint a.idSet b.idSet → P (a.union b))
    {classes : List ColumnSet} (all : ∀ c ∈ classes, P c) {merged : List ColumnSet}
    (done : ∀ c ∈ merged, P c) : ∀ c ∈ classes.foldl addClass merged, P c := by
  induction classes generalizing merged with
  | nil => exact done
  | cons d ds ih =>
    obtain ⟨first, rest⟩ := List.forall_mem_cons.1 all
    refine ih rest fun c hc => ?_
    obtain ⟨united, others⟩ := absorb_induction union first done
    rcases List.mem_append.1 hc with hc | hc
    · exact others c hc
    · exact List.mem_singleton.1 hc ▸ united

/-- What holds of all classes holds of the united ones, if it holds of the union of two
that share a column. -/
theorem mergeClasses_induction {P : ColumnSet → Prop}
    (union : ∀ a b, P a → P b → ¬Disjoint a.idSet b.idSet → P (a.union b))
    {classes : List ColumnSet} (all : ∀ c ∈ classes, P c) : ∀ c ∈ mergeClasses classes, P c :=
  fun c hc => addClass_induction union all (by simp) c (List.mem_filter.1 hc).1

/-! ### What is known of one column of a class -/

/-- A map with one entry replaces one id. -/
theorem idFor_insert_empty (src dst : Column) (i : Nat) :
    (ColumnMap.empty.insert src dst).idFor i = if src.id = i then dst.id else i := by
  unfold ColumnMap.idFor ColumnMap.insert
  rw [ColumnMap.lookup_insertEntry]
  split <;> rfl

/-- A copy within a class puts a column of the class in place of another one in what
is known of that one. -/
theorem exists_of_mem_copiesWithin {constraint copy : Constraint} {cls : ColumnSet}
    (h : copy ∈ copiesWithin constraint cls) : ∃ src ∈ cls.toList, ∃ dst ∈ cls.toList, ∃ known,
      constraint.onColumn src = some known ∧
        known.rename (ColumnMap.empty.insert src dst) false = .ok copy := by
  obtain ⟨src, hsrc, h⟩ := List.mem_flatMap.1 h
  split at h
  · cases h
  · rename_i known found
    obtain ⟨dst, hdst, made⟩ := List.mem_filterMap.1 h
    refine ⟨src, hsrc, dst, (List.mem_filter.1 hdst).1, known, found, ?_⟩
    cases renamed : known.rename (ColumnMap.empty.insert src dst) false with
    | error e =>
      rw [renamed] at made
      cases made
    | ok d =>
      rw [renamed] at made
      exact congrArg _ (Option.some.inj made)

/-- What is known of one column of a class is known of the others. -/
theorem copiesWithin_spec {constraint copy : Constraint} (normal : constraint.Normal Γ)
    {cls : ColumnSet} (types : cls.Linked fun i j => Γ i = Γ j)
    (h : copy ∈ copiesWithin constraint cls) :
    (copy.Normal Γ ∧ copy.uses ⊆ cls.idSet) ∧ ∀ r : Row, r.HasTypes Γ →
      (cls.Linked fun i j => (r i).same (r j) = true) → constraint.admits r = true →
        copy.admits r = true := by
  obtain ⟨src, hsrc, dst, hdst, known, found, made⟩ := exists_of_mem_copiesWithin h
  have hsrc := ColumnSet.mem_idSet_of_mem hsrc
  have hdst := ColumnSet.mem_idSet_of_mem hdst
  have follows := Constraint.onColumn_spec normal.regular normal.spread found
  have knownNormal : known.Normal Γ := normal.of_onColumn found
  obtain ⟨i, rfl, hi⟩ := knownNormal.eq_interval follows.uses
  have place : (ColumnMap.empty.insert src dst).idFor i.column.id = dst.id := by
    rw [idFor_insert_empty, if_pos hi.symm]
  have htype : Γ dst.id = Γ i.column.id := hi ▸ types dst.id hdst src.id hsrc
  have regular : i.Regular (Γ i.column.id) := by
    cases knownNormal with | interval regular => exact regular
  have typed :
      (Constraint.interval i).Normal fun j => Γ ((ColumnMap.empty.insert src dst).idFor j) :=
    .interval (by rwa [place, htype])
  have copies := Constraint.copies_of_rename made typed.regular
  refine ⟨⟨Constraint.normal_rename made typed (by simp [Set.InjOn]), ?_⟩,
    fun r hr same admits => ?_⟩
  · rw [copies.uses, Constraint.uses_interval, Finset.image_singleton, place]
    exact Finset.singleton_subset_iff.2 hdst
  · rw [copies.admits r hr, Constraint.admits_interval]
    have known := follows.admits r hr admits
    rw [Constraint.admits_interval] at known
    unfold Row.under
    rw [place,
      ← Interval.admits_congr regular (hr _) (htype ▸ hr dst.id)
      (hi ▸ same src.id hsrc dst.id hdst)]
    exact known

/-- A constraint stays as it is if nothing follows from it for other columns, else that
is conjoined with it. -/
theorem propagate_cases (classes : List ColumnSet) (constraint : Constraint) :
    classes.flatMap (copiesWithin constraint) = [] ∧ propagate classes (some constraint) =
      some constraint ∨
      propagate classes (some constraint) =
        Constraint.conjunction?
          (constraint :: classes.flatMap (copiesWithin constraint)) .index := by
  dsimp only [propagate]
  split
  · rename_i none
    exact .inl ⟨none, rfl⟩
  · exact .inr rfl

/-- What is known of all columns of classes. -/
theorem propagate_spec {classes : List ColumnSet} {constraint : Option Constraint}
    (about : About Γ S ⟨classes, constraint⟩) {known : Constraint}
    (made : propagate classes constraint = some known) : (known.Normal Γ ∧ known.uses ⊆ S) ∧
      ∀ r : Row, r.HasTypes Γ → Holds ⟨classes, constraint⟩ r → known.admits r = true := by
  cases constraint with
  | none => cases made
  | some c =>
    obtain ⟨normal, uses⟩ := about.constraint c rfl
    rcases propagate_cases classes c with ⟨-, same⟩ | all
    · obtain rfl := Option.some.inj (same.symm.trans made)
      exact ⟨⟨normal, uses⟩, fun r _ h => h.constraint c rfl⟩
    · rw [all] at made
      have each : ∀ d ∈ c :: classes.flatMap (copiesWithin c), (d.Normal Γ ∧ d.uses ⊆ S) ∧
          ∀ r : Row, r.HasTypes Γ → Holds ⟨classes, some c⟩ r → d.admits r = true := by
        refine List.forall_mem_cons.2
          ⟨⟨⟨normal, uses⟩, fun r _ h => h.constraint c rfl⟩, fun d hd => ?_⟩
        obtain ⟨cls, hcls, hd⟩ := List.mem_flatMap.1 hd
        obtain ⟨within, types⟩ := about.classes cls hcls
        obtain ⟨⟨normal', uses'⟩, admits⟩ := copiesWithin_spec normal types hd
        exact ⟨⟨normal', uses'.trans within⟩, fun r hr h =>
          admits r hr (h.classes cls hcls) (h.constraint c rfl)⟩
      refine ⟨⟨.conjunction? (fun d hd => (each d hd).1.1) made,
        Constraint.uses_conjunction? (fun d hd => (each d hd).1.2) made⟩, fun r hr h => ?_⟩
      have all : (Constraint.conjunction? _ .index).all _ = _ :=
        Constraint.admits_conjunction? hr fun d hd => (each d hd).1.1.regular
      rw [made, Option.all_some] at all
      rw [all, List.all_eq_true]
      exact fun d hd => (each d hd).2 r hr h

/-! ### Construction -/

/-- Uniting classes keeps what they say of columns and of rows. -/
theorem About.mergeClasses {classes : List ColumnSet} {constraint : Option Constraint}
    (h : About Γ S ⟨classes, constraint⟩) :
    About Γ S ⟨ConstraintProperty.mergeClasses classes, constraint⟩ where
  classes := mergeClasses_induction
    (fun a b ha hb shared =>
      ⟨by rw [ColumnSet.idSet_union]; exact Finset.union_subset ha.1 hb.1,
        ha.2.union (fun _ _ _ => Eq.trans) hb.2 shared⟩) h.classes
  constraint := h.constraint

/-- A row that has a property has it with classes united. -/
theorem Holds.mergeClasses {classes : List ColumnSet} {constraint : Option Constraint}
    (about : About Γ S ⟨classes, constraint⟩) (hr : r.HasTypes Γ)
    (h : Holds ⟨classes, constraint⟩ r) :
    Holds ⟨ConstraintProperty.mergeClasses classes, constraint⟩ r where
  classes := by
    have each := mergeClasses_induction
      (P := ColumnSet.Linked fun i j => Γ i = Γ j ∧ (r i).same (r j) = true)
      (fun a b ha hb shared => ha.union (fun i j k first second => ?_) hb shared)
      fun cls hcls i hi j hj =>
        ⟨(about.classes cls hcls).2 i hi j hj, h.classes cls hcls i hi j hj⟩
    · exact fun cls hcls i hi j hj => (each cls hcls i hi j hj).2
    · have hi : (r i).HasType (Γ k) := first.1.trans second.1 ▸ hr i
      have hj : (r j).HasType (Γ k) := second.1 ▸ hr j
      exact ⟨first.1.trans second.1, Value.same_trans hi hj (hr k) first.2 second.2⟩
  constraint := h.constraint

/-- Uniting classes and spreading constraints within them adds no columns to a property. -/
theorem About.ofClasses {classes : List ColumnSet} {constraint : Option Constraint}
    (h : About Γ S ⟨classes, constraint⟩) :
    (ConstraintProperty.ofClasses classes constraint).About Γ S where
  classes := h.mergeClasses.classes
  constraint _ made := (propagate_spec h.mergeClasses made).1

/-- Rows that have what a property is made of have the property. -/
theorem Holds.ofClasses {classes : List ColumnSet} {constraint : Option Constraint}
    (about : About Γ S ⟨classes, constraint⟩) (hr : r.HasTypes Γ)
    (h : Holds ⟨classes, constraint⟩ r) :
    (ConstraintProperty.ofClasses classes constraint).Holds r where
  classes := (h.mergeClasses about hr).classes
  constraint _ made :=
    (propagate_spec about.mergeClasses made).2 r hr (h.mergeClasses about hr)

/-- The conjunction of constraints as a property. -/
theorem About.conjunction {classes : List ColumnSet} {cs : List Constraint}
    {strategy : LookupStrategy}
    (classes' : ∀ cls ∈ classes, cls.idSet ⊆ S ∧ cls.Linked fun i j => Γ i = Γ j)
    (constraints : ∀ c ∈ cs, c.Normal Γ ∧ c.uses ⊆ S) :
    About Γ S ⟨classes, Constraint.conjunction? cs strategy⟩ where
  classes := classes'
  constraint _ made := ⟨.conjunction? (fun d hd => (constraints d hd).1) made,
    Constraint.uses_conjunction? (fun d hd => (constraints d hd).2) made⟩

/-- A row that satisfies constraints satisfies their conjunction. -/
theorem Holds.conjunction {classes : List ColumnSet} {cs : List Constraint}
    {strategy : LookupStrategy} (hr : r.HasTypes Γ) (normal : ∀ c ∈ cs, c.Normal Γ)
    (classes' : ∀ cls ∈ classes, cls.Linked fun i j => (r i).same (r j) = true)
    (constraints : ∀ c ∈ cs, c.admits r = true) :
    Holds ⟨classes, Constraint.conjunction? cs strategy⟩ r where
  classes := classes'
  constraint c made := by
    have all : (Constraint.conjunction? cs strategy).all _ = _ :=
      Constraint.admits_conjunction? hr fun d hd => (normal d hd).regular
    rw [show Constraint.conjunction? cs strategy = some c from made, Option.all_some] at all
    rw [all, List.all_eq_true]
    exact constraints

/-! ### Operations -/

/-- A constraint of two properties is one of the first or of the second. -/
theorem mem_both {c : Constraint} (h : c ∈ p.constraint.toList ++ q.constraint.toList) :
    c ∈ p.constraint ∨ c ∈ q.constraint :=
  (List.mem_append.1 h).imp Option.mem_toList.1 Option.mem_toList.1

/-- The constraints of two properties speak of the same columns as these do. -/
theorem About.parts (hp : p.About Γ S) (hq : q.About Γ S) :
    ∀ c ∈ p.constraint.toList ++ q.constraint.toList, c.Normal Γ ∧ c.uses ⊆ S :=
  fun c hc => (mem_both hc).elim (hp.constraint c) (hq.constraint c)

/-- The classes and constraints of two properties, taken together, speak of the
same columns as these do. -/
theorem About.both (hp : p.About Γ S) (hq : q.About Γ S) : About Γ S
    ⟨p.classes ++ q.classes,
      Constraint.conjunction? (p.constraint.toList ++ q.constraint.toList) .index⟩ :=
  .conjunction
    (fun cls hcls => (List.mem_append.1 hcls).elim (hp.classes cls) (hq.classes cls))
    (hp.parts hq)

/-- A conjunction of properties speaks of the same columns as these do. -/
theorem About.conjoin (hp : p.About Γ S) (hq : q.About Γ S) : (p.conjoin q).About Γ S :=
  (hp.both hq).ofClasses

/-- A row that has two properties has their conjunction. -/
theorem Holds.conjoin (hp : p.About Γ S) (hq : q.About Γ S) (hr : r.HasTypes Γ) (h : p.Holds r)
    (h' : q.Holds r) : (p.conjoin q).Holds r := by
  refine .ofClasses (hp.both hq) hr (.conjunction hr (fun c hc => (hp.parts hq c hc).1) ?_ ?_)
  · exact fun cls hcls => (List.mem_append.1 hcls).elim (h.classes cls) (h'.classes cls)
  · exact fun c hc => (mem_both hc).elim (h.constraint c) (h'.constraint c)

/-- The classes and the constraint that two properties have in common. -/
def shared (p q : ConstraintProperty) : ConstraintProperty :=
  ⟨(p.classes.flatMap fun l => q.classes.map l.inter).filter fun c => decide (1 < c.size),
    match p.constraint, q.constraint with
    | some c, some d => Constraint.disjunction? [c, d] .index
    | _, _ => none⟩

/-- A class that two properties have in common is within a class of each of them. -/
theorem mem_shared {cls : ColumnSet} (h : cls ∈ (p.shared q).classes) :
    ∃ a ∈ p.classes, ∃ b ∈ q.classes, cls = a.inter b := by
  obtain ⟨a, ha, h⟩ := List.mem_flatMap.1 (List.mem_filter.1 h).1
  obtain ⟨b, hb, rfl⟩ := List.mem_map.1 h
  exact ⟨a, ha, b, hb, rfl⟩

/-- What two properties have in common as a constraint is the disjunction of theirs. -/
theorem shared_constraint {e : Constraint} (h : e ∈ (p.shared q).constraint) :
    ∃ c ∈ p.constraint, ∃ d ∈ q.constraint,
      Constraint.disjunction? [c, d] .index = some e := by
  unfold shared at h
  dsimp only at h
  split at h
  · rename_i c d hc hd
    exact ⟨c, hc, d, hd, h⟩
  · cases h

/-- What two properties have in common speaks of the same columns as these do. -/
theorem About.shared (hp : p.About Γ S) (hq : q.About Γ S) : (p.shared q).About Γ S where
  classes cls hcls := by
    obtain ⟨a, ha, b, hb, rfl⟩ := mem_shared hcls
    have within : (a.inter b).idSet ⊆ a.idSet := by
      rw [ColumnSet.idSet_inter]
      exact Finset.inter_subset_left
    exact ⟨within.trans (hp.classes a ha).1, (hp.classes a ha).2.mono within⟩
  constraint e he := by
    obtain ⟨c, hc, d, hd, made⟩ := shared_constraint he
    have each : ∀ x ∈ [c, d], x.Normal Γ ∧ x.uses ⊆ S := by
      simpa using ⟨hp.constraint c hc, hq.constraint d hd⟩
    exact ⟨.disjunction? (fun x hx => (each x hx).1) made,
      Constraint.uses_disjunction? (fun x hx => (each x hx).2) made⟩

/-- A disjunction of properties speaks of the same columns as these do. -/
theorem About.disjoin (hp : p.About Γ S) (hq : q.About Γ S) : (p.disjoin q).About Γ S :=
  (hp.shared hq).ofClasses

/-- A row that has one of two properties has the property that one of them holds. -/
theorem Holds.disjoin (hp : p.About Γ S) (hq : q.About Γ S) (hr : r.HasTypes Γ)
    (h : p.Holds r ∨ q.Holds r) : (p.disjoin q).Holds r := by
  refine .ofClasses (hp.shared hq) hr ⟨fun cls hcls => ?_, fun e he => ?_⟩
  · obtain ⟨a, ha, b, hb, rfl⟩ := mem_shared hcls
    rcases h with h | h
    · refine (h.classes a ha).mono ?_
      rw [ColumnSet.idSet_inter]
      exact Finset.inter_subset_left
    · refine (h.classes b hb).mono ?_
      rw [ColumnSet.idSet_inter]
      exact Finset.inter_subset_right
  · obtain ⟨c, hc, d, hd, made⟩ := shared_constraint he
    have regular : ∀ x ∈ [c, d], x.Regular Γ := by
      simpa using ⟨(hp.constraint c hc).1.regular, (hq.constraint d hd).1.regular⟩
    have any : (Constraint.disjunction? [c, d] .index).all _ = _ :=
      Constraint.admits_disjunction? hr regular (by simp)
    rw [made, Option.all_some] at any
    rw [any]
    rcases h with h | h
    · simp [h.constraint c hc]
    · simp [h.constraint d hd]

/-- What a property says of some columns only. -/
theorem About.within (h : p.About Γ S) (cols : ColumnSet) :
    About Γ cols.idSet
      ⟨p.classes.map (·.inter cols), p.constraint.bind (·.onColumns cols)⟩ where
  classes cls hcls := by
    obtain ⟨a, ha, rfl⟩ := List.mem_map.1 hcls
    rw [ColumnSet.idSet_inter]
    refine ⟨Finset.inter_subset_right, (h.classes a ha).2.mono ?_⟩
    rw [ColumnSet.idSet_inter]
    exact Finset.inter_subset_left
  constraint d hd := by
    obtain ⟨c, hc, made⟩ := Option.bind_eq_some_iff.1 hd
    obtain ⟨normal, -⟩ := h.constraint c hc
    exact ⟨normal.of_onColumns made, (Constraint.onColumns_spec normal.regular made).uses⟩

/-- A restricted property speaks of the columns that it is restricted to. -/
theorem About.restrict (h : p.About Γ S) (cols : ColumnSet) :
    (p.restrict cols).About Γ cols.idSet :=
  (h.within cols).ofClasses

/-- A row that has a property has what is left of it for some columns. -/
theorem Holds.restrict (about : p.About Γ S) (hr : r.HasTypes Γ) (h : p.Holds r)
    (cols : ColumnSet) : (p.restrict cols).Holds r := by
  refine .ofClasses (about.within cols) hr ⟨fun cls hcls => ?_, fun d hd => ?_⟩
  · obtain ⟨a, ha, rfl⟩ := List.mem_map.1 hcls
    refine (h.classes a ha).mono ?_
    rw [ColumnSet.idSet_inter]
    exact Finset.inter_subset_left
  · obtain ⟨c, hc, made⟩ := Option.bind_eq_some_iff.1 hd
    obtain ⟨normal, -⟩ := about.constraint c hc
    exact (Constraint.onColumns_spec normal.regular made).admits r hr (h.constraint c hc)

/-! ### Renaming -/

/-- A renamed class has the new names of its columns. -/
theorem idSet_of_renameClass {map : ColumnMap} {cls renamed : ColumnSet}
    (made : renameClass map false cls = .ok renamed) :
    renamed.idSet = cls.idSet.image map.idFor := by
  obtain ⟨cols, all, rfl⟩ := by
    simpa only [renameClass, OptResult.bind_eq_ok, OptResult.pure_eq_ok] using made
  have all : List.Forall₂ (fun c t => t.id = map.idFor c.id) cls.toList cols := by
    refine (OptResult.mapM_eq_ok.1 all).imp fun c t found => ?_
    split at found
    · rename_i mapped entry
      obtain rfl := Except.ok.inj found
      have entry : map.entries.lookup c.id = some mapped := entry
      simp [ColumnMap.idFor, entry]
    · rename_i entry
      have entry : map.entries.lookup c.id = none := entry
      obtain rfl := Except.ok.inj found
      simp [ColumnMap.idFor, entry]
  have ids : cols.map (·.id) = cls.ids.map map.idFor := by
    rw [ColumnSet.ids, List.map_map]
    exact (List.forall₂_eq_eq_eq ▸ List.forall₂_map_right_iff.2 (List.forall₂_map_left_iff.2
      (all.flip.imp fun _ _ same => same)) : cols.map (·.id) =
        cls.toList.map fun c => map.idFor c.id)
  rw [ColumnSet.idSet_ofList, Column.idsOf, ids, ColumnSet.idSet]
  ext i
  simp

/-- The parts of a property under other columns. -/
theorem rename_eq_ok {map : ColumnMap} (made : p.rename map false = .ok q) :
    ∃ classes constraint, q = ConstraintProperty.ofClasses classes constraint ∧
      List.Forall₂ (fun a b => b.idSet = a.idSet.image map.idFor) p.classes classes ∧
      ∀ d ∈ constraint, ∃ c ∈ p.constraint, c.rename map false = .ok d := by
  unfold ConstraintProperty.rename at made
  simp only [OptResult.bind_eq_ok, OptResult.pure_eq_ok] at made
  obtain ⟨classes, hclasses, constraint, hconstraint, rfl⟩ := made
  refine ⟨classes, constraint, rfl,
    (OptResult.mapM_eq_ok.1 hclasses).imp fun _ _ => idSet_of_renameClass, fun d hd => ?_⟩
  cases known : p.constraint with
  | none =>
    rw [known] at hconstraint
    obtain rfl := OptResult.pure_eq_ok.1 hconstraint
    cases hd
  | some c =>
    rw [known] at hconstraint
    obtain ⟨copy, hcopy, rfl⟩ := OptResult.map_eq_ok.1 hconstraint
    obtain rfl := Option.some.inj hd
    exact ⟨c, rfl, hcopy⟩

/-- A property under other columns speaks of the columns that stand in, and a row has it if the
row that is read back has the property. -/
theorem rename_spec {map : ColumnMap} (about : p.About (fun i => Γ (map.idFor i)) S)
    (apart : Set.InjOn map.idFor S) (made : p.rename map false = .ok q) :
    q.About Γ (S.image map.idFor) ∧ ∀ r : Row, r.HasTypes Γ →
      p.Holds (r.under map) → q.Holds r := by
  obtain ⟨classes, constraint, rfl, all, parts⟩ := rename_eq_ok made
  have renamed : About Γ (S.image map.idFor) ⟨classes, constraint⟩ := by
    refine ⟨fun cls hcls => ?_, fun d hd => ?_⟩
    · obtain ⟨a, ha, same⟩ := exists_of_mem_right all hcls
      obtain ⟨within, types⟩ := about.classes a ha
      rw [ColumnSet.Linked, same]
      refine ⟨Finset.image_subset_image within, fun i hi j hj => ?_⟩
      obtain ⟨k, hk, rfl⟩ := Finset.mem_image.1 hi
      obtain ⟨l, hl, rfl⟩ := Finset.mem_image.1 hj
      exact types k hk l hl
    · obtain ⟨c, hc, copied⟩ := parts d hd
      obtain ⟨normal, within⟩ := about.constraint c hc
      refine ⟨Constraint.normal_rename copied normal (apart.mono within), ?_⟩
      rw [(Constraint.copies_of_rename copied normal.regular).uses]
      exact Finset.image_subset_image within
  refine ⟨renamed.ofClasses, fun r hr h =>
    .ofClasses renamed hr ⟨fun cls hcls i hi j hj => ?_, fun d hd => ?_⟩⟩
  · obtain ⟨a, ha, same⟩ := exists_of_mem_right all hcls
    rw [same] at hi hj
    obtain ⟨k, hk, rfl⟩ := Finset.mem_image.1 hi
    obtain ⟨l, hl, rfl⟩ := Finset.mem_image.1 hj
    exact h.classes a ha k hk l hl
  · obtain ⟨c, hc, copied⟩ := parts d hd
    rw [(Constraint.copies_of_rename copied (about.constraint c hc).1.regular).admits r hr]
    exact h.constraint c hc

end ConstraintProperty

/-! ### Predicates -/

variable {K : Type} {catalog : Catalog K} {I : Interpretation}

namespace Interval

/-- A comparison of a column says something about that column. -/
theorem column_of_ofComparison? {c : Column} {op : BinaryOp} {v : Datum} {i : Interval}
    (made : ofComparison? c op v = some i) : i.column = c := by
  unfold ofComparison? at made
  split at made
  · cases op <;> cases made <;> rfl
  · obtain ⟨ranges, -, rfl⟩ := Option.map_eq_some_iff.1 made
    rfl

end Interval

namespace Reading

/-- Whether readings speak of given columns only. -/
def Within (S : Finset Nat) (members : List (Option Reading)) : Prop :=
  ∀ m ∈ members, ∀ reading ∈ m, reading.constraint.uses ⊆ S

variable {members ms : List (Option Reading)} {m : Option Reading}

/-- Readings that speak of some columns speak of more. -/
theorem Within.mono (h : Within S members) (le : S ⊆ T) : Within T members :=
  fun m hm reading hr => (h m hm reading hr).trans le

/-- Readings that speak of given columns do so together. -/
theorem Within.append (h : Within S members) (h' : Within S ms) : Within S (members ++ ms) :=
  fun m hm => (List.mem_append.1 hm).elim (h m) (h' m)

/-- The constraints of readings that speak of given columns use these only. -/
theorem Within.constraints (h : Within S members) :
    ∀ c ∈ members.filterMap (·.map (·.constraint)), c.uses ⊆ S := by
  intro c hc
  obtain ⟨m, hm, made⟩ := List.mem_filterMap.1 hc
  obtain ⟨reading, hr, rfl⟩ := Option.map_eq_some_iff.1 made
  exact h m hm reading hr

/-- The conjunction of readings speaks of the same columns as these do. -/
theorem Within.conjoin (h : Within S members) : Within S [Reading.conjoin members] := by
  intro m hm reading hr
  obtain rfl := List.mem_singleton.1 hm
  obtain ⟨c, made, rfl⟩ := Option.map_eq_some_iff.1 hr
  exact Constraint.uses_conjunction? h.constraints made

/-- The disjunction of readings speaks of the same columns as these do. -/
theorem Within.disjoin (h : Within S members) : Within S [Reading.disjoin members] := by
  intro m hm reading hr
  obtain rfl := List.mem_singleton.1 hm
  unfold Reading.disjoin at hr
  split at hr
  · cases hr
  · obtain ⟨c, made, rfl⟩ := Option.map_eq_some_iff.1 hr
    exact Constraint.uses_disjunction? h.constraints made

/-- Negated readings speak of the same columns as the readings do. -/
theorem Within.negate (h : Within S members) : Within S (members.map Reading.negate) := by
  intro m hm reading hr
  obtain ⟨part, hpart, rfl⟩ := List.mem_map.1 hm
  unfold Reading.negate at hr
  split at hr
  · rename_i c
    obtain rfl := Option.some.inj hr
    have within := h _ hpart _ rfl
    cases c <;> simpa [Constraint.negate, Interval.complement, Interval.ofRanges] using within
  · cases hr

/-- What says nothing speaks of no column. -/
theorem Within.nothing : Within S [none] := by
  intro m hm reading hr
  obtain rfl := List.mem_singleton.1 hm
  cases hr

/-- The reading of an interval speaks of its column. -/
theorem Within.ofInterval {i : Interval} (h : i.column.id ∈ S) :
    Within S [some (Reading.ofInterval i)] := by
  intro m hm reading hr
  obtain rfl := List.mem_singleton.1 hm
  obtain rfl := Option.some.inj hr
  exact (Constraint.uses_interval i).trans_subset (Finset.singleton_subset_iff.2 h)

/-- The reading of a comparison speaks of the column that is compared. -/
theorem Within.ofComparison {c : Column} {op : BinaryOp} {v : Datum} (h : c.id ∈ S)
    (read : Reading.ofComparison catalog c op v = .ok m) : Within S [m] := by
  unfold Reading.ofComparison at read
  obtain ⟨known, -, read⟩ := OptResult.bind_eq_ok.1 read
  split at read
  · obtain rfl := OptResult.pure_eq_ok.1 read
    exact .nothing
  · obtain ⟨props, -, read⟩ := OptResult.bind_eq_ok.1 read
    split at read
    · obtain rfl := OptResult.pure_eq_ok.1 read
      exact .nothing
    · split at read
      · obtain rfl := OptResult.pure_eq_ok.1 read
        exact .nothing
      · obtain rfl := OptResult.pure_eq_ok.1 read
        cases made : Interval.ofComparison? c op v with
        | none => exact .nothing
        | some i => exact .ofInterval (Interval.column_of_ofComparison? made ▸ h)

/-- A comparison uses the column that is compared. -/
theorem mem_uses_of_asComparison? {e : Scalar} {c : Column} {op : BinaryOp} {v : Datum}
    (shape : e.asComparison? = some (c, op, v)) : c.id ∈ e.uses := by
  unfold Scalar.asComparison? at shape
  split at shape
  · obtain ⟨rfl, -, -⟩ := by simpa using shape
    simp
  · obtain ⟨turned, -, same⟩ := Option.map_eq_some_iff.1 shape
    obtain ⟨rfl, -, -⟩ := by simpa using same
    simp
  · cases shape

/-- What is read off a predicate speaks of the columns that the predicate uses. -/
theorem within_of_parts {e : Scalar} {chain : Option BinaryOp}
    (read : parts catalog chain e = .ok members) : Within e.uses members := by
  fun_induction parts catalog chain e generalizing members with
  | case1 chain l r hl hr =>
    obtain ⟨left, readLeft, read⟩ := OptResult.bind_eq_ok.1 read
    obtain ⟨right, readRight, read⟩ := OptResult.bind_eq_ok.1 read
    obtain rfl := OptResult.pure_eq_ok.1 read
    rw [Scalar.uses_binary]
    have both := ((hl readLeft).mono Finset.subset_union_left).append
      ((hr readRight).mono Finset.subset_union_right)
    split
    · exact both
    · exact both.conjoin
  | case2 chain l r hl hr =>
    obtain ⟨first, readLeft, read⟩ := OptResult.bind_eq_ok.1 read
    rw [Scalar.uses_binary]
    have left : Within (l.uses ∪ r.uses) first := (hl readLeft).mono Finset.subset_union_left
    obtain ⟨members, both, rfl⟩ : ∃ ms, Within (l.uses ∪ r.uses) ms ∧
        (if chain == some .or then ms else [disjoin ms]) = members := by
      by_cases unknown : first.any (·.isNone) = true
      · rw [if_pos unknown] at read
        exact ⟨_, left, OptResult.pure_eq_ok.1 read⟩
      · rw [if_neg unknown] at read
        obtain ⟨right, readRight, read⟩ := OptResult.bind_eq_ok.1 read
        exact ⟨_, left.append ((hr readRight).mono Finset.subset_union_right),
          OptResult.pure_eq_ok.1 read⟩
    split
    · exact both
    · exact both.disjoin
  | case3 chain e ih =>
    obtain ⟨parts, readPart, read⟩ := OptResult.bind_eq_ok.1 read
    obtain rfl := OptResult.pure_eq_ok.1 read
    rw [Scalar.uses_not]
    exact (ih readPart).negate
  | case4 chain e =>
    obtain rfl := OptResult.pure_eq_ok.1 read
    cases e with
    | column c => exact .ofInterval (by simp [Interval.nullOnly, Interval.ofRanges])
    | _ => exact .nothing
  | case5 chain op' l r notAnd notOr c op v shape =>
    obtain ⟨m, readPart, read⟩ := OptResult.bind_eq_ok.1 read
    obtain rfl := OptResult.pure_eq_ok.1 read
    exact .ofComparison (mem_uses_of_asComparison? shape) readPart
  | case6 chain op l r notAnd notOr shape =>
    obtain rfl := OptResult.pure_eq_ok.1 read
    exact .nothing
  | case7 e chain =>
    obtain rfl := OptResult.pure_eq_ok.1 read
    exact .nothing

/-- The constraint that is read off a predicate uses columns of the predicate only. -/
theorem uses_of_ofPredicate {e : Scalar} (read : ofPredicate catalog e = .ok m) :
    ∀ reading ∈ m, reading.constraint.uses ⊆ e.uses := by
  obtain ⟨members, readParts, read⟩ := OptResult.bind_eq_ok.1 read
  obtain rfl := OptResult.pure_eq_ok.1 read
  intro reading hr
  cases members with
  | nil => cases hr
  | cons m ms => exact within_of_parts readParts m (by simp) reading hr

end Reading

/-- Whether columns that a predicate compares with each other, or with a value,
are of one type. -/
def Scalar.WellTyped (Γ : Nat → DataType) (e : Scalar) : Prop :=
  ∀ c ∈ e.conjuncts, c.Comparable Γ ∧
    ∀ l r, c.asColumnEquality? = some (l, r) → Γ l.id = Γ r.id

namespace ConstraintProperty

/-- The classes and constraints that are read off predicates are about the rows in which
all of them are true. -/
theorem readConjuncts_spec (truthful : catalog.Truthful I) (mirrored : I.Mirrored)
    {es : List Scalar}
    (typed : ∀ e ∈ es, e.Comparable Γ ∧ ∀ l r, e.asColumnEquality? = some (l, r) →
      Γ l.id = Γ r.id) (uses : ∀ e ∈ es, e.uses ⊆ S) {classes : List ColumnSet}
    {constraints : List Constraint}
    (read : readConjuncts catalog es = .ok (classes, constraints)) :
    ((∀ cls ∈ classes, cls.idSet ⊆ S ∧ cls.Linked fun i j => Γ i = Γ j) ∧
      ∀ c ∈ constraints, c.Normal Γ ∧ c.uses ⊆ S) ∧
    ∀ r : Row, r.HasTypes Γ → (∀ e ∈ es, e.test I r = some true) →
      (∀ cls ∈ classes, cls.Linked fun i j => (r i).same (r j) = true) ∧
        ∀ c ∈ constraints, c.admits r = true := by
  induction es generalizing classes constraints with
  | nil =>
    obtain ⟨rfl, rfl⟩ := Prod.mk.inj (OptResult.pure_eq_ok.1 read)
    simp
  | cons e es ih =>
    obtain ⟨typedFirst, typedRest⟩ := List.forall_mem_cons.1 typed
    obtain ⟨usesFirst, usesRest⟩ := List.forall_mem_cons.1 uses
    unfold readConjuncts at read
    split at read
    · rename_i l r equated
      obtain ⟨⟨classes', constraints'⟩, rest, made⟩ := OptResult.bind_eq_ok.1 read
      obtain ⟨rfl, rfl⟩ := Prod.mk.inj (OptResult.pure_eq_ok.1 made)
      obtain ⟨about, holds⟩ := ih typedRest usesRest rest
      have one : Γ l.id = Γ r.id := typedFirst.2 l r equated
      obtain rfl := Scalar.asColumnEquality?_eq_some.1 equated
      have members {i : Nat} (hi : i ∈ (ColumnSet.ofList [l, r]).idSet) :
          i = l.id ∨ i = r.id := by
        simpa [eq_comm] using hi
      refine ⟨⟨List.forall_mem_cons.2
        ⟨⟨fun i hi => usesFirst ?_, fun i hi j hj => ?_⟩, about.1⟩, about.2⟩,
          fun x hx true => ?_⟩
      · rcases members hi with rfl | rfl <;> simp
      · rcases members hi with rfl | rfl <;> rcases members hj with rfl | rfl <;> simp [one]
      · obtain ⟨trueFirst, trueRest⟩ := List.forall_mem_cons.1 true
        obtain ⟨first, second⟩ := holds x hx trueRest
        have same : (x l.id).same (x r.id) = Bool.true := I.same_of_compare_eq trueFirst
        have back := Value.same_symm (hx l.id) (one ▸ hx r.id) same
        refine ⟨List.forall_mem_cons.2 ⟨fun i hi j hj => ?_, first⟩, second⟩
        rcases members hi with rfl | rfl <;> rcases members hj with rfl | rfl <;>
          first | exact Value.same_self _ | exact same | exact back
    · obtain ⟨constraint, readFirst, read⟩ := OptResult.bind_eq_ok.1 read
      obtain ⟨⟨classes', constraints'⟩, rest, made⟩ := OptResult.bind_eq_ok.1 read
      obtain ⟨rfl, rfl⟩ := Prod.mk.inj (OptResult.pure_eq_ok.1 made)
      obtain ⟨about, holds⟩ := ih typedRest usesRest rest
      obtain ⟨m, readWhole, rfl⟩ := Constraint.ofPredicate_eq_ok.1 readFirst
      have describes :=
        Reading.describes_of_ofPredicate truthful mirrored typedFirst.1 readWhole
      have within := Reading.uses_of_ofPredicate readWhole
      refine ⟨⟨about.1, fun c hc => ?_⟩, fun x hx true =>
        ⟨(holds x hx fun e he => ?_).1, fun c hc => ?_⟩⟩
      · rcases List.mem_append.1 hc with hc | hc
        · obtain ⟨reading, hr, rfl⟩ := Option.map_eq_some_iff.1 (Option.mem_toList.1 hc)
          exact ⟨describes.normal reading hr, (within reading hr).trans usesFirst⟩
        · exact about.2 c hc
      · exact true e (List.mem_cons_of_mem _ he)
      · obtain ⟨trueFirst, trueRest⟩ := List.forall_mem_cons.1 true
        rcases List.mem_append.1 hc with hc | hc
        · obtain ⟨reading, hr, rfl⟩ := Option.map_eq_some_iff.1 (Option.mem_toList.1 hc)
          exact describes.of_true x hx trueFirst reading hr
        · exact (holds x hx trueRest).2 c hc

/-- The property of a predicate is had by the rows in which the predicate is true. -/
theorem ofPredicate_spec (truthful : catalog.Truthful I) (mirrored : I.Mirrored) {e : Scalar}
    (typed : e.WellTyped Γ) {p : ConstraintProperty} (read : ofPredicate catalog e = .ok p) :
    p.About Γ e.uses ∧ ∀ r : Row, r.HasTypes Γ → e.test I r = some true → p.Holds r := by
  obtain ⟨⟨classes, constraints⟩, readParts, made⟩ := OptResult.bind_eq_ok.1 read
  obtain rfl := OptResult.pure_eq_ok.1 made
  obtain ⟨about, holds⟩ := readConjuncts_spec truthful mirrored typed
    (fun c hc i hi => Scalar.mem_uses_conjuncts.2 ⟨c, hc, hi⟩) readParts
  have whole : About _ _ ⟨classes, Constraint.conjunction? constraints .index⟩ :=
    .conjunction about.1 about.2
  refine ⟨whole.ofClasses, fun r hr true => .ofClasses whole hr ?_⟩
  obtain ⟨classes', constraints'⟩ := holds r hr ((Scalar.test_conjuncts I r e).1 true)
  exact .conjunction hr (fun c hc => (about.2 c hc).1) classes' constraints'

end ConstraintProperty

end QueryOptimizer
