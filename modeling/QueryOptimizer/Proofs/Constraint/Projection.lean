import Mathlib.Data.Finset.Card
import QueryOptimizer.Proofs.Constraint.Meaning

/-!
# Projections of constraints

A projection says about some columns what a constraint says about them: every row that
satisfies the constraint satisfies the projection, and the projection uses no other columns.
The projection of a negation on its only column negates what is known of its part, and what is
known of the part may be too little for that. So a negation must not speak of one column only
(`Constraint.Spread`).

A constraint does not depend on other columns either, nor does it tell values
apart that are the same.

## Main results

* `LookupStrategy.select_eq`: parts that are looked up by a column, in either way, are
  those on this column only.
* `Constraint.onColumn_spec`, `Constraint.onColumns_spec`: projections follow
  from the constraint.
* `Value.same_iff`: values of one type are the same when they have the same place.
* `Constraint.admits_congr`: a constraint admits both or none of two rows that
  agree on its columns.
-/

namespace QueryOptimizer

namespace ColumnSet

/-- A set has as many ids as columns. -/
theorem size_eq_card (s : ColumnSet) : s.size = s.idSet.card := by
  have distinct : s.ids.Nodup := List.pairwise_map.2 (s.sorted.imp Nat.ne_of_lt)
  rw [size, idSet, List.toFinset_card_of_nodup distinct, ids, List.length_map]

/-- The only id of a set of one column. -/
@[simp] theorem idSet_singleton (c : Column) : (singleton c).idSet = {c.id} := by
  ext i
  rw [mem_idSet, containsId_singleton, Finset.mem_singleton, beq_iff_eq, eq_comm]

end ColumnSet

/-! ### Looking up parts -/

namespace PartIndex

variable {α : Type} {used : α → ColumnSet}

/-- Whether a part uses one column only, and that is the given one. -/
def isOn (used : α → ColumnSet) (c : Column) (a : α) : Bool :=
  (used a).contains c && (used a).size == 1

/-- A new entry is found behind the ones under the same key. -/
theorem lookup_addEntry (id : Nat) (a : α) (entries : List (Nat × List α)) (i : Nat) :
    ((addEntry id a entries).lookup i).getD [] =
      (entries.lookup i).getD [] ++ if i = id then [a] else [] := by
  fun_induction addEntry id a entries with
  | case1 =>
    rw [List.lookup_cons]
    cases h : i == id <;> simp_all
  | case2 as rest =>
    rw [List.lookup_cons, List.lookup_cons]
    cases h : i == id <;> simp_all
  | case3 j as rest different ih =>
    rw [List.lookup_cons, List.lookup_cons]
    cases h : i == j with
    | true =>
      obtain rfl := beq_iff_eq.1 h
      simp [different]
    | false => exact ih

/-- A part that is added is found behind those that are there already, by the only
column that it uses. -/
theorem find_add (index : PartIndex α) (a : α) (c : Column) :
    (index.add used a).find c = index.find c ++ [a].filter (isOn used c) := by
  unfold add
  split
  · rename_i d only
    have size : (used a).size = 1 := by simp [ColumnSet.size, only]
    have on : isOn used c a = (d.id == c.id) := by
      simp [isOn, ColumnSet.contains, ColumnSet.containsId, size, only]
    rw [find, lookup_addEntry, List.filter_singleton, on, find]
    by_cases same : c.id = d.id
    · simp [same]
    · simp [same, beq_eq_false_iff_ne.2 (Ne.symm same)]
  · rename_i several
    have on : isOn used c a = false := by
      refine Bool.eq_false_iff.2 fun single => ?_
      obtain ⟨-, one⟩ := Bool.and_eq_true_iff.1 single
      obtain ⟨d, only⟩ := List.length_eq_one_iff.1 (beq_iff_eq.1 one)
      exact several d only
    rw [List.filter_singleton, on]
    simp

/-- What is found by a column are the parts that use this column only. -/
theorem find_build (parts : List α) (c : Column) :
    (build used parts).find c = parts.filter (isOn used c) := by
  suffices found : ∀ index : PartIndex α,
      (parts.foldl (add used) index).find c = index.find c ++
      parts.filter (isOn used c) from found {}
  induction parts with
  | nil => simp
  | cons a as ih =>
    intro index
    rw [List.foldl_cons, ih, find_add, List.append_assoc, ← List.filter_append,
      List.singleton_append]

end PartIndex

/-- Both strategies select the same parts in the same order. -/
theorem LookupStrategy.select_eq {α : Type} (strategy : LookupStrategy) (used : α → ColumnSet)
    (parts : List α) (c : Column) :
    strategy.select used parts c = parts.filter (PartIndex.isOn used c) := by
  cases strategy with
  | scan => rfl
  | index => exact PartIndex.find_build parts c

/-- Whatever the strategy is, it selects parts of the given list. -/
theorem LookupStrategy.mem_of_mem_select {α : Type} {used : α → ColumnSet}
    {strategy : LookupStrategy} {parts : List α} {c : Column} {a : α}
    (h : a ∈ strategy.select used parts c) : a ∈ parts := by
  rw [select_eq] at h
  exact (List.mem_filter.1 h).1

namespace Constraint

variable {Γ : Nat → DataType} {c d : Constraint} {cs : List Constraint} {S : Finset Nat}
  {strategy : LookupStrategy}

/-! ### Used columns -/

/-- The ids of the columns that a constraint uses. -/
def uses (c : Constraint) : Finset Nat :=
  c.usedColumns.idSet

/-- The columns of constraints are added to those that are known. -/
theorem mem_idSet_usedColumnsFrom (s : ColumnSet) (cs : List Constraint) (i : Nat) :
    i ∈ (usedColumnsFrom s cs).idSet ↔ i ∈ s.idSet ∨ ∃ c ∈ cs, i ∈ c.uses := by
  induction cs generalizing s with
  | nil => simp [usedColumnsFrom]
  | cons c cs ih =>
    rw [usedColumnsFrom, ih, ColumnSet.idSet_union, Finset.mem_union,
      List.exists_mem_cons_iff, or_assoc]
    rfl

/-- An interval uses its column. -/
@[simp] theorem uses_interval (i : Interval) : (interval i).uses = {i.column.id} := by
  simp [uses, usedColumns]

/-- A conjunction uses what its parts use. -/
@[simp] theorem mem_uses_conjunction {i : Nat} :
    i ∈ (conjunction cs strategy).uses ↔ ∃ c ∈ cs, i ∈ c.uses := by
  simp only [uses, usedColumns]
  rw [mem_idSet_usedColumnsFrom]
  simp [uses]

/-- A disjunction uses what its parts use. -/
@[simp] theorem mem_uses_disjunction {i : Nat} :
    i ∈ (disjunction cs strategy).uses ↔ ∃ c ∈ cs, i ∈ c.uses := by
  simp only [uses, usedColumns]
  rw [mem_idSet_usedColumnsFrom]
  simp [uses]

/-- A negation uses what its part uses. -/
@[simp] theorem uses_negation : (negation c).uses = c.uses := by
  simp [uses, usedColumns]

/-- The conjuncts of a constraint use no other columns. -/
theorem uses_conjuncts (h : c.uses ⊆ S) : ∀ p ∈ c.conjuncts, p.uses ⊆ S := by
  cases c with
  | conjunction parts _ => exact fun p hp i hi => h (mem_uses_conjunction.2 ⟨p, hp, hi⟩)
  | _ => exact List.forall_mem_singleton.2 h

/-- The disjuncts of a constraint use no other columns. -/
theorem uses_disjuncts (h : c.uses ⊆ S) : ∀ p ∈ c.disjuncts, p.uses ⊆ S := by
  cases c with
  | disjunction parts _ => exact fun p hp i hi => h (mem_uses_disjunction.2 ⟨p, hp, hi⟩)
  | _ => exact List.forall_mem_singleton.2 h

/-- A conjunction of constraints uses no other columns than these do. -/
theorem uses_conjunction? (hcs : ∀ c ∈ cs, c.uses ⊆ S)
    (h : conjunction? cs strategy = some c) :
    c.uses ⊆ S := by
  refine conjunction?_induction h (fun c hc => uses_conjuncts (hcs c hc))
    (fun i j hi _ _ => ?_) fun parts hparts _ _ i hi => ?_
  · exact hi
  · obtain ⟨p, hp, hi⟩ := mem_uses_conjunction.1 hi
    exact hparts p hp hi

/-- A disjunction of constraints uses no other columns than these do. -/
theorem uses_disjunction? (hcs : ∀ c ∈ cs, c.uses ⊆ S)
    (h : disjunction? cs strategy = some c) :
    c.uses ⊆ S := by
  refine disjunction?_induction h (fun c hc => uses_disjuncts (hcs c hc))
    (fun i j hi _ _ => ?_) fun parts hparts _ i hi => ?_
  · exact hi
  · obtain ⟨p, hp, hi⟩ := mem_uses_disjunction.1 hi
    exact hparts p hp hi

/-! ### What follows from a constraint -/

/-- Whether a constraint follows from another one, and speaks of given columns only. -/
structure Follows (Γ : Nat → DataType) (c : Constraint) (S : Finset Nat) (d : Constraint) :
    Prop where
  regular : d.Regular Γ
  uses : d.uses ⊆ S
  admits : ∀ r : Row, r.HasTypes Γ → c.admits r = true → d.admits r = true

/-- What follows from a constraint follows from one that implies it. -/
theorem Follows.of_implies (h : c.Follows Γ S d) {whole : Constraint}
    (implies : ∀ r : Row, r.HasTypes Γ → whole.admits r = true → c.admits r = true) :
    whole.Follows Γ S d :=
  ⟨h.regular, h.uses, fun r hr hw => h.admits r hr (implies r hr hw)⟩

namespace Projection

variable {ps : List Projection}

/-- What a projection contributes is its bound. -/
theorem bound_of_effective? {p : Projection} (h : p.effective? = some d) :
    p.bound = some d := by
  unfold effective? at h
  cases hb : p.bound with
  | none => simp [hb] at h
  | some b =>
    rw [hb, Option.filter_some] at h
    split at h
    · exact h
    · cases h

/-- What parts say together follows if each of them does. -/
theorem follows_of_conjoin (parts : ∀ p ∈ ps, ∀ b ∈ p.bound, c.Follows Γ S b)
    (h : conjoin ps = some d) : c.Follows Γ S d := by
  have each : ∀ b ∈ ps.filterMap effective?, c.Follows Γ S b := fun b hb => by
    obtain ⟨p, hp, effective⟩ := List.mem_filterMap.1 hb
    exact parts p hp b (bound_of_effective? effective)
  have regular : ∀ b ∈ ps.filterMap effective?, b.Regular Γ := fun b hb => (each b hb).regular
  refine ⟨.conjunction? regular h, uses_conjunction? (fun b hb => (each b hb).uses) h,
    fun r hr hc => ?_⟩
  have admits : (conjunction? (ps.filterMap effective?) .scan).all _ = _ :=
    admits_conjunction? hr regular
  rw [show conjunction? _ _ = some d from h, Option.all_some] at admits
  exact admits.trans (List.all_eq_true.2 fun b hb => (each b hb).admits r hr hc)

/-- What parts say alternatively follows if there is always one that holds and
is no contradiction. -/
theorem follows_of_disjoin (parts : ∀ p ∈ ps, ∀ b ∈ p.bound, b.Regular Γ ∧ b.uses ⊆ S)
    (holds : ∀ r : Row, r.HasTypes Γ → c.admits r = true →
      ∃ p ∈ ps, p.contradiction = false ∧ ∀ b ∈ p.bound, b.admits r = true)
    (h : disjoin ps = some d) : c.Follows Γ S d := by
  unfold disjoin at h
  generalize hbounds : (ps.filter (!·.contradiction)).map effective? = bounds at h
  simp only at h
  split at h
  · cases h
  · rename_i all
    have each : ∀ b ∈ bounds.filterMap id, b.Regular Γ ∧ b.uses ⊆ S := fun b hb => by
      obtain ⟨_, hbound, rfl⟩ := List.mem_filterMap.1 hb
      obtain ⟨p, hp, effective⟩ := List.mem_map.1 (hbounds ▸ hbound)
      exact parts p (List.mem_filter.1 hp).1 b (bound_of_effective? effective)
    have regular : ∀ b ∈ bounds.filterMap id, b.Regular Γ := fun b hb => (each b hb).1
    refine ⟨.disjunction? regular h, uses_disjunction? (fun b hb => (each b hb).2) h,
      fun r hr hc => ?_⟩
    obtain ⟨p, hp, satisfiable, admits⟩ := holds r hr hc
    have mem : p.effective? ∈ bounds :=
      hbounds ▸ List.mem_map.2 ⟨p, List.mem_filter.2 ⟨hp, by simp [satisfiable]⟩, rfl⟩
    cases effective : p.effective? with
    | none => exact absurd (List.any_eq_true.2 ⟨_, mem, by simp [effective]⟩) all
    | some b =>
      have hb : b ∈ bounds.filterMap id := List.mem_filterMap.2 ⟨_, mem, effective⟩
      have any : (disjunction? (bounds.filterMap id) .scan).all _ = _ :=
        admits_disjunction? hr regular (List.ne_nil_of_mem hb)
      rw [h, Option.all_some] at any
      exact any.trans (List.any_eq_true.2 ⟨b, hb, admits b (bound_of_effective? effective)⟩)

end Projection

/-! ### Projections -/

/-- Constraints are projected one by one. -/
theorem projections_eq_map (col : Column) (cs : List Constraint) :
    projections col cs = cs.map fun c =>
      ⟨c.usedColumns, c.isContradiction, onColumn col c⟩ := by
  induction cs with
  | nil => simp only [projections, List.map_nil]
  | cons c cs ih => simp only [projections, List.map_cons, ih]

/-- Constraints are projected on several columns one by one. -/
theorem projectionsOn_eq_map (cols : ColumnSet) (cs : List Constraint) :
    projectionsOn cols cs = cs.map fun c =>
      ⟨c.usedColumns, c.isContradiction, onColumns cols c⟩ := by
  induction cs with
  | nil => simp only [projectionsOn, List.map_nil]
  | cons c cs ih => simp only [projectionsOn, List.map_cons, ih]

/-- Whether no negation outside of other negations speaks of one column only. -/
inductive Spread : Constraint → Prop
  | interval (i : Interval) : Spread (interval i)
  | conjunction {parts : List Constraint} {strategy : LookupStrategy}
      (spread : ∀ p ∈ parts, Spread p) :
    Spread (conjunction parts strategy)
  | disjunction {parts : List Constraint} {strategy : LookupStrategy}
      (spread : ∀ p ∈ parts, Spread p) :
    Spread (disjunction parts strategy)
  | negation {c : Constraint} (columns : c.uses.card ≠ 1) : Spread (negation c)

/-- A conjunction implies its parts. -/
theorem implies_of_mem_conjunction {p : Constraint} (hp : p ∈ cs) (r : Row)
    (h : (conjunction cs strategy).admits r = true) : p.admits r = true := by
  rw [admits_conjunction] at h
  exact List.all_eq_true.1 h p hp

/-- What a part of a disjunction contributes to a projection, in a row that the part admits. -/
theorem exists_projection_of_disjunction {f : Constraint → Option Constraint}
    (parts : ∀ p ∈ cs, ∀ b ∈ f p, p.Follows Γ S b) {r : Row} (hr : r.HasTypes Γ)
    (h : (disjunction cs strategy).admits r = true) :
    ∃ p ∈ cs.map fun c => (⟨c.usedColumns, c.isContradiction, f c⟩ : Projection),
      p.contradiction = false ∧ ∀ b ∈ p.bound, b.admits r = true := by
  rw [admits_disjunction] at h
  obtain ⟨p, hp, admits⟩ := List.any_eq_true.1 h
  refine ⟨_, List.mem_map.2 ⟨p, hp, rfl⟩, ?_, fun b hb => (parts p hp b hb).admits r hr admits⟩
  by_contra contradiction
  rw [admits_of_isContradiction (by simpa using contradiction)] at admits
  cases admits

/-- What a constraint says about a column follows from it. -/
theorem onColumn_spec {col : Column} : ∀ {c d : Constraint}, c.Regular Γ → c.Spread →
    onColumn col c = some d → c.Follows Γ {col.id} d
  | interval i, d, regular, _, h => by
    unfold onColumn at h
    split at h
    · rename_i same
      obtain rfl := Option.some.inj h
      exact ⟨regular, by simp [Column.beq_iff.1 same], fun _ _ => id⟩
    · cases h
  | conjunction parts strategy, d, .conjunction regular, .conjunction spread, h => by
    have ih (p : Constraint) (hp : p ∈ parts) (b : Constraint) (hb : b ∈ onColumn col p) :
        p.Follows Γ {col.id} b := onColumn_spec (regular p hp) (spread p hp) hb
    have each : ∀ p ∈ projections col parts, ∀ b ∈ p.bound,
        (conjunction parts strategy).Follows Γ {col.id} b := by
      rw [projections_eq_map]
      intro p hp b hb
      obtain ⟨c, hc, rfl⟩ := List.mem_map.1 hp
      exact (ih c hc b hb).of_implies fun r _ => implies_of_mem_conjunction hc r
    unfold onColumn at h
    split at h
    · cases h
    · refine Projection.follows_of_conjoin (fun p hp => each p ?_) h
      rcases List.mem_append.1 hp with hp | hp
      · exact LookupStrategy.mem_of_mem_select hp
      · exact (List.mem_filter.1 hp).1
  | disjunction parts strategy, d, .disjunction regular _, .disjunction spread, h => by
    have ih (p : Constraint) (hp : p ∈ parts) (b : Constraint) (hb : b ∈ onColumn col p) :
        p.Follows Γ {col.id} b := onColumn_spec (regular p hp) (spread p hp) hb
    unfold onColumn at h
    split at h
    · cases h
    · rw [projections_eq_map] at h
      refine Projection.follows_of_disjoin (fun p hp b hb => ?_)
        (fun r hr => exists_projection_of_disjunction ih hr) h
      obtain ⟨c, hc, rfl⟩ := List.mem_map.1 hp
      exact ⟨(ih c hc b hb).regular, (ih c hc b hb).uses⟩
  | negation c, d, _, .negation columns, h => by
    unfold onColumn at h
    split at h
    · rename_i single
      obtain ⟨one, -⟩ := Bool.and_eq_true_iff.1 single
      exact absurd (c.usedColumns.size_eq_card.symm.trans (beq_iff_eq.1 one)) columns
    · cases h

/-- What a constraint says about some columns follows from it. -/
theorem onColumns_spec {cols : ColumnSet} {c d : Constraint} (regular : c.Regular Γ)
    (h : onColumns cols c = some d) : c.Follows Γ cols.idSet d := by
  induction regular generalizing d with
  | @interval i regular =>
    unfold onColumns at h
    split at h
    · rename_i inside
      obtain rfl := Option.some.inj h
      exact ⟨.interval regular, by simpa [ColumnSet.contains] using inside, fun _ _ => id⟩
    · cases h
  | conjunction _ ih =>
    unfold onColumns at h
    rw [projectionsOn_eq_map] at h
    refine Projection.follows_of_conjoin (fun p hp b hb => ?_) h
    obtain ⟨c, hc, rfl⟩ := List.mem_map.1 (List.mem_filter.1 hp).1
    exact (ih c hc hb).of_implies fun r _ => implies_of_mem_conjunction hc r
  | disjunction _ _ ih =>
    unfold onColumns at h
    rw [projectionsOn_eq_map] at h
    refine Projection.follows_of_disjoin (fun p hp b hb => ?_)
      (fun r hr => exists_projection_of_disjunction (fun c hc b hb => ih c hc hb) hr) h
    obtain ⟨c, hc, rfl⟩ := List.mem_map.1 hp
    exact ⟨(ih c hc hb).regular, (ih c hc hb).uses⟩
  | negation regular =>
    unfold onColumns at h
    split at h
    · rename_i inside
      obtain rfl := Option.some.inj h
      exact ⟨.negation regular,
        uses_negation.trans_subset (ColumnSet.isSubset_iff.1 inside), fun _ _ => id⟩
    · cases h

end Constraint

/-! ### Values that are the same

Values are the same when they are compared as equal, nulls being the same value. On the values
of one type this is an equivalence, and a constraint cannot tell such values apart.
-/

section Agreement

variable {τ : DataType} {Γ : Nat → DataType}

/-! ### Values -/

namespace Value

variable {x y z : Value}

/-- Values of one type are the same if they have the same place. -/
theorem same_iff (s : Scale τ) (hx : x.HasType τ) (hy : y.HasType τ) :
    x.same y = true ↔ x.map s.place = y.map s.place := by
  cases x with
  | none => cases y <;> simp [same]
  | some a =>
    cases y with
    | none => simp [same]
    | some b => simp [same, s.compare_eq_eq (hx a rfl) (hy b rfl)]

/-- A value is the same as itself. -/
theorem same_self (x : Value) : x.same x = true := by
  cases x with
  | none => rfl
  | some a =>
    have typed : Value.HasType a.type (some a) := fun d hd => by
      obtain rfl := Option.some.inj hd
      rfl
    exact (same_iff a.type.scale typed typed).2 rfl

/-- Being the same is symmetric for values of one type. -/
theorem same_symm (hx : x.HasType τ) (hy : y.HasType τ) (h : x.same y = true) :
    y.same x = true :=
  (same_iff τ.scale hy hx).2 ((same_iff τ.scale hx hy).1 h).symm

/-- Being the same is transitive for values of one type. -/
theorem same_trans (hx : x.HasType τ) (hy : y.HasType τ) (hz : z.HasType τ)
    (h : x.same y = true) (h' : y.same z = true) : x.same z = true :=
  (same_iff τ.scale hx hz).2
    (((same_iff τ.scale hx hy).1 h).trans ((same_iff τ.scale hy hz).1 h'))

end Value

/-! ### Constraints -/

/-- A range contains both or none of two values at one place. -/
theorem Range.contains_congr (s : Scale τ) {r : Range} (hr : r.HasType τ) {d e : Datum}
    (hd : d.HasType τ) (he : e.HasType τ) (same : s.place d = s.place e) :
    r.contains d = r.contains e := by
  have before (b : Bound) : b.Before s d ↔ b.Before s e := by
    cases b <;> simp only [Bound.Before, same]
  have after (b : Bound) : b.After s d ↔ b.After s e := by
    cases b <;> simp only [Bound.After, same]
  rw [Bool.eq_iff_iff, contains_iff s hr hd, contains_iff s hr he, before, after]

/-- An interval does not tell values apart that are the same. -/
theorem Interval.admits_congr {i : Interval} (regular : i.Regular τ) {x y : Value}
    (hx : x.HasType τ) (hy : y.HasType τ) (same : x.same y = true) :
    i.admits x = i.admits y := by
  cases x with
  | none =>
    cases y with
    | none => rfl
    | some b => cases same
  | some a =>
    cases y with
    | none => cases same
    | some b =>
      have place : τ.scale.place a = τ.scale.place b :=
        Option.some.inj ((Value.same_iff τ.scale hx hy).1 same)
      have each (r : Range) (hr : r ∈ i.ranges) : r.contains a = r.contains b :=
        Range.contains_congr τ.scale (regular.typed r hr) (hx a rfl) (hy b rfl) place
      rw [Bool.eq_iff_iff]
      simp only [admits, Range.admitted_iff]
      exact exists_congr fun r => and_congr_right fun hr => by rw [each r hr]

namespace Constraint

/-- A constraint admits both or none of two rows if each interval on its columns does. -/
theorem admits_congr_of_intervals {c : Constraint} (regular : c.Regular Γ) {r s : Row}
    (intervals : ∀ i : Interval, i.Regular (Γ i.column.id) → i.column.id ∈ c.uses →
      i.admits (r i.column.id) = i.admits (s i.column.id)) : c.admits r = c.admits s := by
  induction regular with
  | @interval i regular =>
    rw [admits_interval, admits_interval]
    exact intervals i regular (by simp)
  | @conjunction parts strategy _ ih =>
    have each : ∀ p ∈ parts, p.admits r = p.admits s := fun p hp => ih p hp fun i regular hi =>
      intervals i regular (mem_uses_conjunction.2 ⟨p, hp, hi⟩)
    rw [admits_conjunction, admits_conjunction, Bool.eq_iff_iff, List.all_eq_true,
      List.all_eq_true]
    exact forall₂_congr fun p hp => by rw [each p hp]
  | @disjunction parts strategy _ _ ih =>
    have each : ∀ p ∈ parts, p.admits r = p.admits s := fun p hp => ih p hp fun i regular hi =>
      intervals i regular (mem_uses_disjunction.2 ⟨p, hp, hi⟩)
    rw [admits_disjunction, admits_disjunction, Bool.eq_iff_iff, List.any_eq_true,
      List.any_eq_true]
    exact exists_congr fun p => and_congr_right fun hp => by rw [each p hp]
  | negation _ ih =>
    rw [admits_negation, admits_negation, ih fun i regular hi =>
      intervals i regular (uses_negation ▸ hi)]

/-- A constraint admits both or none of two rows that agree on the columns that
it speaks of. -/
theorem admits_congr {c : Constraint} (regular : c.Regular Γ) {r s : Row} (hr : r.HasTypes Γ)
    (hs : s.HasTypes Γ) (agree : ∀ i ∈ c.uses, (r i).same (s i) = true) :
    c.admits r = c.admits s :=
  admits_congr_of_intervals regular fun _ interval hi =>
    Interval.admits_congr interval (hr _) (hs _) (agree _ hi)

end Constraint

end Agreement

end QueryOptimizer
