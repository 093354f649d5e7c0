import Mathlib.Data.Finset.Image
import QueryOptimizer.Proofs.Constraint.Algebra
import QueryOptimizer.Proofs.Result
import QueryOptimizer.Proofs.Semantics.Value

/-!
# Constraints under other columns

A constraint with its columns replaced admits a row if the constraint admits the row that is
read back through the replacement, whether or not columns coincide. The copy keeps the parts of
the constraint as they are. If columns coincide, it need not be in normal form, and then a
projection may say too much: a negation that speaks of one column only is projected by negating
what is known of its part.

## Main results

* `Constraint.admits_rename`: a copy admits what the constraint admits of the
  row that is read back.
* `Constraint.normal_rename`: a copy is in normal form if no two columns coincide.
* `Constraint.rename_built`: so projections of a copy follow from it unless a negation has come
  to speak of one column only.
-/

namespace QueryOptimizer

variable {Γ : Nat → DataType} {map : ColumnMap} {strict : Bool}

/-- The copy of an interval is on the column that stands in for its own. -/
theorem Interval.rename_eq_ok {i j : Interval} (h : i.rename map strict = .ok j) :
    ∃ col : Column, col.id = map.idFor i.column.id ∧
      j = .ofRanges col i.ranges i.includeNull := by
  unfold rename at h
  cases found : map.get? i.column with
  | some col =>
    rw [found] at h
    refine ⟨col, ?_, (Except.ok.inj h).symm⟩
    have found : map.entries.lookup i.column.id = some col := found
    simp [ColumnMap.idFor, found]
  | none =>
    rw [found] at h
    dsimp only at h
    split at h
    · cases h
    · refine ⟨i.column, ?_, (Except.ok.inj h).symm⟩
      have found : map.entries.lookup i.column.id = none := found
      simp [ColumnMap.idFor, found]

namespace Constraint

variable {c copy : Constraint} {cs copies : List Constraint}

/-- Constraints are renamed one by one. -/
theorem renameList_eq_ok : ∀ {cs copies : List Constraint},
    renameList map strict cs = .ok copies ↔
      List.Forall₂ (fun c copy => rename map strict c = .ok copy) cs copies
  | [], copies => by
    rw [renameList, OptResult.pure_eq_ok]
    exact ⟨fun h => h ▸ .nil, fun h => by cases h; rfl⟩
  | c :: cs, copies => by
    simp only [renameList, OptResult.bind_eq_ok, OptResult.pure_eq_ok, renameList_eq_ok]
    constructor
    · rintro ⟨d, hd, ds, hds, rfl⟩
      exact .cons hd hds
    · rintro (_ | ⟨hd, hds⟩)
      exact ⟨_, hd, _, hds, rfl⟩

/-- There is a copy if every column that is used has one that stands in for it. -/
theorem exists_rename : ∀ {c : Constraint},
    (∀ i ∈ c.uses, (map.entries.lookup i).isSome = true) →
      ∃ copy, rename map strict c = .ok copy
  | interval i, covers => by
    obtain ⟨col, found⟩ := Option.isSome_iff_exists.1 (covers i.column.id (by simp))
    have found : map.get? i.column = some col := found
    simp [rename, Interval.rename, found]
  | conjunction parts _, covers => by
    have each (p : Constraint) (hp : p ∈ parts) : ∃ copy, rename map strict p = .ok copy :=
      exists_rename fun i hi => covers i (mem_uses_conjunction.2 ⟨p, hp, hi⟩)
    obtain ⟨copies, all⟩ := exists_forall₂ each
    exact ⟨_, by simp only [rename, renameList_eq_ok.2 all]; rfl⟩
  | disjunction parts _, covers => by
    have each (p : Constraint) (hp : p ∈ parts) : ∃ copy, rename map strict p = .ok copy :=
      exists_rename fun i hi => covers i (mem_uses_disjunction.2 ⟨p, hp, hi⟩)
    obtain ⟨copies, all⟩ := exists_forall₂ each
    exact ⟨_, by simp only [rename, renameList_eq_ok.2 all]; rfl⟩
  | negation c, covers => by
    obtain ⟨copy, made⟩ := exists_rename (c := c) fun i hi => covers i (by simpa using hi)
    exact ⟨_, by simp only [rename, made]; rfl⟩
where
  exists_forall₂ {parts : List Constraint}
    (each : ∀ p ∈ parts, ∃ copy, rename map strict p = .ok copy) :
      ∃ copies, List.Forall₂ (fun c copy => rename map strict c = .ok copy) parts copies := by
    induction parts with
    | nil => exact ⟨[], .nil⟩
    | cons p ps ih =>
      obtain ⟨first, rest⟩ := List.forall_mem_cons.1 each
      obtain ⟨copy, made⟩ := first
      obtain ⟨copies, all⟩ := ih rest
      exact ⟨copy :: copies, .cons made all⟩

/-! ### What copies admit -/

/-- Whether a constraint is a copy of another one, under columns of the same types. -/
structure Copies (Γ : Nat → DataType) (map : ColumnMap) (c copy : Constraint) : Prop where
  regular : copy.Regular Γ
  uses : copy.uses = c.uses.image map.idFor
  admits : ∀ r : Row, r.HasTypes Γ → copy.admits r = c.admits (r.under map)

namespace Copies

/-- All copies admit a row if all constraints admit the row that is read
under the new names. -/
theorem all_eq (h : List.Forall₂ (Copies Γ map) cs copies) {r : Row} (hr : r.HasTypes Γ) :
    copies.all (Constraint.admits r) = cs.all (Constraint.admits (r.under map)) := by
  induction h with
  | nil => rfl
  | cons first _ ih => rw [List.all_cons, List.all_cons, first.admits r hr, ih]

/-- One of the copies admits a row if one of the constraints admits the row that is
read under the new names. -/
theorem any_eq (h : List.Forall₂ (Copies Γ map) cs copies) {r : Row} (hr : r.HasTypes Γ) :
    copies.any (Constraint.admits r) = cs.any (Constraint.admits (r.under map)) := by
  induction h with
  | nil => rfl
  | cons first _ ih => rw [List.any_cons, List.any_cons, first.admits r hr, ih]

/-- The copies use the new names of what the constraints use. -/
theorem exists_uses (h : List.Forall₂ (Copies Γ map) cs copies) {i : Nat} :
    (∃ d ∈ copies, i ∈ d.uses) ↔ ∃ j, (∃ c ∈ cs, j ∈ c.uses) ∧ map.idFor j = i := by
  induction h with
  | nil => simp
  | cons first _ ih =>
    simp only [List.exists_mem_cons_iff, ih, first.uses, Finset.mem_image,
      or_and_right, exists_or]

/-- Copies are regular. -/
theorem regular_of_mem (h : List.Forall₂ (Copies Γ map) cs copies) :
    ∀ d ∈ copies, d.Regular Γ := by
  induction h with
  | nil => simp
  | cons first _ ih => exact List.forall_mem_cons.2 ⟨first.regular, ih⟩

end Copies

mutual

/-- A renamed constraint is a copy. -/
theorem copies_of_rename : ∀ {c copy : Constraint}, rename map strict c = .ok copy →
    c.Regular (fun i => Γ (map.idFor i)) → Copies Γ map c copy
  | interval i, _, made, .interval regular => by
    obtain ⟨j, hj, rfl⟩ := by
      simpa only [rename, OptResult.bind_eq_ok, OptResult.pure_eq_ok] using made
    obtain ⟨col, hcol, rfl⟩ := Interval.rename_eq_ok hj
    have regular' := (Interval.ofRanges_spec col i.includeNull regular.typed).1
    refine ⟨.interval (hcol ▸ regular'), ?_, fun r hr => ?_⟩
    · rw [uses_interval, uses_interval, Finset.image_singleton, ← hcol]
      rfl
    · simp only [admits_interval, Row.under]
      rw [show (Interval.ofRanges col i.ranges i.includeNull).column = col from rfl, hcol]
      exact Interval.admits_ofRanges col regular (hr _)
  | conjunction parts strategy, _, made, .conjunction regular => by
    obtain ⟨copies, all, rfl⟩ := by
      simpa only [rename, OptResult.bind_eq_ok, OptResult.pure_eq_ok] using made
    have all := copies_of_renameList all regular
    refine ⟨.conjunction (Copies.regular_of_mem all), ?_, fun r hr => ?_⟩
    · ext i
      simp only [mem_uses_conjunction, Copies.exists_uses all, Finset.mem_image]
    · simp only [admits_conjunction, Copies.all_eq all hr]
  | disjunction parts strategy, _, made, .disjunction regular nonempty => by
    obtain ⟨copies, all, rfl⟩ := by
      simpa only [rename, OptResult.bind_eq_ok, OptResult.pure_eq_ok] using made
    have all := copies_of_renameList all regular
    have some' : copies ≠ [] := fun none => nonempty (List.length_eq_zero_iff.1 (by
      rw [all.length_eq, none, List.length_nil]))
    refine ⟨.disjunction (Copies.regular_of_mem all) some', ?_, fun r hr => ?_⟩
    · ext i
      simp only [mem_uses_disjunction, Copies.exists_uses all, Finset.mem_image]
    · simp only [admits_disjunction, Copies.any_eq all hr]
  | negation c, _, made, .negation regular => by
    obtain ⟨copy, made', rfl⟩ := by
      simpa only [rename, OptResult.bind_eq_ok, OptResult.pure_eq_ok] using made
    have copies := copies_of_rename made' regular
    exact ⟨.negation copies.regular, by simp only [uses_negation, copies.uses], fun r hr => by
      simp only [admits_negation, copies.admits r hr]⟩

/-- Renamed constraints are copies. -/
theorem copies_of_renameList :
    ∀ {cs copies : List Constraint}, renameList map strict cs = .ok copies →
    (∀ c ∈ cs, c.Regular fun i => Γ (map.idFor i)) → List.Forall₂ (Copies Γ map) cs copies
  | [], _, made, _ => by
    rw [renameList, OptResult.pure_eq_ok] at made
    exact made ▸ .nil
  | c :: cs, _, made, regular => by
    obtain ⟨first, rest⟩ := List.forall_mem_cons.1 regular
    obtain ⟨copy, hcopy, copies, hcopies, rfl⟩ := by
      simpa only [renameList, OptResult.bind_eq_ok, OptResult.pure_eq_ok] using made
    exact .cons (copies_of_rename hcopy first) (copies_of_renameList hcopies rest)

end

/-- A copy admits what the constraint admits of the row that is read back. -/
theorem admits_rename (made : rename map strict c = .ok copy)
    (regular : c.Regular fun i => Γ (map.idFor i)) {r : Row} (hr : r.HasTypes Γ) :
    copy.admits r = c.admits (r.under map) :=
  (copies_of_rename made regular).admits r hr

/-! ### Columns that stay apart -/

/-- Whether a copy is of the same kind: an interval on the column that stands
in, or no interval. -/
structure Resembles (map : ColumnMap) (c copy : Constraint) : Prop where
  compound : copy.isCompound = c.isCompound
  interval : ∀ j, copy = .interval j → ∃ i, c = .interval i ∧
    j.column.id = map.idFor i.column.id

/-- A renamed constraint resembles what was renamed. -/
theorem resembles_of_rename (made : rename map strict c = .ok copy) :
    Resembles map c copy := by
  cases c with
  | interval i =>
    obtain ⟨j, hj, rfl⟩ := by
      simpa only [rename, OptResult.bind_eq_ok, OptResult.pure_eq_ok] using made
    obtain ⟨col, hcol, rfl⟩ := Interval.rename_eq_ok hj
    refine ⟨rfl, fun j hj => ⟨i, rfl, ?_⟩⟩
    obtain rfl := interval.inj hj
    exact hcol
  | conjunction | disjunction | negation =>
    obtain ⟨copies, -, rfl⟩ := by
      simpa only [rename, OptResult.bind_eq_ok, OptResult.pure_eq_ok] using made
    exact ⟨rfl, fun j hj => by cases hj⟩

/-- Copies of separate constraints are separate if their columns do not coincide. -/
theorem separate_of_renameList (made : renameList map strict cs = .ok copies)
    (separate : cs.Pairwise Separate) {S : Finset Nat} (within : ∀ c ∈ cs, c.uses ⊆ S)
    (apart : Set.InjOn map.idFor S) : copies.Pairwise Separate := by
  induction cs generalizing copies with
  | nil =>
    cases renameList_eq_ok.1 made
    exact .nil
  | cons c cs ih =>
    obtain ⟨first, rest⟩ := List.pairwise_cons.1 separate
    obtain ⟨hc, hcs⟩ := List.forall_mem_cons.1 within
    obtain ⟨copy, hcopy, copies, hcopies, rfl⟩ := by
      simpa only [renameList, OptResult.bind_eq_ok, OptResult.pure_eq_ok] using made
    refine List.pairwise_cons.2 ⟨fun d hd k l hk hl same => ?_, ih hcopies rest hcs⟩
    obtain ⟨i, rfl, hi⟩ := (resembles_of_rename hcopy).interval k hk
    obtain ⟨n, hn, rfl⟩ := List.mem_iff_getElem.1 hd
    have all := renameList_eq_ok.1 hcopies
    have hn' : n < cs.length := all.length_eq ▸ hn
    obtain ⟨j, hj, same'⟩ := (resembles_of_rename (all.get hn' hn)).interval l hl
    have mem : cs[n] ∈ cs := List.getElem_mem hn'
    refine first _ mem i j rfl hj (apart (hc (by simp)) (hcs _ mem ?_) ?_)
    · simp only [List.get_eq_getElem] at hj
      simp [hj]
    · rw [← hi, same, same']

mutual

/-- A copy is in normal form if no two columns coincide. -/
theorem normal_rename : ∀ {c copy : Constraint}, rename map strict c = .ok copy →
    c.Normal (fun i => Γ (map.idFor i)) → Set.InjOn map.idFor c.uses → copy.Normal Γ
  | interval i, copy, made, normal, _ => by
    have regular := (copies_of_rename made normal.regular).regular
    obtain ⟨j, -, rfl⟩ := by
      simpa only [rename, OptResult.bind_eq_ok, OptResult.pure_eq_ok] using made
    cases regular with | interval regular => exact .interval regular
  | conjunction parts strategy, _, made, .conjunction normal separate two, apart => by
    obtain ⟨copies, all, rfl⟩ := by
      simpa only [rename, OptResult.bind_eq_ok, OptResult.pure_eq_ok] using made
    have within (p : Constraint) (hp : p ∈ parts) :
        p.uses ⊆ (conjunction parts strategy).uses :=
      fun i hi => mem_uses_conjunction.2 ⟨p, hp, hi⟩
    refine .conjunction (normal_renameList all normal fun p hp => apart.mono (within p hp))
      (separate_of_renameList all separate within apart) ?_
    rwa [← (renameList_eq_ok.1 all).length_eq]
  | disjunction parts strategy, _, made, .disjunction normal separate two, apart => by
    obtain ⟨copies, all, rfl⟩ := by
      simpa only [rename, OptResult.bind_eq_ok, OptResult.pure_eq_ok] using made
    have within (p : Constraint) (hp : p ∈ parts) :
        p.uses ⊆ (disjunction parts strategy).uses :=
      fun i hi => mem_uses_disjunction.2 ⟨p, hp, hi⟩
    refine .disjunction (normal_renameList all normal fun p hp => apart.mono (within p hp))
      (separate_of_renameList all separate within apart) ?_
    rwa [← (renameList_eq_ok.1 all).length_eq]
  | negation c, _, made, .negation normal compound, apart => by
    obtain ⟨copy, made', rfl⟩ := by
      simpa only [rename, OptResult.bind_eq_ok, OptResult.pure_eq_ok] using made
    rw [uses_negation] at apart
    exact .negation (normal_rename made' normal apart)
      ((resembles_of_rename made').compound.trans compound)

/-- Constraints in normal form stay so when different columns get different names. -/
theorem normal_renameList :
    ∀ {cs copies : List Constraint}, renameList map strict cs = .ok copies →
    (∀ c ∈ cs, c.Normal fun i => Γ (map.idFor i)) → (∀ c ∈ cs, Set.InjOn map.idFor c.uses) →
    ∀ d ∈ copies, d.Normal Γ
  | [], _, made, _, _ => by
    cases renameList_eq_ok.1 made
    simp
  | c :: cs, _, made, normal, apart => by
    obtain ⟨first, rest⟩ := List.forall_mem_cons.1 normal
    obtain ⟨apartFirst, apartRest⟩ := List.forall_mem_cons.1 apart
    obtain ⟨copy, hcopy, copies, hcopies, rfl⟩ := by
      simpa only [renameList, OptResult.bind_eq_ok, OptResult.pure_eq_ok] using made
    exact List.forall_mem_cons.2
      ⟨normal_rename hcopy first apartFirst, normal_renameList hcopies rest apartRest⟩

end

/-! ### Constraints that are built -/

/-- If there is a column for each column of a constraint that is built, of the same type, then
there is a copy, and it admits a row if the constraint admits the row that is read back. What
the copy says about a column follows from it unless a negation has come to speak of one column
only, which it does not if no two columns coincide. -/
theorem rename_built (built : c.Built fun i => Γ (map.idFor i))
    (covers : ∀ i ∈ c.uses, (map.entries.lookup i).isSome = true) (strict : Bool) :
    ∃ copy, rename map strict c = .ok copy ∧
      (∀ r : Row, r.HasTypes Γ → (copy.admits r = true ↔ c.admits (r.under map) = true)) ∧
      (copy.Spread → ∀ r : Row, r.HasTypes Γ → copy.admits r = true →
        ∀ col, (onColumn col copy).all (admits r) = true) ∧
      (Set.InjOn map.idFor c.uses → copy.Spread) := by
  obtain ⟨copy, made⟩ : ∃ copy, rename map strict c = .ok copy := exists_rename covers
  have copies := copies_of_rename made built.normal.regular
  refine ⟨copy, made, fun r hr => by rw [copies.admits r hr], fun spread r hr h col => ?_,
    fun apart => (normal_rename made built.normal apart).spread⟩
  rw [Option.all_eq_true]
  exact fun d hd => (onColumn_spec copies.regular spread hd).admits r hr h

/-- Two columns that coincide do not keep a constraint spread: here the copy admits every value
of its column, and what it says about the column leaves out seven. -/
example :
    let seven : Datum := .integer .int64 7
    let a : Column := ⟨0, .integer .int64, -1, "a", .computed⟩
    let b : Column := ⟨1, .integer .int64, -1, "b", .computed⟩
    let low : Constraint := .interval ⟨a, [.below (.integer .int64 0) true], false⟩
    let high : Constraint := .interval ⟨b, [.above (.integer .int64 0) false], true⟩
    let point : Constraint := .interval ⟨a, [.point seven], false⟩
    let c :=
      negation (.conjunction [.negation (.disjunction [low, high] .index), point] .index)
    ∃ copy, rename ⟨[(1, a)]⟩ false c = .ok copy ∧ copy.admits (fun _ => some seven) = true ∧
      (onColumn a copy).all (admits fun _ => some seven) = false :=
  ⟨_, rfl, rfl, rfl⟩

end Constraint

end QueryOptimizer
