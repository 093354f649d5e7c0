import QueryOptimizer.Proofs.Constraint.Property
import QueryOptimizer.Proofs.Derivation.Output
import QueryOptimizer.Proofs.Semantics.Domain

/-!
# Derived constraints

Every row of an operator has the derived constraint property, when the rows of its inputs have
theirs. A property may speak of parameters besides the columns of the operator: a row keeps the
values of its parameters, so what was known of them below is known of them above. Columns that
are new above must not be spoken of below, which scoping rules out.

## Main results

* `JoinType.constraint_spec`, `SetOperation.inputConstraint_spec`: joins and
  inputs of set operations.
* `LogicalOperator.constrained_of_derive`: the constraint of every operator.
-/

namespace QueryOptimizer

variable {K : Type} {Γ : Nat → DataType} {S A B : Finset Nat}
  {I : Interpretation} {db : Database}
  {catalog : Catalog K}

/-- Typed rows put together are typed. -/
theorem Row.HasTypes.beside {l r : Row} (hl : l.HasTypes Γ) (hr : r.HasTypes Γ)
    (right : Finset Nat) : (l.beside right r).HasTypes Γ := by
  intro i
  unfold Row.beside
  split
  · exact hr i
  · exact hl i

/-- A typed row with its values under new names of the same types is typed. -/
theorem Row.HasTypes.assign_renamed {r : Row} (hr : r.HasTypes Γ) {source target : List Column}
    (types : ∀ p ∈ source.zip target, Γ p.1.id = Γ p.2.id) :
    (r.assign target (r.tuple source)).HasTypes Γ := by
  have within : Row.Within (fun i => {d | d.HasType (Γ i)}) r := hr
  exact within.assign (within.tuple_renamed fun p hp => by rw [types p hp])

/-- A row within domains of typed values is typed. -/
theorem Row.Within.hasTypes {D : Domains} {r : Row} (h : r.Within D) (le : D ≤ .ofTypes Γ) :
    r.HasTypes Γ :=
  fun i d hd => (le i (h i d hd)).type

/-! ### Columns of one type -/

/-- The normal form depends on the types of the columns that a constraint speaks of. -/
theorem Constraint.Normal.congr {Γ' : Nat → DataType} {c : Constraint} (h : c.Normal Γ)
    (same : ∀ i ∈ c.uses, Γ i = Γ' i) : c.Normal Γ' := by
  induction h with
  | @interval i regular => exact .interval (same i.column.id (by simp) ▸ regular)
  | conjunction _ separate two ih =>
    exact .conjunction
      (fun p hp => ih p hp fun i hi => same i (mem_uses_conjunction.2 ⟨p, hp, hi⟩))
      separate two
  | disjunction _ separate two ih =>
    exact .disjunction
      (fun p hp => ih p hp fun i hi => same i (mem_uses_disjunction.2 ⟨p, hp, hi⟩))
      separate two
  | negation _ compound ih =>
    exact .negation (ih fun i hi => same i (uses_negation ▸ hi)) compound

/-- Only the types of the columns that a property speaks of count. -/
theorem ConstraintProperty.About.congr {Γ' : Nat → DataType} {p : ConstraintProperty}
    (h : p.About Γ S) (same : ∀ i ∈ S, Γ i = Γ' i) : p.About Γ' S where
  classes cls hcls := by
    obtain ⟨within, types⟩ := h.classes cls hcls
    refine ⟨within, fun i hi j hj => ?_⟩
    show Γ' i = Γ' j
    rw [← same i (within hi), ← same j (within hj)]
    exact types i hi j hj
  constraint c hc := by
    obtain ⟨normal, within⟩ := h.constraint c hc
    exact ⟨normal.congr fun i hi => same i (within hi), within⟩

/-! ### Stored tables and literal rows -/

/-- Whether stored rows have a value in each column that cannot be null. -/
def Table.RespectNullability (cols : List Column) (rows : Multiset Tuple) : Prop :=
  ∀ t ∈ rows, ∀ c ∈ cols, c.isNullable = false → Row.assign (fun _ => none) cols t c.id ≠ none

namespace ConstraintProperty

variable {r : Row}

/-- Whether constraints are regular intervals on some of the given columns. -/
def AreIntervals (Γ : Nat → DataType) (S : Finset Nat) (cs : List Constraint) : Prop :=
  ∀ c ∈ cs, ∃ i, c = .interval i ∧ i.Regular (Γ i.column.id) ∧ i.column.id ∈ S

/-- The property of classes and of intervals that each say something of a column. -/
theorem of_intervals {classes : List ColumnSet} {cs : List Constraint}
    (strategy : LookupStrategy)
    (linked : ∀ cls ∈ classes, cls.idSet ⊆ S ∧ cls.Linked fun i j => Γ i = Γ j)
    (intervals : AreIntervals Γ S cs) :
    let p := ofClasses classes (Constraint.conjunction? cs strategy)
    p.About Γ S ∧ ∀ r : Row, r.HasTypes Γ →
    (∀ cls ∈ classes, cls.Linked fun i j => (r i).same (r j) = true) →
      (∀ i, .interval i ∈ cs → i.admits (r i.column.id) = true) → p.Holds r := by
  have each : ∀ c ∈ cs, c.Normal Γ ∧ c.uses ⊆ S := by
    intro c hc
    obtain ⟨i, rfl, regular, inside⟩ := intervals c hc
    exact ⟨.interval regular, by simpa using inside⟩
  have whole : About Γ S ⟨classes, Constraint.conjunction? cs strategy⟩ :=
    .conjunction linked each
  refine ⟨whole.ofClasses, fun r hr same admits => .ofClasses whole hr
    (.conjunction hr (fun c hc => (each c hc).1) same fun c hc => ?_)⟩
  obtain ⟨i, rfl, -⟩ := intervals c hc
  rw [Constraint.admits_interval]
  exact admits i hc

/-- No classes speak of any columns. -/
theorem noClasses :
    ∀ cls ∈ ([] : List ColumnSet), cls.idSet ⊆ S ∧ cls.Linked fun i j => Γ i = Γ j := by
  simp

/-- Columns that cannot be null are not null. -/
theorem ofNullability_spec (cols : List Column) :
    (ofNullability cols).About Γ (Column.idsOf cols) ∧
    ∀ r : Row, r.HasTypes Γ → (∀ c ∈ cols, c.isNullable = false → r c.id ≠ none) →
      (ofNullability cols).Holds r := by
  have full (c : Column) : ∀ t ∈ [Range.full], t.HasType (Γ c.id) := by
    intro t ht
    obtain rfl := List.mem_singleton.1 ht
    exact ⟨Bound.hasType_unbounded, Bound.hasType_unbounded⟩
  have spec (c : Column) := Interval.ofRanges_spec c false (full c)
  have intervals : AreIntervals Γ (Column.idsOf cols)
      ((cols.filter (!·.isNullable)).map fun c => .interval (.notNull c)) := by
    intro d hd
    obtain ⟨c, hc, rfl⟩ := List.mem_map.1 hd
    exact ⟨_, rfl, (spec c).1, Column.mem_idsOf.2 ⟨c, (List.mem_filter.1 hc).1, rfl⟩⟩
  obtain ⟨about, holds⟩ := of_intervals .index noClasses intervals
  refine ⟨about, fun r hr notNull => holds r hr (by simp) fun i hi => ?_⟩
  obtain ⟨c, hc, made⟩ := List.mem_map.1 hi
  obtain rfl := Constraint.interval.inj made
  obtain ⟨hc, fixed⟩ := List.mem_filter.1 hc
  change (Interval.notNull c).admits (r c.id) = true
  cases hv : r c.id with
  | none => exact absurd hv (notNull c hc (by simpa using fixed))
  | some d =>
    refine ((spec c).2.2 d (hr c.id d hv)).trans ?_
    simp [Range.admitted, Range.contains, Range.full]

/-- Stored rows have what is known of the columns that cannot be null. -/
theorem ofNullability_holds {cols : List Column} {rows : Multiset Tuple}
    (nullable : Table.RespectNullability cols rows) {env x : Row} (hx : x.HasTypes Γ)
    (mem : x ∈ rows.map (env.assign cols)) : (ofNullability cols).Holds x := by
  obtain ⟨t, ht, rfl⟩ := Multiset.mem_map.1 mem
  refine (ofNullability_spec cols).2 _ hx fun c hc fixed => ?_
  rw [Row.assign_congr env (fun _ => none) (Column.mem_idsOf.2 ⟨c, hc, rfl⟩)]
  exact nullable t ht c hc fixed

/-- A value is in the range of the point that it is. -/
theorem contains_point {τ : DataType} {d : Datum} (hd : d.HasType τ) :
    (Range.point d).contains d = true := by
  have typed : (Range.point d).HasType τ :=
    ⟨Bound.hasType_included.2 hd, Bound.hasType_included.2 hd⟩
  rw [Range.contains_iff τ.scale typed hd]
  simp [Range.point, Bound.Before, Bound.After]

/-- The range of one value has the type of the value. -/
theorem hasType_point {τ : DataType} {d : Datum} (hd : d.HasType τ) :
    (Range.point d).HasType τ :=
  ⟨Bound.hasType_included.2 hd, Bound.hasType_included.2 hd⟩

/-- A column of literal rows has one of its values. -/
theorem literalInterval_spec {c : Column} {values : List Datum}
    (typed : ∀ d ∈ values, d.isNull = false → d.HasType (Γ c.id)) :
    (literalInterval c values).Regular (Γ c.id) ∧
      ∀ d ∈ values, (literalInterval c values).admits d.value = true := by
  have points : ∀ t ∈ (values.filter (!·.isNull)).map Range.point, t.HasType (Γ c.id) := by
    intro t ht
    obtain ⟨d, hd, rfl⟩ := List.mem_map.1 ht
    obtain ⟨hd, value⟩ := List.mem_filter.1 hd
    exact hasType_point (typed d hd (by simpa using value))
  obtain ⟨regular, null, value⟩ := Interval.ofRanges_spec c (values.any (·.isNull)) points
  refine ⟨regular, fun d hd => ?_⟩
  unfold Datum.value
  cases isNull : d.isNull with
  | true =>
    refine null.trans (List.any_eq_true.2 ⟨d, hd, isNull⟩)
  | false =>
    refine (value d (typed d hd isNull)).trans (Range.admitted_iff.2 ⟨Range.point d, ?_, ?_⟩)
    · exact List.mem_map_of_mem (List.mem_filter.2 ⟨hd, by simp [isNull]⟩)
    · exact contains_point (typed d hd isNull)

/-- Each column of literal rows has one of its values. -/
theorem ofValues_spec {v : Values} (distinct : Column.Distinct v.cols)
    (lengths : ∀ row ∈ v.rows, row.length = v.cols.length)
    (typed : ∀ row ∈ v.rows, ∀ p ∈ v.cols.zip row, p.2.isNull = false →
      p.2.HasType (Γ p.1.id)) :
    (ofValues v).About Γ (Column.idsOf v.cols) ∧ ∀ r : Row, r.HasTypes Γ →
      (∃ row ∈ v.rows, ∃ env : Row, r = env.assign v.cols (row.map Datum.value)) →
        (ofValues v).Holds r := by
  have known {n : Nat} {c : Column} (place : v.cols[n]? = some c) {d : Datum}
      (hd : d ∈ v.rows.filterMap (·[n]?)) : d.isNull = false → d.HasType (Γ c.id) := by
    obtain ⟨row, hrow, entry⟩ := List.mem_filterMap.1 hd
    exact typed row hrow (c, d)
      (List.mem_iff_getElem?.2 ⟨n, List.getElem?_zip_eq_some.2 ⟨place, entry⟩⟩)
  have intervals : AreIntervals Γ (Column.idsOf v.cols)
      (v.cols.mapIdx fun n c => .interval (literalInterval c (v.rows.filterMap (·[n]?)))) := by
    intro d hd
    obtain ⟨n, hn, rfl⟩ := List.mem_mapIdx.1 hd
    exact ⟨_, rfl, (literalInterval_spec fun d hd => known (List.getElem?_eq_getElem hn) hd).1,
      Column.mem_idsOf.2 ⟨_, List.getElem_mem hn, rfl⟩⟩
  obtain ⟨about, holds⟩ := of_intervals .scan noClasses intervals
  refine ⟨about, fun r hr => ?_⟩
  rintro ⟨row, hrow, env, rfl⟩
  refine holds _ hr (by simp) fun i hi => ?_
  obtain ⟨n, hn, made⟩ := List.mem_mapIdx.1 hi
  obtain rfl := Constraint.interval.inj made
  have place : v.cols[n]? = some v.cols[n] := List.getElem?_eq_getElem hn
  have hn' : n < row.length := by rwa [lengths row hrow]
  change (literalInterval v.cols[n] _).admits
    (env.assign v.cols (row.map Datum.value) v.cols[n].id) = true
  rw [Row.assign_of_getElem? distinct place, List.getElem?_map, List.getElem?_eq_getElem hn']
  refine (literalInterval_spec fun d hd => known place hd).2 row[n] ?_
  exact List.mem_filterMap.2 ⟨row, hrow, List.getElem?_eq_getElem hn'⟩

end ConstraintProperty

/-! ### Computed columns -/

/-- A computed column has the value that its expression has. -/
theorem Row.assign_definitions {ds : List Definition}
    (distinct : Column.Distinct (Definition.columns ds)) {f : Definition → Value}
    {d : Definition} (hd : d ∈ ds) (r : Row) :
    r.assign (Definition.columns ds) (ds.map f) d.1.id = f d := by
  obtain ⟨n, hn, rfl⟩ := List.getElem_of_mem hd
  have place : (Definition.columns ds)[n]? = some ds[n].1 := by simp [Definition.columns, hn]
  rw [assign_of_getElem? distinct place]
  simp [hn]

/-- Whether a renamed column is of the type of its source, and a literal is of the
type of its column. -/
structure Definition.WellTyped (Γ : Nat → DataType) (d : Definition) : Prop where
  column : ∀ s, d.2 = .column s → Γ s.id = Γ d.1.id
  literal : ∀ v, d.2 = .literal v → v.isNull = false → v.HasType (Γ d.1.id)

namespace ConstraintProperty

/-- A definition by a column makes that column and the new one equal. -/
theorem definitionClass?_eq_some {d : Definition} {cls : ColumnSet}
    (h : definitionClass? d = some cls) : ∃ s, d.2 = .column s ∧ cls = .ofList [d.1, s] := by
  obtain ⟨c, e⟩ := d
  cases e with
  | column s => exact ⟨s, rfl, (Option.some.inj h).symm⟩
  | _ => cases h

/-- A definition by a literal constrains the new column to its value. -/
theorem definitionConstraint?_eq_some {d : Definition} {c : Constraint}
    (h : definitionConstraint? d = some c) : ∃ v, d.2 = .literal v ∧
      c = .interval (if v.isNull then .nullOnly d.1 else .ofRanges d.1 [.point v] false) := by
  obtain ⟨col, e⟩ := d
  cases e with
  | literal v => exact ⟨v, rfl, (Option.some.inj h).symm⟩
  | _ => cases h

/-- A constant column has its value. -/
theorem constant_spec {c : Column} {v : Datum}
    (typed : v.isNull = false → v.HasType (Γ c.id)) :
    let i : Interval := if v.isNull then .nullOnly c else .ofRanges c [.point v] false
    i.Regular (Γ c.id) ∧ i.column = c ∧ i.admits v.value = true := by
  unfold Datum.value
  cases isNull : v.isNull with
  | true =>
    obtain ⟨regular, null, -⟩ :=
      Interval.ofRanges_spec c true (show ∀ r ∈ ([] : List Range), r.HasType (Γ c.id) by simp)
    exact ⟨regular, rfl, null⟩
  | false =>
    obtain ⟨regular, -, value⟩ := Interval.ofRanges_spec c false (show ∀ r ∈ [Range.point v],
      r.HasType (Γ c.id) by simpa using hasType_point (typed isNull))
    refine ⟨regular, rfl, (value v (typed isNull)).trans ?_⟩
    simp [Range.admitted, contains_point (typed isNull)]

/-- Renamed columns agree with their sources, and constant columns have their values. -/
theorem ofDefinitions_spec {ds : List Definition} (typed : ∀ d ∈ ds, d.WellTyped Γ)
    (columns : ∀ d ∈ ds, d.1.id ∈ S ∧ d.2.uses ⊆ S) :
    (ofDefinitions ds).About Γ S ∧ ∀ r : Row, r.HasTypes Γ →
      (∀ d ∈ ds, (∀ s, d.2 = .column s → r d.1.id = r s.id) ∧
        ∀ v, d.2 = .literal v → r d.1.id = v.value) → (ofDefinitions ds).Holds r := by
  have members {c s : Column} {i : Nat} (hi : i ∈ (ColumnSet.ofList [c, s]).idSet) :
      i = c.id ∨ i = s.id := by
    simpa [eq_comm] using hi
  have linked : ∀ cls ∈ ds.filterMap definitionClass?, cls.idSet ⊆ S ∧
      cls.Linked fun i j => Γ i = Γ j := by
    intro cls hcls
    obtain ⟨d, hd, found⟩ := List.mem_filterMap.1 hcls
    obtain ⟨s, hs, rfl⟩ := definitionClass?_eq_some found
    have one := (typed d hd).column s hs
    refine ⟨fun i hi => ?_, fun i hi j hj => ?_⟩
    · rcases members hi with rfl | rfl
      · exact (columns d hd).1
      · exact (columns d hd).2 (by simp [hs])
    · rcases members hi with rfl | rfl <;> rcases members hj with rfl | rfl <;> simp [one]
  have intervals : AreIntervals Γ S (ds.filterMap definitionConstraint?) := by
    intro c hc
    obtain ⟨d, hd, found⟩ := List.mem_filterMap.1 hc
    obtain ⟨v, hv, rfl⟩ := definitionConstraint?_eq_some found
    obtain ⟨regular, place, -⟩ := constant_spec ((typed d hd).literal v hv)
    exact ⟨_, rfl, by rwa [place], by rw [place]; exact (columns d hd).1⟩
  obtain ⟨about, holds⟩ := of_intervals .index linked intervals
  refine ⟨about, fun r hr values => holds r hr (fun cls hcls i hi j hj => ?_) fun i hi => ?_⟩
  · obtain ⟨d, hd, found⟩ := List.mem_filterMap.1 hcls
    obtain ⟨s, hs, rfl⟩ := definitionClass?_eq_some found
    have same : r d.1.id = r s.id := (values d hd).1 s hs
    rcases members hi with rfl | rfl <;> rcases members hj
      with rfl | rfl <;> simp [same, Value.same_self]
  · obtain ⟨d, hd, found⟩ := List.mem_filterMap.1 hi
    obtain ⟨v, hv, made⟩ := definitionConstraint?_eq_some found
    obtain rfl := Constraint.interval.inj made
    obtain ⟨-, place, admits⟩ := constant_spec ((typed d hd).literal v hv)
    rw [place, (values d hd).2 v hv]
    exact admits

end ConstraintProperty

/-! ### Rows under new names -/

/-- A map of two lists renames the columns of the first one, and no other ones. -/
theorem ColumnMap.idFor_ofLists {source target : List Column}
    (lengths : source.length = target.length) (i : Nat) :
    (∃ p ∈ source.zip target, p.1.id = i ∧ (ofLists source target).idFor i = p.2.id) ∨
      i ∉ Column.idsOf source ∧ (ofLists source target).idFor i = i := by
  unfold idFor
  rw [lookup_ofLists]
  cases found : (source.zip target).reverse.find? fun p => p.1.id == i with
  | some p =>
    have pair := List.mem_reverse.1 (List.mem_of_find?_eq_some found)
    exact .inl ⟨p, pair, by simpa using List.find?_some found, rfl⟩
  | none =>
    refine .inr ⟨fun hi => ?_, rfl⟩
    obtain ⟨c, hc, rfl⟩ := Column.mem_idsOf.1 hi
    obtain ⟨n, hn, rfl⟩ := List.getElem_of_mem hc
    have hn' : n < target.length := lengths ▸ hn
    have pair : (source[n], target[n]) ∈ (source.zip target).reverse :=
      List.mem_reverse.2 (List.mem_iff_getElem.2 ⟨n, by simpa [lengths] using hn', by simp⟩)
    simpa using List.find?_eq_none.1 found _ pair

/-- Different columns stand in for different columns, unless one that is kept is also put in
place of another one. -/
theorem ColumnMap.injOn_ofLists {source target : List Column}
    (lengths : source.length = target.length) (distinct : Column.Distinct target)
    (new : ∀ i ∈ S, i ∉ Column.idsOf source → i ∉ Column.idsOf target) :
    Set.InjOn (ofLists source target).idFor S := by
  have targets : ((source.zip target).map (·.2.id)).Nodup := by
    rw [show (source.zip target).map (·.2.id) =
      ((source.zip target).map Prod.snd).map (·.id) by simp,
      List.map_snd_zip (Nat.le_of_eq lengths.symm)]
    exact distinct
  have mem {p : Column × Column} (hp : p ∈ source.zip target) : p.2.id ∈ Column.idsOf target :=
    Column.mem_idsOf.2 ⟨p.2, (List.of_mem_zip hp).2, rfl⟩
  intro i hi j hj same
  rcases idFor_ofLists lengths i with ⟨p, hp, rfl, hip⟩ | ⟨keptI, hii⟩ <;>
    rcases idFor_ofLists lengths j with ⟨q, hq, rfl, hjq⟩ | ⟨keptJ, hjj⟩
  · rw [hip, hjq] at same
    rw [List.inj_on_of_nodup_map targets hp hq same]
  · rw [hip, hjj] at same
    exact absurd (same ▸ mem hp) (new j hj keptJ)
  · rw [hii, hjq] at same
    exact absurd (same ▸ mem hq) (new i hi keptI)
  · rwa [hii, hjj] at same

/-- What is known of rows is known of them under new names: a row that has, under the new
names, the values of a row with a property has the property under the new names. -/
theorem ConstraintProperty.newNames_spec {source target : List Column}
    (lengths : source.length = target.length) (distinct : Column.Distinct target)
    (types : ∀ p ∈ source.zip target, Γ p.1.id = Γ p.2.id) {p q : ConstraintProperty}
    (about : p.About Γ S) (new : ∀ i ∈ S, i ∉ Column.idsOf source → i ∉ Column.idsOf target)
    (made : p.rename (.ofLists source target) false = .ok q) :
    (q.restrict (.ofList target)).About Γ (Column.idsOf target) ∧
      ∀ r s : Row, r.HasTypes Γ → s.HasTypes Γ → p.Holds r →
        (∀ i ∈ Column.idsOf target, (r.assign target (r.tuple source) i).same (s i) = true) →
          (q.restrict (.ofList target)).Holds s := by
  have apart := ColumnMap.injOn_ofLists lengths distinct new
  have same : ∀ i ∈ S, Γ i = Γ ((ColumnMap.ofLists source target).idFor i) := by
    intro i _
    rcases ColumnMap.idFor_ofLists lengths i with ⟨p, hp, rfl, stands⟩ | ⟨-, kept⟩
    · rw [stands, types p hp]
    · rw [kept]
  have about' := about.congr same
  obtain ⟨renamed, holds⟩ := rename_spec about' apart made
  have restricted := renamed.restrict (.ofList target)
  rw [ColumnSet.idSet_ofList] at restricted
  refine ⟨restricted, fun r s hr hs h agree => ?_⟩
  have typed : (r.assign target (r.tuple source)).HasTypes Γ := hr.assign_renamed types
  -- Read back, the row that was assigned to is the row that its values come from.
  have back :
      ∀ i ∈ S, r i = (r.assign target (r.tuple source)).under (.ofLists source target) i := by
    intro i hi
    unfold Row.under
    rcases ColumnMap.idFor_ofLists lengths i with ⟨p, hp, rfl, stands⟩ | ⟨kept, stays⟩
    · rw [stands, Row.assign_of_mem_zip distinct hp]
    · rw [stays, Row.assign_of_notMem r (new i hi kept)]
  have whole : q.Holds (r.assign target (r.tuple source)) := by
    exact holds _ typed (h.of_eq about fun i hi => (back i hi).symm)
  exact (whole.restrict renamed typed (.ofList target)).congr restricted typed hs agree

/-! ### Joins -/

namespace JoinType

variable {type : JoinType} {e : Scalar} {a b : Relation K} {p : ConstraintProperty}

/-- The parts of the property of a join. -/
theorem constraint_eq_ok (made : type.constraint e catalog [a, b] = .ok p) :
    (type = .inner ∧ ∃ known, ConstraintProperty.ofPredicate catalog e = .ok known ∧
      p = (a.property.constraint.conjoin b.property.constraint).conjoin known) ∨
    (type = .leftSemi ∧ ∃ known, ConstraintProperty.ofPredicate catalog e = .ok known ∧
      p = a.property.constraint.conjoin (known.restrict a.property.output)) ∨
    type ≠ .inner ∧ p = a.property.constraint := by
  unfold JoinType.constraint at made
  rw [OptResult.bind_eq_ok] at made
  obtain ⟨first, hfirst, made⟩ := made
  obtain rfl := Except.ok.inj hfirst
  split at made
  · obtain ⟨known, hknown, made⟩ := OptResult.bind_eq_ok.1 made
    exact .inl ⟨rfl, known, hknown, (Except.ok.inj made).symm⟩
  · obtain ⟨known, hknown, made⟩ := OptResult.bind_eq_ok.1 made
    exact .inr (.inl ⟨rfl, known, hknown, (Except.ok.inj made).symm⟩)
  · rename_i notInner _
    exact .inr (.inr ⟨notInner, (Except.ok.inj made).symm⟩)

/-- Rows of a join have the property of the left input in any case. Those of an inner
join have that of the right input and pass the predicate, and those of a semi join
have a match that does. -/
theorem constraint_spec (truthful : catalog.Truthful I) (mirrored : I.Mirrored)
    (typed : e.WellTyped Γ) (left : a.property.constraint.About Γ A)
    (right : b.property.constraint.About Γ B) (output : a.property.output.idSet ⊆ A)
    {R : Finset Nat} (outside : Disjoint A R)
    (made : type.constraint e catalog [a, b] = .ok p) :
    p.About Γ (if type = .inner then A ∪ (B ∪ e.uses) else A) ∧ ∀ (l : Row) (rs : Bag),
      l.HasTypes Γ → (∀ r ∈ rs, Row.HasTypes Γ r) → a.property.constraint.Holds l →
      (∀ r ∈ rs, b.property.constraint.Holds r) → (∀ r ∈ rs, ∀ i ∈ B, i ∉ R → r i = l i) →
        ∀ x ∈ type.rows R (e.test I ·) l rs, p.Holds x := by
  have kept {l x : Row} {rs : Bag} (h : a.property.constraint.Holds l)
      (mem : x ∈ type.rows R (e.test I ·) l rs) : a.property.constraint.Holds x :=
    h.of_eq left fun i hi => rows_apply_of_notMem mem (Finset.disjoint_left.1 outside hi)
  rcases constraint_eq_ok made
    with ⟨rfl, known, read, rfl⟩ | ⟨rfl, known, read, rfl⟩ | ⟨notInner, rfl⟩
  · obtain ⟨about, holds⟩ := ConstraintProperty.ofPredicate_spec truthful mirrored typed read
    have left' : a.property.constraint.About Γ (A ∪ (B ∪ e.uses)) :=
      left.mono Finset.subset_union_left
    have right' : b.property.constraint.About Γ (A ∪ (B ∪ e.uses)) :=
      right.mono (Finset.subset_union_left.trans Finset.subset_union_right)
    have about' : known.About Γ (A ∪ (B ∪ e.uses)) :=
      about.mono (Finset.subset_union_right.trans Finset.subset_union_right)
    rw [if_pos rfl]
    refine ⟨(left'.conjoin right').conjoin about',
      fun l rs hl hrs leftHolds rightHolds linked x hx => ?_⟩
    obtain ⟨pair, true⟩ := Multiset.mem_filter.1 hx
    obtain ⟨r, hr, rfl⟩ := Multiset.mem_map.1 pair
    have typed : (l.beside R r).HasTypes Γ := hl.beside (hrs r hr) R
    refine .conjoin (left'.conjoin right') about' typed
      (.conjoin left' right' typed (kept leftHolds hx) ?_) (holds _ typed true)
    refine (rightHolds r hr).of_eq right fun i hi => ?_
    by_cases inside : i ∈ R
    · rw [Row.beside_of_mem inside]
    · rw [Row.beside_of_notMem inside, linked r hr i hi inside]
  · obtain ⟨about, holds⟩ := ConstraintProperty.ofPredicate_spec truthful mirrored typed read
    have restricted := about.restrict a.property.output
    rw [if_neg (by decide)]
    refine ⟨left.conjoin (restricted.mono output), fun l rs hl hrs leftHolds _ _ x hx => ?_⟩
    have here : x = l ∧ ∃ r ∈ rs, e.test I (l.beside R r) = some true := by
      simp only [rows] at hx
      split at hx
      · cases Multiset.notMem_zero x hx
      · rename_i some
        obtain ⟨y, hy⟩ := Multiset.card_pos_iff_exists_mem.1 (Nat.pos_of_ne_zero some)
        obtain ⟨pair, true⟩ := Multiset.mem_filter.1 hy
        obtain ⟨r, hr, rfl⟩ := Multiset.mem_map.1 pair
        exact ⟨Multiset.mem_singleton.1 hx, r, hr, true⟩
    obtain ⟨rfl, r, hr, true⟩ := here
    have pair : (x.beside R r).HasTypes Γ := hl.beside (hrs r hr) R
    refine .conjoin left (restricted.mono output) hl leftHolds ?_
    refine ((holds _ pair true).restrict about pair _).of_eq restricted fun i hi => ?_
    rw [Row.beside_of_notMem (Finset.disjoint_left.1 outside (output hi))]
  · rw [if_neg notInner]
    exact ⟨left, fun l rs _ _ leftHolds _ _ x hx => kept leftHolds hx⟩

end JoinType

end QueryOptimizer
