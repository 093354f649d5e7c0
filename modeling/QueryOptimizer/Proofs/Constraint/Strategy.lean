import QueryOptimizer.Proofs.Constraint.Projection

/-!
# How parts are looked up does not matter

A conjunction finds its parts on a single column by a scan or through an index. The index holds
for each column just the parts that the scan would find, in the order of the parts, whatever
the parts are. So constraints that differ in their strategies only, at any depth, cannot be
told apart: what they use, what is known of their extremes, their projections and their copies
are the same up to strategies again.

`Constraint.indexed` forgets the strategies of a constraint: it lets all parts be
looked up through an index.

## Main results

* `Constraint.conjunction?_indexed`, `Constraint.disjunction?_indexed`: the constructors do
  not look at strategies.
* `Constraint.answers_alike`: constraints that differ in their strategies only answer alike.
-/

namespace QueryOptimizer

namespace Constraint

variable {c d : Constraint} {cs : List Constraint} {strategy : LookupStrategy}

/-! ### Forgetting strategies -/

mutual

/-- The constraint with every part looked up through an index, as constraints of
predicates are. -/
def indexed : Constraint → Constraint
  | interval i => interval i
  | conjunction parts _ => conjunction (indexedAll parts) .index
  | disjunction parts _ => disjunction (indexedAll parts) .index
  | negation c => negation c.indexed

/-- Each constraint of a list looked up through an index. -/
def indexedAll : List Constraint → List Constraint
  | [] => []
  | c :: cs => c.indexed :: indexedAll cs

end

/-- A list of constraints is put on the index member by member. -/
@[simp] theorem indexedAll_eq_map (cs : List Constraint) : indexedAll cs = cs.map indexed := by
  induction cs with
  | nil => simp [indexedAll]
  | cons c cs ih => simp [indexedAll, ih]

/-- An interval has no strategy. -/
@[simp] theorem indexed_interval (i : Interval) : (interval i).indexed = interval i := by
  rw [indexed]

/-- A conjunction is put on the index with its parts. -/
@[simp] theorem indexed_conjunction :
    (conjunction cs strategy).indexed = conjunction (cs.map indexed) .index := by
  rw [indexed, indexedAll_eq_map]

/-- A disjunction is put on the index with its parts. -/
@[simp] theorem indexed_disjunction :
    (disjunction cs strategy).indexed = disjunction (cs.map indexed) .index := by
  rw [indexed, indexedAll_eq_map]

/-- A negation is put on the index with its part. -/
@[simp] theorem indexed_negation : (negation c).indexed = negation c.indexed := by
  rw [indexed]

/-- Strategies can be forgotten only once. -/
theorem indexed_indexed : ∀ c : Constraint, c.indexed.indexed = c.indexed
  | interval i => by simp
  | conjunction parts _ => by
    have ih (p : Constraint) (_ : p ∈ parts) := indexed_indexed p
    simpa using ih
  | disjunction parts _ => by
    have ih (p : Constraint) (_ : p ∈ parts) := indexed_indexed p
    simpa using ih
  | negation c => by simpa using indexed_indexed c

/-- What is an interval on the index is an interval. -/
theorem indexed_eq_interval {i : Interval} (h : c.indexed = interval i) : c = interval i := by
  cases c <;> simp_all [indexed]

/-- Constraints equal those on the index if each of them does. -/
theorem equalList_indexed (h : ∀ c ∈ cs, equal c.indexed c = true) :
    equalList (cs.map Constraint.indexed) cs = true := by
  induction cs with
  | nil => rfl
  | cons c cs ih =>
    obtain ⟨first, rest⟩ := List.forall_mem_cons.1 h
    simp [equalList, first, ih rest]

/-- A constraint equals the one on the index, since equality does not look at strategies. -/
theorem equal_indexed : ∀ c : Constraint, equal c.indexed c = true
  | interval i => by
    have same :
      (i.column == i.column && i.ranges == i.ranges && i.includeNull == i.includeNull) =
      true := by simp
    rw [indexed, equal]
    exact same
  | conjunction parts _ => by
    have ih (p : Constraint) (hp : p ∈ parts) := equal_indexed p
    simpa [indexed, equal] using equalList_indexed ih
  | disjunction parts _ => by
    have ih (p : Constraint) (hp : p ∈ parts) := equal_indexed p
    simpa [indexed, equal] using equalList_indexed ih
  | negation c => by simpa [indexed, equal] using equal_indexed c

/-! ### Questions -/

/-- Contradictions and unbounded constraints do not depend on strategies. -/
theorem extremes_indexed : ∀ c : Constraint, c.indexed.isContradiction = c.isContradiction ∧
    c.indexed.isUnbounded = c.isUnbounded
  | interval i => ⟨by rw [indexed], by rw [indexed]⟩
  | conjunction parts _ => by
    have ih (p : Constraint) (hp : p ∈ parts) := extremes_indexed p
    simp only [indexed, indexedAll_eq_map, isContradiction, isUnbounded,
      anyContradiction_eq_any, allUnbounded_eq_all, List.any_map, List.all_map]
    grind
  | disjunction parts _ => by
    have ih (p : Constraint) (hp : p ∈ parts) := extremes_indexed p
    simp only [indexed, indexedAll_eq_map, isContradiction, isUnbounded,
      allContradictions_eq_all, anyUnbounded_eq_any, List.any_map, List.all_map]
    grind
  | negation c => by
    obtain ⟨contradiction, unbounded⟩ := extremes_indexed c
    simp only [indexed, isContradiction, isUnbounded]
    exact ⟨unbounded, contradiction⟩

/-- Whether a constraint is a contradiction does not depend on strategies. -/
theorem isContradiction_indexed (c : Constraint) :
    c.indexed.isContradiction = c.isContradiction :=
  (extremes_indexed c).1

/-- Whether a constraint is unbounded does not depend on strategies. -/
theorem isUnbounded_indexed (c : Constraint) : c.indexed.isUnbounded = c.isUnbounded :=
  (extremes_indexed c).2

/-- The columns of constraints do not depend on strategies if those of each of them do not. -/
theorem usedColumnsFrom_indexed (h : ∀ c ∈ cs, c.indexed.usedColumns = c.usedColumns)
    (s : ColumnSet) : usedColumnsFrom s (cs.map indexed) = usedColumnsFrom s cs := by
  induction cs generalizing s with
  | nil => rfl
  | cons c cs ih =>
    obtain ⟨first, rest⟩ := List.forall_mem_cons.1 h
    rw [List.map_cons, usedColumnsFrom, usedColumnsFrom, first, ih rest]

/-- The columns of a constraint do not depend on strategies. -/
theorem usedColumns_indexed : ∀ c : Constraint, c.indexed.usedColumns = c.usedColumns
  | interval i => by rw [indexed_interval]
  | conjunction parts _ => by
    rw [indexed_conjunction, usedColumns, usedColumns]
    exact usedColumnsFrom_indexed (fun p _ => usedColumns_indexed p) _
  | disjunction parts _ => by
    rw [indexed_disjunction, usedColumns, usedColumns]
    exact usedColumnsFrom_indexed (fun p _ => usedColumns_indexed p) _
  | negation c => by rw [indexed_negation, usedColumns, usedColumns, usedColumns_indexed c]

/-! ### Constructors -/

/-- The conjuncts of a constraint on the index are its conjuncts on the index. -/
theorem conjuncts_indexed (c : Constraint) :
    c.indexed.conjuncts = c.conjuncts.map indexed := by
  cases c <;> simp [conjuncts]

/-- The disjuncts of a constraint on the index are its disjuncts on the index. -/
theorem disjuncts_indexed (c : Constraint) :
    c.indexed.disjuncts = c.disjuncts.map indexed := by
  cases c <;> simp [disjuncts]

/-- Negation does not look at strategies. -/
theorem negate_indexed (c : Constraint) : c.indexed.negate = c.negate.indexed := by
  cases c <;> simp [negate]

/-- Merging a constraint into a list does not look at strategies. -/
theorem mergeInto_indexed (combine : Interval → Interval → Interval) (c : Constraint)
    (cs : List Constraint) :
    mergeInto combine c.indexed (cs.map indexed) = (mergeInto combine c cs).map indexed := by
  fun_induction mergeInto combine c cs with
  | case1 => rfl
  | case2 ds i j eq same =>
    subst eq
    simp only [List.map_cons, indexed_interval, mergeInto, same, if_true]
  | case3 ds i j eq different ih =>
    subst eq
    rw [indexed_interval] at ih ⊢
    simp only [List.map_cons, indexed_interval, mergeInto, different,
      Bool.false_eq_true, if_false, ih]
  | case4 d ds notBoth ih =>
    rw [List.map_cons, List.map_cons, ← ih]
    cases d <;> cases c <;> first
      | exact (notBoth _ _ rfl rfl).elim
      | simp [mergeInto]

/-- Merging the intervals of a list does not look at strategies. -/
theorem mergeIntervals_indexed (combine : Interval → Interval → Interval)
    (cs : List Constraint) :
    mergeIntervals combine (cs.map indexed) = (mergeIntervals combine cs).map indexed := by
  suffices all : ∀ merged : List Constraint,
      (cs.map indexed).foldl (fun acc c => mergeInto combine c acc) (merged.map indexed) =
        (cs.foldl (fun acc c => mergeInto combine c acc) merged).map indexed from all []
  induction cs with
  | nil => exact fun _ => rfl
  | cons c cs ih =>
    intro merged
    rw [List.map_cons, List.foldl_cons, mergeInto_indexed, ih, List.foldl_cons]

/-- A test that does not look at strategies lets the same constraints pass on the index. -/
theorem filter_indexed {p : Constraint → Bool} (h : ∀ c, p c.indexed = p c)
    (cs : List Constraint) : (cs.map indexed).filter p = (cs.filter p).map indexed := by
  rw [List.filter_map]
  exact congrArg _ (List.filter_congr fun c _ => h c)

/-- Taking constraints apart commutes with putting them on the index. -/
theorem flatMap_indexed {f : Constraint → List Constraint}
    (h : ∀ c, f c.indexed = (f c).map indexed) (cs : List Constraint) :
    (cs.map indexed).flatMap f = (cs.flatMap f).map indexed := by
  rw [List.flatMap_map, List.map_flatMap]
  exact congrArg (fun f => cs.flatMap f) (funext h)

/-- A conjunction is made without a look at the strategies of its parts. -/
theorem conjunction?_indexed (cs : List Constraint) (s t : LookupStrategy) :
    (conjunction? (cs.map indexed) s).map indexed = (conjunction? cs t).map indexed := by
  simp only [conjunction?, flatMap_indexed conjuncts_indexed, mergeIntervals_indexed,
    filter_indexed (p := (!·.isUnbounded)) fun c => by rw [isUnbounded_indexed]]
  generalize (mergeIntervals Interval.intersect (cs.flatMap conjuncts)).filter
    (!·.isUnbounded) = parts
  rcases parts with _ | ⟨c, _ | ⟨d, ds⟩⟩ <;> simp [indexed_indexed]

/-- A disjunction is made without a look at the strategies of its parts. -/
theorem disjunction?_indexed (cs : List Constraint) (s t : LookupStrategy) :
    (disjunction? (cs.map indexed) s).map indexed = (disjunction? cs t).map indexed := by
  have unbounded (cs : List Constraint) :
      (cs.map indexed).any isUnbounded = cs.any isUnbounded := by
    rw [List.any_map]
    exact congrArg cs.any (funext isUnbounded_indexed)
  have contradiction (cs : List Constraint) :
      (cs.map indexed).find? isContradiction = (cs.find? isContradiction).map indexed := by
    rw [List.find?_map]
    exact congrArg (fun p => (cs.find? p).map indexed) (funext isContradiction_indexed)
  simp only [disjunction?, flatMap_indexed disjuncts_indexed, unbounded, contradiction,
    mergeIntervals_indexed,
    filter_indexed (p := (!·.isContradiction)) fun c => by rw [isContradiction_indexed]]
  split
  · rfl
  · split
    · rfl
    · generalize mergeIntervals Interval.union
        ((cs.flatMap disjuncts).filter (!·.isContradiction)) = parts
      rcases parts with _ | ⟨c, _ | ⟨d, ds⟩⟩ <;> simp [indexed_indexed, Function.comp_def]

/-! ### Projections -/

namespace Projection

/-- The contribution with the strategies of its bound forgotten. -/
def indexed (p : Projection) : Projection :=
  { p with bound := p.bound.map Constraint.indexed }

/-- What a projection contributes does not depend on strategies. -/
theorem effective?_indexed (p : Projection) :
    p.indexed.effective? = p.effective?.map Constraint.indexed := by
  unfold effective? indexed
  cases p.bound with
  | none => rfl
  | some b => cases h : b.isUnbounded <;> simp [Option.filter_some, isUnbounded_indexed, h]

/-- Conjoining projections does not look at strategies. -/
theorem conjoin_indexed (ps : List Projection) :
    (conjoin (ps.map indexed)).map Constraint.indexed =
      (conjoin ps).map Constraint.indexed := by
  have bounds : (ps.map indexed).filterMap effective? =
      (ps.filterMap effective?).map Constraint.indexed := by
    rw [List.filterMap_map, List.map_filterMap]
    exact congrArg (fun f => ps.filterMap f) (funext effective?_indexed)
  rw [conjoin, bounds, conjunction?_indexed _ _ .scan, conjoin]

/-- Disjoining projections does not look at strategies. -/
theorem disjoin_indexed (ps : List Projection) :
    (disjoin (ps.map indexed)).map Constraint.indexed =
      (disjoin ps).map Constraint.indexed := by
  have bounds : ((ps.map indexed).filter (!·.contradiction)).map effective? =
      ((ps.filter (!·.contradiction)).map effective?).map (·.map Constraint.indexed) := by
    rw [List.filter_map, List.map_map, List.map_map]
    exact List.map_congr_left fun p _ => effective?_indexed p
  unfold disjoin
  simp only [bounds]
  generalize (ps.filter (!·.contradiction)).map effective? = bounds
  have unknown : (bounds.map (·.map Constraint.indexed)).any (·.isNone) =
      bounds.any (·.isNone) := by
    simp [List.any_map, Function.comp_def]
  have known : (bounds.map (·.map Constraint.indexed)).filterMap id =
      (bounds.filterMap id).map Constraint.indexed := by
    simp [List.filterMap_map, List.map_filterMap]
  rw [unknown, known]
  split
  · rfl
  · exact disjunction?_indexed _ _ _

/-- Contributions that differ in strategies only come to the same. -/
theorem conjoin_congr {ps qs : List Projection} (same : ps.map indexed = qs.map indexed) :
    (conjoin ps).map Constraint.indexed = (conjoin qs).map Constraint.indexed := by
  rw [← conjoin_indexed ps, same, conjoin_indexed]

/-- Projections that differ in strategies only are disjoined alike. -/
theorem disjoin_congr {ps qs : List Projection} (same : ps.map indexed = qs.map indexed) :
    (disjoin ps).map Constraint.indexed = (disjoin qs).map Constraint.indexed := by
  rw [← disjoin_indexed ps, same, disjoin_indexed]

end Projection

/-- What parts contribute to a projection does not depend on their strategies if the
projection of each does not. -/
theorem map_projection_indexed {f : Constraint → Option Constraint}
    (h : ∀ c ∈ cs, (f c.indexed).map indexed = (f c).map indexed) :
    ((cs.map indexed).map fun c => (⟨c.usedColumns, c.isContradiction, f c⟩ : Projection)).map
        Projection.indexed =
      (cs.map fun c => (⟨c.usedColumns, c.isContradiction, f c⟩ : Projection)).map
        Projection.indexed := by
  simp only [List.map_map]
  refine List.map_congr_left fun c hc => ?_
  simp only [Function.comp_apply, Projection.indexed, usedColumns_indexed,
    isContradiction_indexed, h c hc]

/-- Projections that differ in strategies only are chosen by their columns alike. -/
theorem filter_projection {ps qs : List Projection}
    (same : ps.map Projection.indexed = qs.map Projection.indexed) (p : ColumnSet → Bool) :
    (ps.filter fun q => p q.used).map Projection.indexed =
      (qs.filter fun q => p q.used).map Projection.indexed := by
  have outside (ps : List Projection) : (ps.filter fun q => p q.used).map Projection.indexed =
      (ps.map Projection.indexed).filter fun q => p q.used := by
    rw [List.filter_map]
    rfl
  rw [outside, outside, same]

/-- What a constraint says of a column does not depend on strategies. -/
theorem onColumn_indexed (col : Column) : ∀ c : Constraint,
    (onColumn col c.indexed).map indexed = (onColumn col c).map indexed
  | interval i => by rw [indexed_interval]
  | conjunction parts strategy => by
    have each (p : Constraint) (_ : p ∈ parts) := onColumn_indexed col p
    have same := map_projection_indexed each
    have used :=
      usedColumnsFrom_indexed (fun p (_ : p ∈ parts) => usedColumns_indexed p) .empty
    rw [indexed_conjunction]
    simp only [onColumn, used, projections_eq_map, LookupStrategy.select_eq]
    split
    · rfl
    · refine Projection.conjoin_congr ?_
      rw [List.map_append, List.map_append]
      exact congrArg₂ _ (filter_projection same fun s => s.contains col && s.size == 1)
        (filter_projection same fun s => decide (1 < s.size) && s.contains col)
  | disjunction parts strategy => by
    have each (p : Constraint) (_ : p ∈ parts) := onColumn_indexed col p
    have used :=
      usedColumnsFrom_indexed (fun p (_ : p ∈ parts) => usedColumns_indexed p) .empty
    rw [indexed_disjunction]
    simp only [onColumn, used, projections_eq_map]
    split
    · rfl
    · exact Projection.disjoin_congr (map_projection_indexed each)
  | negation c => by
    have ih := onColumn_indexed col c
    have negated (o : Option Constraint) :
        (o.map negate).map indexed = (o.map indexed).map negate := by
      simp [Function.comp_def, negate_indexed]
    rw [indexed_negation]
    simp only [onColumn, usedColumns_indexed]
    split
    · rw [negated, ih, negated]
    · rfl

/-- What a constraint says of some columns does not depend on strategies. -/
theorem onColumns_indexed (cols : ColumnSet) : ∀ c : Constraint,
    (onColumns cols c.indexed).map indexed = (onColumns cols c).map indexed
  | interval i => by rw [indexed_interval]
  | conjunction parts strategy => by
    have each (p : Constraint) (_ : p ∈ parts) := onColumns_indexed cols p
    rw [indexed_conjunction]
    simp only [onColumns, projectionsOn_eq_map]
    exact Projection.conjoin_congr
      (filter_projection (map_projection_indexed each) (!·.isDisjoint cols))
  | disjunction parts strategy => by
    have each (p : Constraint) (_ : p ∈ parts) := onColumns_indexed cols p
    rw [indexed_disjunction]
    simp only [onColumns, projectionsOn_eq_map]
    exact Projection.disjoin_congr (map_projection_indexed each)
  | negation c => by
    rw [indexed_negation]
    simp only [onColumns, usedColumns_indexed]
    split
    · simp [indexed_indexed]
    · rfl

/-! ### Copies -/

/-- Renaming does not look at strategies. -/
theorem rename_indexed (map : ColumnMap) (strict : Bool) : ∀ c : Constraint,
    (rename map strict c.indexed) = (rename map strict c).map indexed
  | interval i => by
    rw [indexed_interval]
    simp only [rename]
    cases i.rename map strict <;> simp [bind, Except.bind, Except.map, pure, Except.pure]
  | conjunction parts strategy => by
    have each := renameAll map strict fun p (_ : p ∈ parts) => rename_indexed map strict p
    rw [indexed_conjunction]
    simp only [rename, each]
    cases renameList map strict parts <;>
      simp [bind, Except.bind, Except.map, pure, Except.pure]
  | disjunction parts strategy => by
    have each := renameAll map strict fun p (_ : p ∈ parts) => rename_indexed map strict p
    rw [indexed_disjunction]
    simp only [rename, each]
    cases renameList map strict parts <;>
      simp [bind, Except.bind, Except.map, pure, Except.pure]
  | negation c => by
    rw [indexed_negation]
    simp only [rename, rename_indexed map strict c]
    cases rename map strict c <;> simp [bind, Except.bind, Except.map, pure, Except.pure]
where
  renameAll (map : ColumnMap) (strict : Bool) {parts : List Constraint}
      (each : ∀ p ∈ parts, rename map strict p.indexed = (rename map strict p).map indexed) :
      renameList map strict (parts.map indexed) =
        (renameList map strict parts).map (List.map indexed) := by
    induction parts with
    | nil => rfl
    | cons p ps ih =>
      obtain ⟨first, rest⟩ := List.forall_mem_cons.1 each
      simp only [List.map_cons, renameList, first, ih rest]
      cases rename map strict p <;> cases renameList map strict ps <;> rfl

/-! ### Constraints that differ in strategies only -/

/-- Constraints that differ only in how they look up their parts have the same extremes and use
the same columns. What they say about a column or some columns, and their copies under other
columns, differ only in how parts are looked up, or fail alike. -/
theorem answers_alike (alike : c.indexed = d.indexed) :
    c.isContradiction = d.isContradiction ∧ c.isUnbounded = d.isUnbounded ∧
    c.usedColumns = d.usedColumns ∧
    (∀ col, (onColumn col c).map indexed = (onColumn col d).map indexed) ∧
    (∀ cols, (onColumns cols c).map indexed = (onColumns cols d).map indexed) ∧
    ∀ map strict, (rename map strict c).map indexed = (rename map strict d).map indexed := by
  refine ⟨?_, ?_, ?_, fun col => ?_, fun cols => ?_, fun map strict => ?_⟩
  · rw [← isContradiction_indexed, alike, isContradiction_indexed]
  · rw [← isUnbounded_indexed, alike, isUnbounded_indexed]
  · rw [← usedColumns_indexed, alike, usedColumns_indexed]
  · rw [← onColumn_indexed, alike, onColumn_indexed]
  · rw [← onColumns_indexed, alike, onColumns_indexed]
  · rw [← rename_indexed, alike, rename_indexed]

end Constraint

/-! ### An example -/

namespace Sample

def lower : Column := ⟨0, .integer .int64, -1, "lower", .computed⟩

def upper : Column := ⟨1, .integer .int64, -1, "upper", .computed⟩

/-- Two parts on one column that are not merged, with a negation on both columns
between them. -/
def layered (outer inner : LookupStrategy) : Constraint :=
  .conjunction [.interval ⟨lower, [.above (.integer .int64 1) false], false⟩,
    .negation (.disjunction [.interval ⟨lower, [.point (.integer .int64 5)], true⟩,
      .interval ⟨upper, [.below (.integer .int64 3) true], false⟩] inner),
    .interval ⟨lower, [.below (.integer .int64 9) false], true⟩] outer

end Sample

open Sample Constraint in
/-- Two nested constraints that differ in the strategies of both of their levels. -/
theorem answers_alike_layered :
    (layered .scan .index).indexed = (layered .index .scan).indexed ∧
    (∀ col, (onColumn col (layered .scan .index)).map indexed =
      (onColumn col (layered .index .scan)).map indexed) ∧
    (∀ cols, (onColumns cols (layered .scan .index)).map indexed =
      (onColumns cols (layered .index .scan)).map indexed) ∧
    ∀ map strict, (rename map strict (layered .scan .index)).map indexed =
      (rename map strict (layered .index .scan)).map indexed := by
  have alike : (layered .scan .index).indexed = (layered .index .scan).indexed := by
    simp [layered]
  obtain ⟨-, -, -, onColumn, onColumns, copies⟩ := answers_alike alike
  exact ⟨alike, onColumn, onColumns, copies⟩

end QueryOptimizer
