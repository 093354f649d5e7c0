import QueryOptimizer.Proofs.Semantics.Scoping

/-!
# Equivalences of joins

The equivalences behind the rules about joins, as equalities of meanings. The new operators are
in scope because the old ones are.

## Main results

* `Equivalence.commute`, `Equivalence.associate`: inner joins may be turned around and rotated.
* `Equivalence.swap`: an inner join and a semi or anti join on its left input
  may change places.
* `Equivalence.toIndexApply`: an inner join may look up the matching right rows
  for each left row.
-/

namespace QueryOptimizer

/-! ### Rows of joins -/

namespace Row

/-- Rows of separate columns may be put together in either order. -/
theorem beside_comm {left right : Finset Nat} (apart : Disjoint left right) {env x y : Row}
    (hx : ∀ ⦃i⦄, i ∉ left → x i = env i) (hy : ∀ ⦃i⦄, i ∉ right → y i = env i) :
    x.beside right y = y.beside left x := by
  funext i
  by_cases hl : i ∈ left
  · simp [beside, hl, Finset.disjoint_left.1 apart hl]
  · by_cases hr : i ∈ right
    · simp [beside, hl, hr]
    · simp [beside, hl, hr, hx hl, hy hr]

/-- Three rows may be put together in two ways. -/
theorem beside_assoc (b c : Finset Nat) (x y z : Row) :
    (x.beside b y).beside c z = x.beside (b ∪ c) (y.beside c z) := by
  funext i
  by_cases hc : i ∈ c <;> by_cases hb : i ∈ b <;> simp [beside, hb, hc]

end Row

namespace JoinType

variable {right : Finset Nat} {p : Row → Truth} {l : Row} {rs : Bag}

theorem inner_rows :
    inner.rows right p l rs = (rs.map (l.beside right)).filter fun r => p r = some true := rfl

/-- The rows of an inner join, pair by pair. -/
theorem inner_rows_eq_bind :
    inner.rows right p l rs =
      rs.bind fun r => if p (l.beside right r) = some true then {l.beside right r} else 0 := by
  rw [inner_rows, Multiset.filter_map, Multiset.filter_eq_bind, Multiset.map_bind]
  refine Multiset.bind_congr fun r _ => ?_
  by_cases h : p (l.beside right r) = some true <;> simp [h]

/-- Going on with one row, if there is one, is going on from it under the same condition. -/
theorem bind_ite_singleton {α : Type*} (P : Prop) [Decidable P] (x : α) (f : α → Bag) :
    (if P then ({x} : Multiset α) else 0).bind f = if P then f x else 0 := by
  split <;> simp

/-- A condition that does not depend on the row may be asked before. -/
theorem bind_ite {α : Type*} (P : Prop) [Decidable P] (s : Multiset α) (f : α → Bag) :
    (s.bind fun x => if P then f x else 0) = if P then s.bind f else 0 := by
  split <;> simp

/-- Two conditions that lead to nothing are one. -/
theorem ite_ite_zero (P Q : Prop) [Decidable P] [Decidable Q] (s : Bag) :
    (if P then if Q then s else 0 else 0) = if P ∧ Q then s else 0 := by
  by_cases hP : P <;> simp [hP]

/-- A join that only produces left columns keeps or drops a left row, and whether it does
depends on the truth values of the pairs. -/
theorem rows_of_isLeftOnly {type : JoinType} (leftOnly : type.isLeftOnly = true) {l' : Row}
    {p' : Row → Truth} (same : ∀ r ∈ rs, p (l.beside right r) = p' (l'.beside right r)) :
    type.rows right p' l' rs = (type.rows right p l rs).map fun _ => l' := by
  have card (q : Truth → Prop) [DecidablePred q] :
      ((rs.map (l'.beside right)).filter fun r => q (p' r)).card =
        ((rs.map (l.beside right)).filter fun r => q (p r)).card := by
    rw [Multiset.filter_map, Multiset.filter_map, Multiset.card_map, Multiset.card_map]
    exact congrArg _ (Multiset.filter_congr fun r hr => by simp [same r hr])
  have hits := card (· = some true)
  have doubts := card (· ≠ some false)
  cases type <;> simp only [isLeftOnly, Bool.false_eq_true] at leftOnly <;>
    simp only [rows, hits, doubts] <;> split <;> simp

end JoinType

@[simp] theorem JoinType.inner_columns (left right : Finset Nat) :
    inner.columns left right = left ∪ right := rfl

namespace Equivalence

open LogicalOperator JoinType

variable (I : Interpretation) (db : Database) {a b c l r : Meaning} {p q s : Scalar}

/-! ### Rows of equivalent joins -/

/-- An inner join has the same rows from the right as from the left. -/
theorem commute_rows {left right : Finset Nat} (apart : Disjoint left right) {env : Row}
    {ls rs : Bag} (hls : ∀ x ∈ ls, ∀ ⦃i⦄, i ∉ left → x i = env i)
    (hrs : ∀ y ∈ rs, ∀ ⦃i⦄, i ∉ right → y i = env i) :
    (rs.bind fun y => inner.rows left (p.test I ·) y ls) =
      ls.bind fun x => inner.rows right (p.test I ·) x rs := by
  simp only [inner_rows_eq_bind]
  rw [Multiset.bind_bind]
  refine Multiset.bind_congr fun x hx => Multiset.bind_congr fun y hy => ?_
  rw [Row.beside_comm apart (hls x hx) (hrs y hy)]

/-- Each row of nested joins is made of three rows that pass both predicates.
Which of the joins tests which of the conjuncts does not matter, as long as the
lower one knows the columns. -/
theorem associate_rows {middle last : Finset Nat} {p' q' : Scalar}
    (below : p'.uses ⊆ middle ∪ last) (apart : Disjoint p.uses last)
    (test : ∀ r, p'.test I r = some true ∧ q'.test I r = some true ↔
      p.test I r = some true ∧ q.test I r = some true) (as bs cs : Bag) :
    (as.bind fun x => inner.rows (middle ∪ last) (q'.test I ·) x
      (bs.bind fun y => inner.rows last (p'.test I ·) y cs)) =
    (as.bind fun x => inner.rows middle (p.test I ·) x bs).bind fun x =>
      inner.rows last (q.test I ·) x cs := by
  simp only [inner_rows_eq_bind, Multiset.bind_assoc, bind_ite_singleton]
  refine Multiset.bind_congr fun x _ => Multiset.bind_congr fun y _ => ?_
  rw [← bind_ite]
  refine Multiset.bind_congr fun z _ => ?_
  rw [← Row.beside_assoc middle last x y z]
  have lowered :
      p'.test I (y.beside last z) = p'.test I ((x.beside middle y).beside last z) := by
    refine Scalar.test_congr I p' fun i hi => ?_
    rw [Row.beside_assoc, Row.beside_of_mem (below hi)]
  have raised :
      p.test I (x.beside middle y) = p.test I ((x.beside middle y).beside last z) := by
    refine Scalar.test_congr I p fun i hi => ?_
    rw [Row.beside_of_notMem (Finset.disjoint_left.1 apart hi)]
  rw [lowered, raised, ite_ite_zero, ite_ite_zero]
  exact if_congr (test _) rfl rfl

/-- Whether a join keeps a left row does not depend on columns that its predicate does not use,
so the row may get them before or after. -/
theorem swap_rows {type : JoinType} (leftOnly : type.isLeftOnly = true) (right : Finset Nat)
    {last : Finset Nat} (apart : Disjoint s.uses last) (as bs cs : Bag) :
    ((as.bind fun x => inner.rows last (q.test I ·) x cs).bind fun x =>
      type.rows right (s.test I ·) x bs) =
      (as.bind fun x => type.rows right (s.test I ·) x bs).bind fun x =>
        inner.rows last (q.test I ·) x cs := by
  rw [Multiset.bind_assoc, Multiset.bind_assoc]
  refine Multiset.bind_congr fun x _ => ?_
  have moved (y : Row) (hy : y ∈ inner.rows last (q.test I ·) x cs) :
      type.rows right (s.test I ·) y bs =
      (type.rows right (s.test I ·) x bs).map fun _ => y := by
    refine rows_of_isLeftOnly leftOnly fun z _ => Scalar.test_congr I s fun i hi => ?_
    by_cases inside : i ∈ right
    · rw [Row.beside_of_mem inside, Row.beside_of_mem inside]
    · rw [Row.beside_of_notMem inside, Row.beside_of_notMem inside,
        rows_apply_of_notMem hy (Finset.disjoint_left.1 apart hi)]
  have same (y : Row) (hy : y ∈ type.rows right (s.test I ·) x bs) : y = x := by
    rcases mem_rows hy with ⟨-, hyx⟩ | ⟨both, -⟩
    · exact hyx
    · rw [leftOnly] at both
      cases both
  calc (inner.rows last (q.test I ·) x cs).bind (fun y => type.rows right (s.test I ·) y bs)
      = (inner.rows last (q.test I ·) x cs).bind fun y =>
          (type.rows right (s.test I ·) x bs).map fun _ => y := Multiset.bind_congr moved
    _ = (type.rows right (s.test I ·) x bs).bind fun _ =>
          (inner.rows last (q.test I ·) x cs).map fun y => y := Multiset.bind_map_comm _ _
    _ = (type.rows right (s.test I ·) x bs).bind fun y => inner.rows last (q.test I ·) y cs :=
      Multiset.bind_congr fun y hy => by rw [same y hy, Multiset.map_id']

/-- A left row is joined with the same tuples if they are filtered before, with the columns
that the predicate uses of the row bound to its values. -/
theorem lookup_rows {left : Finset Nat} (cols : List Column) {outer : List Column}
    (bound : Column.idsOf outer = p.uses ∩ left) {env x : Row}
    (keeps : ∀ ⦃i⦄, i ∉ left → x i = env i) (tuples : Multiset Tuple) :
    inner.rows (Column.idsOf cols) ((Scalar.ofBool true).test I ·) x
        ((tuples.map ((env.assign outer (x.tuple outer)).assign cols)).filter fun y =>
          p.test I y = some true) =
      inner.rows (Column.idsOf cols) (p.test I ·) x (tuples.map (env.assign cols)) := by
  rw [inner_rows_eq_bind, inner_rows_eq_bind, Multiset.bind_filter, Multiset.bind_map,
    Multiset.bind_map]
  refine Multiset.bind_congr fun t _ => ?_
  have beside :
    x.beside (Column.idsOf cols) ((env.assign outer (x.tuple outer)).assign cols t) =
      x.beside (Column.idsOf cols) (env.assign cols t) := by
    funext i
    by_cases hi : i ∈ Column.idsOf cols
    · rw [Row.beside_of_mem hi, Row.beside_of_mem hi, Row.assign_congr _ env hi]
    · rw [Row.beside_of_notMem hi, Row.beside_of_notMem hi]
  have test : p.test I ((env.assign outer (x.tuple outer)).assign cols t) =
      p.test I (x.beside (Column.idsOf cols) (env.assign cols t)) := by
    refine Scalar.test_congr I p fun i hi => ?_
    by_cases stored : i ∈ Column.idsOf cols
    · rw [Row.beside_of_mem stored, Row.assign_congr _ env stored]
    · rw [Row.beside_of_notMem stored, Row.assign_of_notMem _ stored]
      by_cases inside : i ∈ left
      · rw [Row.assign_tuple _ _ (bound ▸ Finset.mem_inter.2 ⟨hi, inside⟩)]
      · rw [Row.assign_of_notMem _ (bound ▸ fun h => inside (Finset.mem_inter.1 h).2),
          keeps inside]
  rw [beside, test]
  simp

/-! ### Joins -/

/-- The columns of nested joins, as far as operators care. -/
theorem join_scope (j : Join) (m n : Scope) :
    (LogicalOperator.join j).scope [m, n] =
      ⟨j.type.columns m.output n.output,
        j.type.columns m.output n.output ∪ (m.defined ∪ n.defined),
        j.predicate.uses \ (m.output ∪ n.output) ∪ (m.free ∪ n.free)⟩ := by
  simp [LogicalOperator.scope, produced, inherited, usedColumns, Scalar.uses]

/-- An inner join may be turned around. -/
theorem commute (hl : l.Sound) (hr : r.Sound) (scope : InScope (.join ⟨.inner, p⟩) [l, r]) :
    InScope (.join ⟨.inner, p⟩) [r, l] ∧
      (LogicalOperator.join ⟨.inner, p⟩).meaning I db [r, l] =
        (LogicalOperator.join ⟨.inner, p⟩).meaning I db [l, r] := by
  have apart := scope.fits.join_apart
  have columns : (LogicalOperator.join ⟨.inner, p⟩).scope [r.toScope, l.toScope] =
      (LogicalOperator.join ⟨.inner, p⟩).scope [l.toScope, r.toScope] := by
    simp only [join_scope, inner_columns, Finset.union_comm r.output,
      Finset.union_comm r.defined, Finset.union_comm r.free]
  have outputs : Disjoint l.output r.output := apart.mono hl.output_subset hr.output_subset
  have rows {env : Row} {ls rs : Bag} (hls : ls ∈ l.results env) (hrs : rs ∈ r.results env) :=
    commute_rows I (p := p) outputs (fun _ hx => hl.keeps hls hx) fun _ hy => hr.keeps hrs hy
  refine ⟨⟨.join apart.symm, columns ▸ scope.free_disjoint⟩,
    Meaning.eq_of_scope columns fun env out => ?_⟩
  constructor
  · rintro ⟨rs, hrs, ls, hls, rfl⟩
    exact ⟨ls, hls, rs, hrs, rows hls hrs⟩
  · rintro ⟨ls, hls, rs, hrs, rfl⟩
    exact ⟨rs, hrs, ls, hls, (rows hls hrs).symm⟩

/-- Inner joins may be rotated when the conjuncts of both predicates are spread over new ones,
of which the lower one does not refer to the first input. -/
theorem associate (ha : a.Sound) (hb : b.Sound) (hc : c.Sound)
    (lower : InScope (.join ⟨.inner, p⟩) [a, b]) (upper : InScope (.join ⟨.inner, q⟩)
      [(LogicalOperator.join ⟨.inner, p⟩).meaning I db [a, b], c]) {p' q' : Scalar}
    (below : p'.uses ⊆ b.output ∪ c.output) (uses : p'.uses ∪ q'.uses = p.uses ∪ q.uses)
    (test : ∀ r, p'.test I r = some true ∧ q'.test I r = some true ↔
      p.test I r = some true ∧ q.test I r = some true) :
    InScope (.join ⟨.inner, p'⟩) [b, c] ∧
      InScope (.join ⟨.inner, q'⟩)
        [a, (LogicalOperator.join ⟨.inner, p'⟩).meaning I db [b, c]] ∧
      (LogicalOperator.join ⟨.inner, q'⟩).meaning I db
          [a, (LogicalOperator.join ⟨.inner, p'⟩).meaning I db [b, c]] =
        (LogicalOperator.join ⟨.inner, q⟩).meaning I db
          [(LogicalOperator.join ⟨.inner, p⟩).meaning I db [a, b], c] := by
  have apartLower := lower.fits.join_apart
  have apartUpper := upper.fits.join_apart
  have hiddenUpper := upper.free_disjoint
  have aOut := ha.output_subset
  have bOut := hb.output_subset
  have cOut := hc.output_subset
  simp only [List.map, LogicalOperator.meaning, join_scope, inner_columns]
    at apartUpper hiddenUpper
  have columns : (LogicalOperator.join ⟨.inner, q'⟩).scope
        [a.toScope, (LogicalOperator.join ⟨.inner, p'⟩).scope [b.toScope, c.toScope]] =
      (LogicalOperator.join ⟨.inner, q⟩).scope
        [(LogicalOperator.join ⟨.inner, p⟩).scope [a.toScope, b.toScope], c.toScope] := by
    simp only [join_scope, inner_columns]
    ext i
    · grind
    · grind
    · have hidden := Finset.disjoint_left.1 hiddenUpper
      have ui := Finset.ext_iff.1 uses i
      grind
  have hiddenNew : Disjoint
      ((LogicalOperator.join ⟨.inner, p'⟩).scope [b.toScope, c.toScope]).free
      ((LogicalOperator.join ⟨.inner, p'⟩).scope [b.toScope, c.toScope]).defined := by
    simp only [join_scope, inner_columns]
    exact hiddenUpper.mono (by grind) (by grind)
  have pApart : Disjoint p.uses c.output := by
    have outside : Disjoint (p.uses \ (a.output ∪ b.output)) c.output :=
      hiddenUpper.mono (by grind) (by grind)
    have inside : Disjoint (a.output ∪ b.output) c.output := apartUpper.mono (by grind) cOut
    exact (outside.sup_left inside).mono_left le_sdiff_sup
  have rows := associate_rows I below pApart test
  have apartNew : Disjoint b.defined c.defined := apartUpper.mono_left (by grind)
  have scopeNew : InScope (.join ⟨.inner, p'⟩) [b, c] := ⟨.join apartNew, hiddenNew⟩
  refine ⟨scopeNew, ⟨.join ?_, columns ▸ upper.free_disjoint⟩,
    Meaning.eq_of_scope columns fun env out => ?_⟩
  · change Disjoint a.defined ((LogicalOperator.join ⟨.inner, p'⟩).scope
      [b.toScope, c.toScope]).defined
    have apart := Finset.disjoint_left.1 apartUpper
    have apart' := Finset.disjoint_left.1 apartLower
    rw [join_scope, Finset.disjoint_left]
    grind [inner_columns]
  · constructor
    · rintro ⟨as, has, _, ⟨bs, hbs, cs, hcs, rfl⟩, rfl⟩
      exact ⟨_, ⟨as, has, bs, hbs, rfl⟩, cs, hcs, rows as bs cs⟩
    · rintro ⟨_, ⟨as, has, bs, hbs, rfl⟩, cs, hcs, rfl⟩
      exact ⟨as, has, _, ⟨bs, hbs, cs, hcs, rfl⟩, (rows as bs cs).symm⟩

/-- An inner join and a join of its left input that only produces left columns may change
places. -/
theorem swap {type : JoinType} (leftOnly : type.isLeftOnly = true) (ha : a.Sound)
    (hb : b.Sound) (hc : c.Sound) (lower : InScope (.join ⟨type, s⟩) [a, b])
    (upper : InScope (.join ⟨.inner, q⟩)
      [(LogicalOperator.join ⟨type, s⟩).meaning I db [a, b], c]) :
    InScope (.join ⟨.inner, q⟩) [a, c] ∧
      InScope (.join ⟨type, s⟩) [(LogicalOperator.join ⟨.inner, q⟩).meaning I db [a, c], b] ∧
      (LogicalOperator.join ⟨type, s⟩).meaning I db
          [(LogicalOperator.join ⟨.inner, q⟩).meaning I db [a, c], b] =
        (LogicalOperator.join ⟨.inner, q⟩).meaning I db
          [(LogicalOperator.join ⟨type, s⟩).meaning I db [a, b], c] := by
  have leftColumns (left right : Finset Nat) :
    type.columns left right = left := if_pos leftOnly
  have apartLower := lower.fits.join_apart
  have apartUpper := upper.fits.join_apart
  have hiddenUpper := upper.free_disjoint
  have aOut := ha.output_subset
  have bOut := hb.output_subset
  have cOut := hc.output_subset
  simp only [List.map, LogicalOperator.meaning, join_scope, inner_columns, leftColumns]
    at apartUpper hiddenUpper
  have sApart : Disjoint s.uses c.output := by
    have outside : Disjoint (s.uses \ (a.output ∪ b.output)) c.output :=
      hiddenUpper.mono (by grind) (by grind)
    have inside : Disjoint (a.output ∪ b.output) c.output := apartUpper.mono (by grind) cOut
    exact (outside.sup_left inside).mono_left le_sdiff_sup
  have columns : (LogicalOperator.join ⟨type, s⟩).scope
        [(LogicalOperator.join ⟨.inner, q⟩).scope [a.toScope, c.toScope], b.toScope] =
      (LogicalOperator.join ⟨.inner, q⟩).scope
        [(LogicalOperator.join ⟨type, s⟩).scope [a.toScope, b.toScope], c.toScope] := by
    have unseen := Finset.disjoint_left.1 sApart
    simp only [join_scope, inner_columns, leftColumns]
    ext i <;> grind
  have rows := swap_rows I (q := q) leftOnly b.output sApart
  refine ⟨⟨.join ?_, ?_⟩, ⟨.join ?_, columns ▸ upper.free_disjoint⟩,
    Meaning.eq_of_scope columns fun env out => ?_⟩
  · exact apartUpper.mono_left (by grind)
  · simp only [List.map, join_scope, inner_columns]
    exact hiddenUpper.mono (by grind) (by grind)
  · change Disjoint ((LogicalOperator.join ⟨.inner, q⟩).scope [a.toScope, c.toScope]).defined
      b.defined
    have apart := Finset.disjoint_left.1 apartUpper
    have apart' := Finset.disjoint_left.1 apartLower
    rw [join_scope, Finset.disjoint_left]
    grind [inner_columns]
  · constructor
    · rintro ⟨_, ⟨as, has, cs, hcs, rfl⟩, bs, hbs, rfl⟩
      exact ⟨_, ⟨as, has, bs, hbs, rfl⟩, cs, hcs, rows as bs cs⟩
    · rintro ⟨_, ⟨as, has, bs, hbs, rfl⟩, cs, hcs, rfl⟩
      exact ⟨_, ⟨as, has, cs, hcs, rfl⟩, bs, hbs, (rows as bs cs).symm⟩

/-- An inner join with stored tuples may select the matching ones for each left row, with the
left columns that the predicate uses bound to the values of that row. -/
theorem toIndexApply (hl : l.Sound) (hr : r.Sound) {tuples : Multiset Tuple}
    {cols : List Column} (rOut : r.output = Column.idsOf cols)
    (stored : ∀ env : Row, r.results env = {tuples.map (env.assign cols)})
    (scope : InScope (.join ⟨.inner, p⟩) [l, r]) {outer : List Column}
    (bound : Column.idsOf outer = p.uses ∩ l.output) :
    InScope (.select p) [r] ∧
      InScope (.apply ⟨.inner, .ofBool true, outer⟩)
        [l, (LogicalOperator.select p).meaning I db [r]] ∧
      (LogicalOperator.apply ⟨.inner, .ofBool true, outer⟩).meaning I db
          [l, (LogicalOperator.select p).meaning I db [r]] =
        (LogicalOperator.join ⟨.inner, p⟩).meaning I db [l, r] := by
  have apart := scope.fits.join_apart
  have hidden := scope.free_disjoint
  have lOut := hl.output_subset
  have rOut' := hr.output_subset
  have sides := Finset.disjoint_left.1 apart
  simp only [List.map, join_scope, inner_columns] at hidden
  have free := Finset.disjoint_left.1 hidden
  have selectScope : (LogicalOperator.select p).scope [r.toScope] =
      ⟨r.output, r.output ∪ r.defined, p.uses \ r.output ∪ r.free⟩ := by
    simp [LogicalOperator.scope, produced, inherited, usedColumns, Scalar.uses]
  have columns : (LogicalOperator.apply ⟨.inner, .ofBool true, outer⟩).scope
        [l.toScope, (LogicalOperator.select p).scope [r.toScope]] =
      (LogicalOperator.join ⟨.inner, p⟩).scope [l.toScope, r.toScope] := by
    have rFree : Disjoint r.free l.output := hidden.mono (by grind) (by grind)
    have inside := Finset.disjoint_left.1 rFree
    rw [join_scope, selectScope]
    simp only [LogicalOperator.scope, produced, inherited, usedColumns, bound,
      ColumnSet.idSet_insertMany, Scope.outputs_cons, Scope.outputs_nil,
      Scope.definitions_cons,
      Scope.definitions_nil, inner_columns]
    have none : (Scalar.ofBool true).usedColumns.idSet = ∅ := rfl
    rw [none]
    ext i <;> grind
  have rows {env : Row} {ls : Bag} (hls : ls ∈ l.results env) {x : Row} (hx : x ∈ ls) :=
    rOut ▸ lookup_rows I cols bound (hl.keeps hls hx) tuples
  refine ⟨⟨.select, ?_⟩, ⟨.apply ?_ ?_, columns ▸ scope.free_disjoint⟩,
    Meaning.eq_of_scope columns fun env out => ?_⟩
  · simp only [List.map, selectScope]
    have rFree : Disjoint r.free r.defined := hidden.mono (by grind) (by grind)
    have inside := Finset.disjoint_left.1 rFree
    have pFree : Disjoint (p.uses \ (l.output ∪ r.output)) r.defined :=
      hidden.mono (by grind) (by grind)
    have outside := Finset.disjoint_left.1 pFree
    rw [Finset.disjoint_left]
    grind
  · change Disjoint l.defined ((LogicalOperator.select p).scope [r.toScope]).defined
    rw [selectScope]
    exact apart.mono_right (by grind)
  · change Disjoint (Column.idsOf outer) ((LogicalOperator.select p).scope [r.toScope]).defined
    rw [selectScope, bound]
    exact apart.mono (by grind) (by grind)
  · simp only [LogicalOperator.meaning, results, stored, Set.mem_singleton_iff, exists_eq_left,
      Set.mem_ofPred_eq]
    constructor
    · rintro ⟨matched, hls, hm, rfl⟩
      refine ⟨_, hls, ?_⟩
      rw [Multiset.bind_map]
      refine Multiset.bind_congr fun x hx => ?_
      rw [hm x hx]
      exact rows hls (Multiset.mem_map_of_mem _ hx)
    · rintro ⟨ls, hls, rfl⟩
      refine ⟨ls.map fun x =>
        (x, (tuples.map ((env.assign outer (x.tuple outer)).assign cols)).filter
            fun y => p.test I y = some true), ?_, ?_, ?_⟩
      · simpa [Multiset.map_map] using hls
      · intro x hx
        obtain ⟨y, -, rfl⟩ := Multiset.mem_map.1 hx
        rfl
      · rw [Multiset.bind_map]
        exact Multiset.bind_congr fun x hx => (rows hls hx).symm

end Equivalence

end QueryOptimizer
