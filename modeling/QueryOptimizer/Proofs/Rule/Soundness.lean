import QueryOptimizer.Proofs.Memo.Tree
import QueryOptimizer.Proofs.Rule.Join
import QueryOptimizer.Proofs.Rule.Limit
import QueryOptimizer.Proofs.Rule.Rewriting
import QueryOptimizer.Proofs.Rule.SetOperation

/-!
# Soundness of the rules

What a rule makes of a binding can be entered into the group of the binding: it means the same,
its operators are in scope, and they are among those that occur (`ExprTree.Replaces`). The
rules read the operators of the binding and the columns of its groups off the memo; the
equivalences that they rest on are about meanings.

## Main results

* `RuleId.apply_replaces`: this is so for every rule.
-/

namespace QueryOptimizer

variable {K : Type} [Quantity K] {env : Environment K} {I : Interpretation} {db : Database}
  {A : Analysis env I db} {m : Memo K} {μ : GroupId → Meaning}

/-! ### Trees that replace others -/

/-- Whether a tree can be entered into the group `id`: a physical operator or a logical one
with the meaning of the group. -/
def ExprTree.Replaces (A : Analysis env I db) (m : Memo K) (μ : GroupId → Meaning)
    (id : GroupId) (t : ExprTree) : Prop :=
  ∃ op inputs, t = .operator op inputs ∧ (∀ u ∈ inputs, u.Insertable A m.groups.size μ) ∧
    ∀ lop, op = .logical lop → A.admits lop ∧ lop.InScope (meanings I db μ inputs) ∧
      lop.meaning I db (meanings I db μ inputs) = μ id

namespace ExprTree

variable {op : LogicalOperator} {inputs : List ExprTree}

/-- Groups mean what the model says. -/
theorem meanings_map_group (ids : List GroupId) :
    meanings I db μ (ids.map .group) = ids.map μ := by
  induction ids with
  | nil => simp only [List.map_nil, meanings]
  | cons id ids ih => simp only [List.map_cons, meanings, meaning, ih]

/-- Groups of the memo can be inserted. -/
theorem insertable_groups {ids : List GroupId} {n : Nat} (below : ∀ i ∈ ids, i < n) :
    ∀ u ∈ ids.map ExprTree.group, u.Insertable A n μ := by
  intro u hu
  obtain ⟨i, hi, rfl⟩ := List.mem_map.1 hu
  exact .group (below i hi)

/-- A join of insertable trees is one when it is in scope. -/
theorem insertable_joined {j : Join} {n : Nat} {l r : ExprTree} (admits : A.admits (.join j))
    (scope : LogicalOperator.InScope (.join j) [l.meaning I db μ, r.meaning I db μ])
    (hl : l.Insertable A n μ) (hr : r.Insertable A n μ) : (joined j l r).Insertable A n μ := by
  refine .operator admits (by simpa only [meanings] using scope) (fun p e => by cases e) ?_
  simpa using ⟨hl, hr⟩

/-- A logical operator in scope, over trees that can be entered, replaces what
has its meaning. -/
theorem replaces_logical {id : GroupId} (below : ∀ u ∈ inputs, u.Insertable A m.groups.size μ)
    (admits : A.admits op) (same : op.InScope (meanings I db μ inputs) ∧
      op.meaning I db (meanings I db μ inputs) = μ id) :
    (operator (.logical op) inputs).Replaces A m μ id :=
  ⟨_, _, rfl, below, fun _ hop => Operator.logical.inj hop ▸ ⟨admits, same⟩⟩

end ExprTree

open ExprTree

/-! ### Joins -/

namespace Memo.Models

variable {place lower : ExprId} {a b c : GroupId} {rest : List GroupId} {p q : Scalar}

/-- What is known of a join in the memo. -/
theorem join (h : m.Models A μ) {j : Join}
    (hk : m.key? place = some ⟨.logical (.join j), a :: b :: rest⟩) :
    rest = [] ∧ (a < m.groups.size ∧ b < m.groups.size) ∧ A.admits (.join j) ∧
      LogicalOperator.InScope (.join j) [μ a, μ b] ∧
      (LogicalOperator.join j).meaning I db [μ a, μ b] = μ place.group := by
  obtain rfl : rest = [] := by
    have fits := (h.inScope hk).fits
    cases rest with
    | nil => rfl
    | cons => cases fits
  exact ⟨rfl, ⟨h.inputs hk a (by simp), h.inputs hk b (by simp)⟩, h.admits hk,
    h.inScope hk, h.meaning hk⟩

/-- Turning a join around. -/
theorem commute_replaces (h : m.Models A μ)
    (hk : m.key? place = some ⟨.logical (.join ⟨.inner, p⟩), a :: b :: rest⟩) :
    (joined ⟨.inner, p⟩ (.group b) (.group a)).Replaces A m μ place.group := by
  obtain ⟨rfl, ⟨ha, hb⟩, admits, scope, meaning⟩ := h.join hk
  obtain ⟨scope', same⟩ := Equivalence.commute I db (h.sound ha) (h.sound hb) scope
  refine replaces_logical (by simpa using ⟨.group hb, .group ha⟩) admits ?_
  simpa only [meanings, ExprTree.meaning] using ⟨scope', same.trans meaning⟩

/-- Moving a semi or anti join above an inner join. -/
theorem exchange_replaces (h : m.Models A μ) {semi : Join}
    (leftOnly : semi.type.isLeftOnly = true)
    (hk : m.key? place = some ⟨.logical (.join ⟨.inner, q⟩), [lower.group, c]⟩)
    (hk' : m.key? lower = some ⟨.logical (.join semi), a :: b :: rest⟩) :
    (joined semi (joined ⟨.inner, q⟩ (.group a) (.group c)) (.group b)).Replaces A m μ
      place.group := by
  obtain ⟨-, ⟨-, hc⟩, admits, scope, meaning⟩ := h.join hk
  obtain ⟨rfl, ⟨ha, hb⟩, admitsLower, scopeLower, meaningLower⟩ := h.join hk'
  rw [← meaningLower] at scope meaning
  obtain ⟨scopeNew, scope', same⟩ :=
    Equivalence.swap I db leftOnly (h.sound ha) (h.sound hb) (h.sound hc) scopeLower scope
  have below : (joined ⟨.inner, q⟩ (.group a) (.group c)).Insertable A m.groups.size μ :=
    insertable_joined admits (by simpa only [ExprTree.meaning] using scopeNew)
      (.group ha) (.group hc)
  refine replaces_logical (by simpa using ⟨below, .group hb⟩) admitsLower ?_
  simpa only [joined, meanings, ExprTree.meaning] using ⟨scope', same.trans meaning⟩

end Memo.Models

namespace Scalar

variable {p q e : Scalar}

/-- Two predicates are spread into the conjuncts of both, apart from those
that say nothing. -/
theorem mem_spread :
    e ∈ p.spread q ↔ (e ∈ p.conjuncts ∨ e ∈ q.conjuncts) ∧ e.isTrue = false := by
  simp [spread, or_and_right]

/-- Both predicates are true if the conjuncts of either part are, however these are chosen. -/
theorem test_spread (I : Interpretation) (p q : Scalar) (f : Scalar → Bool) (r : Row) :
    (∀ e ∈ (p.spread q).filter f, e.test I r = some true) ∧
        (∀ e ∈ (p.spread q).filter (!f ·), e.test I r = some true) ↔
      p.test I r = some true ∧ q.test I r = some true := by
  rw [test_conjuncts I r p, test_conjuncts I r q]
  constructor
  · rintro ⟨chosen, others⟩
    have all (e : Scalar) (he : e ∈ p.conjuncts ∨ e ∈ q.conjuncts) :
        e.test I r = some true := by
      cases always : e.isTrue with
      | true => exact test_of_isTrue I always r
      | false =>
        have mem := mem_spread.2 ⟨he, always⟩
        cases choice : f e with
        | true => exact chosen e (List.mem_filter.2 ⟨mem, choice⟩)
        | false => exact others e (List.mem_filter.2 ⟨mem, by rw [choice]; rfl⟩)
    exact ⟨fun e he => all e (.inl he), fun e he => all e (.inr he)⟩
  · rintro ⟨hp, hq⟩
    have all {e : Scalar} (he : e ∈ p.spread q) : e.test I r = some true :=
      (mem_spread.1 he).1.elim (hp e) (hq e)
    exact ⟨fun e he => all (List.mem_filter.1 he).1, fun e he => all (List.mem_filter.1 he).1⟩

/-- The conditions that pass a test and those that do not use what the predicates use. -/
theorem uses_spread (p q : Scalar) (f : Scalar → Bool) :
    usesOf ((p.spread q).filter f) ∪ usesOf ((p.spread q).filter (!f ·)) =
      p.uses ∪ q.uses := by
  ext i
  rw [Finset.mem_union, Finset.mem_union, mem_usesOf, mem_usesOf, mem_uses_conjuncts (e := p),
    mem_uses_conjuncts (e := q)]
  constructor
  · have used {e : Scalar} {g : Scalar → Bool} (he : e ∈ (p.spread q).filter g)
      (hi : i ∈ e.uses) :
        (∃ e ∈ p.conjuncts, i ∈ e.uses) ∨ ∃ e ∈ q.conjuncts, i ∈ e.uses :=
      (mem_spread.1 (List.mem_filter.1 he).1).1.imp (⟨e, ·, hi⟩) (⟨e, ·, hi⟩)
    rintro (⟨e, he, hi⟩ | ⟨e, he, hi⟩)
    · exact used he hi
    · exact used he hi
  · intro h
    obtain ⟨e, he, hi⟩ : ∃ e, (e ∈ p.conjuncts ∨ e ∈ q.conjuncts) ∧ i ∈ e.uses := by
      rcases h with ⟨e, he, hi⟩ | ⟨e, he, hi⟩
      · exact ⟨e, .inl he, hi⟩
      · exact ⟨e, .inr he, hi⟩
    -- Conjuncts that are always true are left out, but they use no column.
    have someColumn : e.isTrue = false := by
      refine Bool.eq_false_iff.2 fun always => ?_
      rw [uses_of_isTrue always] at hi
      exact absurd hi (Finset.notMem_empty i)
    have mem := mem_spread.2 ⟨he, someColumn⟩
    cases choice : f e with
    | true => exact .inl ⟨e, List.mem_filter.2 ⟨mem, choice⟩, hi⟩
    | false => exact .inr ⟨e, List.mem_filter.2 ⟨mem, by rw [choice]; rfl⟩, hi⟩

end Scalar

namespace JoinRule

variable {t t' : ExprTree} {id : GroupId}

/-- Rotating two inner joins. -/
theorem associate_replaces (h : m.Models A μ) (root : t.rootGroup = .ok id)
    (binds : m.Binds (innerOver (· == .inner)) t) (made : associate m t = .ok (some t')) :
    t'.Replaces A m μ id := by
  obtain ⟨place, lower, p, q, a, b, c, rest, rb, rc, below, r, ⟨rfl, hk, hk'⟩,
    ⟨hrb, hrc, known⟩, lowered, rfl⟩ := associate_eq_ok binds made
  obtain rfl := Except.ok.inj root
  obtain ⟨-, ⟨-, hc⟩, admits, scope, meaning⟩ := h.join hk
  obtain ⟨rfl, ⟨ha, hb⟩, admitsLower, scopeLower, meaningLower⟩ := h.join hk'
  rw [← meaningLower] at scope meaning
  have columns : below.idSet = (μ b).output ∪ (μ c).output := by
    rw [known, ColumnSet.idSet_union, A.output (h.describes hrb), A.output (h.describes hrc)]
  have inside : r.uses ⊆ (μ b).output ∪ (μ c).output := by
    rw [Scalar.uses_conjoin? lowered, ← columns]
    intro i hi
    obtain ⟨e, he, hi⟩ := Scalar.mem_usesOf.1 hi
    exact ColumnSet.isSubset_iff.1 (List.mem_filter.1 he).2 hi
  let kept := (p.spread q).filter (!·.usedColumns.isSubset below)
  have uses : r.uses ∪ ((Scalar.conjoin? kept).getD (.ofBool true)).uses =
      p.uses ∪ q.uses := by
    rw [Scalar.uses_conjoin? lowered, Scalar.uses_conjoin?_getD, Scalar.uses_spread]
  have test (row : Row) : r.test I row = some true ∧
      ((Scalar.conjoin? kept).getD (.ofBool true)).test I row = some true ↔
        p.test I row = some true ∧ q.test I row = some true := by
    rw [Scalar.test_conjoin? I lowered, Scalar.test_conjoin?_getD, Scalar.test_spread]
  obtain ⟨scopeNew, scope', same⟩ := Equivalence.associate I db (h.sound ha) (h.sound hb)
    (h.sound hc) scopeLower scope inside uses test
  have old {e : Scalar} {f : Scalar → Bool} (he : e ∈ (p.spread q).filter f) :
      e ∈ p.conjuncts ∨ e ∈ q.conjuncts := (Scalar.mem_spread.1 (List.mem_filter.1 he).1).1
  have lowerJoin : (joined ⟨.inner, r⟩ (.group b) (.group c)).Insertable A m.groups.size μ :=
    insertable_joined (A.closed.conjunction admitsLower admits (fun e he => old he) lowered)
      (by simpa only [ExprTree.meaning] using scopeNew) (.group hb) (.group hc)
  refine replaces_logical (by simpa using ⟨.group ha, lowerJoin⟩) ?_ ?_
  · cases remaining : Scalar.conjoin? kept with
    | none => exact A.closed.always admits
    | some r => exact A.closed.conjunction admitsLower admits (fun e he => old he) remaining
  · simpa only [joined, meanings, ExprTree.meaning] using ⟨scope', same.trans meaning⟩

end JoinRule

namespace Memo.Models

/-- What reading a stored table means. -/
theorem stored_of_isTableAccess (h : m.Models A μ) {place : ExprId} {op : Operator}
    {ids : List GroupId} (hk : m.key? place = some ⟨op, ids⟩)
    (access : op.isTableAccess = true) :
    ∃ cols, ∃ tuples : Multiset Tuple, (μ place.group).output = Column.idsOf cols ∧
      ∀ row : Row, (μ place.group).results row = {tuples.map (row.assign cols)} := by
  unfold Operator.isTableAccess at access
  split at access
  · rename_i s
    have meaning := h.meaning hk
    have fits := (h.inScope hk).fits
    cases ids with
    | nil =>
      exact ⟨s.cols,
        db.table s.table.id, by rw [← meaning]; rfl, by rw [← meaning]; intro; rfl⟩
    | cons => cases fits
  · rename_i s
    have meaning := h.meaning hk
    have fits := (h.inScope hk).fits
    cases ids with
    | nil =>
      exact ⟨s.cols,
        db.table s.table.id, by rw [← meaning]; rfl, by rw [← meaning]; intro; rfl⟩
    | cons => cases fits
  · cases access

/-- Looking the matching rows of a stored table up. -/
theorem lookup_replaces (h : m.Models A μ) {place table : ExprId} {p : Scalar} {a : GroupId}
    {key : ExprKey} {r : Relation K}
    (hk : m.key? place = some ⟨.logical (.join ⟨.inner, p⟩), [a, table.group]⟩)
    (left : m.relation? a = some r) (hk' : m.key? table = some key)
    (access : key.operator.isTableAccess = true) :
    ExprTree.Replaces A m μ place.group (.operator (.logical (.apply ⟨.inner, .ofBool true,
        r.property.output.toList.filter p.usedColumns.contains⟩))
      [.group a, .operator (.logical (.select p)) [.group table.group]]) := by
  obtain ⟨-, ⟨ha, hb⟩, admits, scope, meaning⟩ := h.join hk
  obtain ⟨cols, tuples, output, stored⟩ := h.stored_of_isTableAccess hk' access
  have bound : Column.idsOf (r.property.output.toList.filter p.usedColumns.contains) =
      p.uses ∩ (μ a).output := by
    rw [ColumnSet.idsOf_filter_contains, A.output (h.describes left)]
    rfl
  obtain ⟨scopeNew, scope', same⟩ :=
    Equivalence.toIndexApply I db (h.sound ha) (h.sound hb) output stored scope bound
  have matching : (operator (.logical (.select p)) [.group table.group]).Insertable A
      m.groups.size μ := by
    refine .operator (A.closed.select admits) ?_ (fun q e => by cases e)
      (by simpa using .group hb)
    simpa only [meanings, ExprTree.meaning] using scopeNew
  refine replaces_logical (by simpa using ⟨.group ha, matching⟩) (A.closed.apply admits) ?_
  simpa only [meanings, ExprTree.meaning] using ⟨scope', same.trans meaning⟩

/-! ### Limits -/

variable {place lower : ExprId} {ids : List GroupId} {op : LogicalOperator}

/-- What is known of an operator over an operator that takes one input. -/
theorem stacked (h : m.Models A μ)
    (one : ∀ ms : List Meaning, op.Fits Meaning.toScope ms → ms.length = 1)
    {upper : LogicalOperator} (hk : m.key? place = some ⟨.logical upper, [lower.group]⟩)
    (hk' : m.key? lower = some ⟨.logical op, ids⟩) :
    ∃ a, ids = [a] ∧ a < m.groups.size ∧ op.InScope [μ a] ∧
      upper.InScope [op.meaning I db [μ a]] ∧
      upper.meaning I db [op.meaning I db [μ a]] = μ place.group := by
  have length : (ids.map μ).length = 1 := one _ (h.inScope hk').fits
  rw [List.length_map] at length
  obtain ⟨a, rfl⟩ := List.length_eq_one_iff.1 length
  have below : op.meaning I db [μ a] = μ lower.group := h.meaning hk'
  refine ⟨a, rfl, h.inputs hk' a (by simp), h.inScope hk', ?_⟩
  rw [below]
  exact ⟨h.inScope hk, h.meaning hk⟩

/-- A limit over a limit that becomes one. -/
theorem merge_replaces (h : m.Models A μ) {outer inner l : Limit}
    (hk : m.key? place = some ⟨.logical (.limit outer), [lower.group]⟩)
    (hk' : m.key? lower = some ⟨.logical (.limit inner), ids⟩)
    (merged : outer.mergeOver inner = some l) :
    ExprTree.Replaces A m μ place.group
      (.operator (.logical (.limit l)) (ids.map .group)) := by
  obtain ⟨a, rfl, ha, scopeLower, scope, meaning⟩ :=
    h.stacked (fun _ fits => by cases fits; rfl) hk hk'
  obtain ⟨scope', same⟩ := Equivalence.mergeLimits I db scopeLower scope merged
  refine replaces_logical (by simpa using .group ha)
    (A.closed.limit (h.admits hk) (h.admits hk') merged) ?_
  simpa only [List.map, meanings, ExprTree.meaning] using ⟨scope', same.trans meaning⟩

end Memo.Models

namespace LimitRule

variable {t t' : ExprTree} {id : GroupId}

/-- A limit that goes below a projection. -/
theorem pushBelowProject_replaces (h : m.Models A μ) (root : t.rootGroup = .ok id)
    (binds : m.Binds (limitOver (·.project?.isSome)) t)
    (made : pushBelowProject m t = .ok (some t')) : t'.Replaces A m μ id := by
  obtain ⟨place, lower, l, ds, ids, ⟨rfl, hk, hk'⟩, apart, rfl⟩ :=
    pushBelowProject_eq_ok binds made
  obtain rfl := Except.ok.inj root
  obtain ⟨a, rfl, ha, scopeLower, scope, meaning⟩ :=
    h.stacked (fun _ fits => by cases fits; rfl) hk hk'
  rw [ColumnSet.isDisjoint_iff, ColumnSet.idSet_ofList] at apart
  obtain ⟨scopeNew, scope', same⟩ :=
    Equivalence.limitBelowProject I db (h.sound ha) scopeLower scope apart
  have limited : (operator (.logical (.limit l)) [.group a]).Insertable A m.groups.size μ := by
    refine .operator (h.admits hk) ?_ (fun q e => by cases e) (by simpa using .group ha)
    simpa only [meanings, ExprTree.meaning] using scopeNew
  refine replaces_logical (by simpa using limited) (h.admits hk') ?_
  simpa only [List.map, meanings, ExprTree.meaning] using ⟨scope', same.trans meaning⟩

end LimitRule

/-! ### Set operations -/

namespace SetOperationRule

/-- The predicate that compares rows column by column. -/
theorem test_sameRow? {left right : List Column} (length : left.length = right.length)
    {p : Scalar} (made : sameRow? left right = some p) (r : Row) :
    p.test I r = some true ↔ (r.tuple left).same (r.tuple right) = true := by
  have all (ls rs : List Column) :
    (∀ e ∈ List.zipWith (fun l r => Scalar.binary .isNotDistinctFrom
        (.column l) (.column r)) ls rs, e.test I r = some true) ↔
      (List.zipWith Value.same (r.tuple ls) (r.tuple rs)).all id = true := by
    induction ls generalizing rs with
    | nil => simp [Row.tuple]
    | cons l ls ih =>
      cases rs with
      | nil => simp [Row.tuple]
      | cons c cs =>
        have first : (Scalar.binary .isNotDistinctFrom (.column l) (.column c)).test I r =
            some ((r l.id).same (r c.id)) := rfl
        simp only [Row.tuple, List.map_cons, List.zipWith_cons_cons,
          List.forall_mem_cons, first, List.all_cons, id_eq, Bool.and_eq_true,
          Option.some.injEq]
        exact and_congr_right fun _ => ih cs
  rw [Scalar.test_conjoin? I made, all, Tuple.same]
  simp [Row.tuple, length]

/-- The comparison of two rows uses their columns. -/
theorem uses_sameRow? {left right : List Column} {p : Scalar}
    (made : sameRow? left right = some p) :
    p.uses ⊆ Column.idsOf left ∪ Column.idsOf right := by
  intro i hi
  rw [Scalar.uses_conjoin? made] at hi
  obtain ⟨e, he, hi⟩ := Scalar.mem_usesOf.1 hi
  rw [← List.map_uncurry_zip_eq_zipWith] at he
  obtain ⟨⟨c, d⟩, hcd, rfl⟩ := List.mem_map.1 he
  obtain ⟨hc, hd⟩ := List.of_mem_zip hcd
  have either : i = c.id ∨ i = d.id := by simpa using hi
  rw [Finset.mem_union, Column.mem_idsOf, Column.mem_idsOf]
  exact either.imp (fun e => ⟨c, hc, e.symm⟩) fun e => ⟨d, hd, e.symm⟩

end SetOperationRule

namespace Memo.Models

open SetOperationRule

variable {place : ExprId} {s : SetOperation}

/-- A union as the different rows of a union that keeps duplicates. -/
theorem unionAll_replaces (h : m.Models A μ) {ids : List GroupId} (kind : s.kind = .union)
    (hk : m.key? place = some ⟨.logical (.setOp s), ids⟩) :
    (distinct s.output
      (.operator (.logical (.setOp { s with kind := .unionAll })) (ids.map .group))).Replaces A
        m μ place.group := by
  have union : s = { s with kind := .union } := by rw [← kind]
  have scope := h.inScope hk
  have meaning := h.meaning hk
  rw [union] at scope meaning
  obtain ⟨scopeAll, scope', same⟩ := Equivalence.unionToUnionAll I db scope
  have all : (operator (.logical (.setOp { s with kind := .unionAll }))
      (ids.map .group)).Insertable A m.groups.size μ := by
    refine .operator (A.closed.unionAll (h.admits hk)) ?_ (fun q e => by cases e)
      (insertable_groups (h.inputs hk))
    rwa [meanings_map_group]
  refine replaces_logical (by simpa using all) (A.closed.distinct (h.admits hk)) ?_
  simpa only [meanings, ExprTree.meaning, meanings_map_group]
    using ⟨scope', same.trans meaning⟩

/-- A set operation on two inputs as the different rows of a join. -/
theorem rejoin_replaces (h : m.Models A μ) {type : JoinType}
    (finds : Equivalence.Finds s.kind type) {left right : List Column} {p : Scalar}
    {a b : GroupId} (first : s.inputs[0]? = some left) (second : s.inputs[1]? = some right)
    (compared : sameRow? left right = some p)
    (hk : m.key? place = some ⟨.logical (.setOp s), [a, b]⟩) :
    (distinct s.output
      (renamed s.output left (joined ⟨type, p⟩ (.group a) (.group b)))).Replaces A m μ
        place.group := by
  have scope := h.inScope hk
  have meaning := h.meaning hk
  obtain ⟨lists, length⟩ : s.inputs = [left, right] ∧ left.length = right.length := by
    cases scope.fits with
    | setOp someColumn distinct someInput apart aligned fresh =>
      obtain ⟨l, rest, ⟨-, hl, -⟩, hrest, inputs⟩ := List.forall₂_cons_right_iff.1 aligned
      obtain ⟨r, none, ⟨-, hr, -⟩, hnone, rfl⟩ := List.forall₂_cons_right_iff.1 hrest
      obtain rfl := List.forall₂_nil_right_iff.1 hnone
      rw [inputs] at first second
      obtain rfl := Option.some.inj first
      obtain rfl := Option.some.inj second
      exact ⟨inputs, hl.trans hr.symm⟩
  have ha : a < m.groups.size := h.inputs hk a (by simp)
  have hb : b < m.groups.size := h.inputs hk b (by simp)
  obtain ⟨joinScope, straight, projected⟩ := Equivalence.toJoin I db (h.sound ha)
    (h.sound hb) scope lists finds (uses_sameRow? compared) (test_sameRow? length compared)
  have rows : (joined ⟨type, p⟩ (.group a) (.group b)).Insertable A m.groups.size μ :=
    insertable_joined (A.closed.sameRow (h.admits hk) lists compared)
      (by simpa only [ExprTree.meaning] using joinScope) (.group ha) (.group hb)
  unfold renamed
  cases equal : s.output == left with
  | true =>
    obtain ⟨scope', same⟩ := straight equal
    refine replaces_logical (by simpa using rows) (A.closed.distinct (h.admits hk)) ?_
    simpa only [if_true, joined, meanings, ExprTree.meaning] using ⟨scope', same.trans meaning⟩
  | false =>
    obtain ⟨scopeNew, scope', same⟩ := projected equal
    have named : (operator (.logical (.project (Equivalence.renames s.output left)))
        [joined ⟨type, p⟩ (.group a) (.group b)]).Insertable A m.groups.size μ := by
      refine .operator (A.closed.rename (h.admits hk) lists) ?_ (fun q e => by cases e)
        (by simpa using rows)
      simpa only [joined, meanings, ExprTree.meaning] using scopeNew
    refine replaces_logical (by simpa [Equivalence.renames] using named)
      (A.closed.distinct (h.admits hk)) ?_
    simpa [joined, meanings, ExprTree.meaning, Equivalence.renames]
      using ⟨scope', same.trans meaning⟩

end Memo.Models

/-! ### All rules -/

/-- Joins that are exchanged keep left rows only. -/
theorem RuleId.isLeftOnly_of_exchanges {r : RuleId} {type : JoinType}
    (h : r.exchanges type = true) : type.isLeftOnly = true := by
  cases r <;> cases type <;> first | rfl | cases h

/-- The join that replaces a set operation finds the rows of it. -/
theorem RuleId.finds_of_joinFor? {r : RuleId} {kind : SetOpKind} {type : JoinType}
    (h : r.joinFor? = some (kind, type)) : Equivalence.Finds kind type := by
  cases r <;> cases h
  · exact .difference
  · exact .intersect

/-- What a rule makes of a binding can be entered into the group of the binding. -/
theorem RuleId.apply_replaces (h : m.Models A μ) {r : RuleId} {t t' : ExprTree} {id : GroupId}
    (root : t.rootGroup = .ok id) (binds : m.Binds r.pattern t)
    (made : r.apply m t = .ok (some t')) : t'.Replaces A m μ id := by
  obtain ⟨place, ts, k, rfl, hk, rewrites⟩ := RuleId.rewrites_of_apply binds made
  obtain rfl := Except.ok.inj root
  cases rewrites with
  | commute => exact h.commute_replaces hk
  | associate => exact JoinRule.associate_replaces h root binds made
  | exchange exchanges below =>
    exact h.exchange_replaces (isLeftOnly_of_exchanges exchanges) hk below
  | lookup left below access => exact h.lookup_replaces hk left below access
  | push => exact LimitRule.pushBelowProject_replaces h root binds made
  | merge below merged => exact h.merge_replaces hk below merged
  | unionAll kind => exact h.unionAll_replaces kind hk
  | rejoin joins first second compared =>
    exact h.rejoin_replaces (finds_of_joinFor? joins) first second compared hk
  | implement =>
    exact ⟨_, _, rfl, insertable_groups (h.inputs hk), fun lop hop => by cases hop⟩

end QueryOptimizer
