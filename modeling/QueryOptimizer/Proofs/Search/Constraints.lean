import QueryOptimizer.Proofs.Derivation.Constrained
import QueryOptimizer.Proofs.Search.Described

/-!
# Derived constraints are right about rows

Every row of a group has the constraint property that is derived for the group, in every
memo that the search can reach from a plan: what a predicate says of columns is true of the
rows that pass it, stored rows have values in columns that cannot be null, and what is
compared is of one type.

## Main results

* `Memo.Reached.holds_constraint`: rows of a group have the derived constraint property.
-/

namespace QueryOptimizer

variable {K : Type} [Quantity K]

/-! ### Operators that rules make -/

namespace Scalar

variable {Γ : Nat → DataType}

/-- A truth value is well typed. -/
theorem wellTyped_ofBool (b : Bool) : (ofBool b).WellTyped Γ := by
  refine forall_conjuncts_ofBool ⟨?_, fun _ _ equated => by cases equated⟩
  intro c op v shape
  cases shape

/-- The comparison of two rows is well typed. -/
theorem wellTyped_sameRow? {left right : List Column} {p : Scalar}
    (made : SetOperationRule.sameRow? left right = some p) : p.WellTyped Γ := by
  refine forall_conjuncts_sameRow?
    (fun l r _ => ⟨?_, fun _ _ equated => by cases equated⟩) made
  intro c op v shape
  cases shape

end Scalar

/-- Rules compare columns and values that are compared in given predicates, and columns that
set operations put in place of each other. -/
theorem RuleClosed.wellTyped (Γ : Nat → DataType) :
    RuleClosed (LogicalOperator.WellTyped Γ) where
  conjunction hp hq sub made := Scalar.forall_conjuncts_conjoin? hp hq sub made
  always _ := Scalar.wellTyped_ofBool true
  select h := h
  apply _ := Scalar.wellTyped_ofBool true
  limit _ _ _ := trivial
  unionAll h := h
  distinct _ := trivial
  sameRow _ _ made := Scalar.wellTyped_sameRow? made
  rename {s left right} h sides d hd := by
    rw [← List.map_uncurry_zip_eq_zipWith] at hd
    obtain ⟨p, hp, rfl⟩ := List.mem_map.1 hd
    have pair : (p.2, p.1) ∈ left.zip s.output :=
      List.zip_swap s.output left ▸ List.mem_map_of_mem hp
    refine ⟨fun c same => ?_, fun v same => by cases same⟩
    obtain rfl := Scalar.column.inj same
    exact h left (by simp [sides]) _ pair

/-- Rules make no operators that read stored or shared rows. -/
theorem RuleClosed.respectsColumns (db : Database) (producers : Nat → Set Scope) :
    RuleClosed (LogicalOperator.RespectsColumns db producers) :=
  .of_ofRule fun _ made => by cases made <;> trivial

/-! ### Groups -/

/-- Derived constraints are right about rows. -/
def Analysis.constraints {env : Environment K} {I : Interpretation}
    (truthful : env.catalog.Truthful I) (mirrored : I.Mirrored) (db : Database)
    (Γ : Nat → DataType) {D : Domains} (le : D ≤ .ofTypes Γ) (producers : Nat → Set Scope) :
    Analysis env I db where
  admits op := op.StaysWithin I db D ∧ op.WellTyped Γ ∧ op.RespectsColumns db producers
  describes := Relation.Constrained Γ D
  shares := CteInfo.Constrained db Γ D producers
  closed := (RuleClosed.staysWithin I db D).and
    ((RuleClosed.wellTyped Γ).and (RuleClosed.respectsColumns db producers))
  output constrained := constrained.produces
  derive admits scope sound rels shared derived :=
    LogicalOperator.constrained_of_derive le truthful mirrored scope sound admits.1
      admits.2.1 admits.2.2 rels shared (LogicalOperator.derived_of_eq_ok derived)

namespace Plan

/-- The columns of the producers of a shared result in a plan. -/
def producersOf (p : Plan K) (id : Nat) : Set Scope :=
  {s | ∃ q ∈ p.nodes, ∃ c, q.operator = .logical (.cteProducer c) ∧ c.id = id ∧ s = q.scope}

/-- Whether a plan is typed and a database, the values of which are in their domains,
is as the plan says. -/
structure RespectsTypes (I : Interpretation) (db : Database) (Γ : Nat → DataType) (D : Domains)
    (p : Plan K) : Prop where
  /-- The values of every column are in its domain. -/
  within : ∀ q ∈ p.nodes, ∀ op, q.operator = .logical op → op.StaysWithin I db D
  /-- What is compared, aligned or renamed is of one type. -/
  typed : ∀ q ∈ p.nodes, ∀ op, q.operator = .logical op → op.WellTyped Γ
  /-- Columns that cannot be null are not null, and shared results are read
  under new columns. -/
  columns : ∀ q ∈ p.nodes, ∀ op, q.operator = .logical op → op.RespectsColumns db p.producersOf
  shares : p.Shares I db

variable {I : Interpretation} {db : Database} {Γ : Nat → DataType} {D : Domains} {p : Plan K}

omit [Quantity K] in
/-- What is known of a producer is known of the shared result. -/
theorem RespectsTypes.constrained (h : p.RespectsTypes I db Γ D) {q : Plan K}
    (hq : q ∈ p.nodes) {c : CteProducer} (hc : q.operator = .logical (.cteProducer c))
    {r : Relation K} (constrained : r.Constrained Γ D (q.meaning I db)) :
    CteInfo.Constrained db Γ D p.producersOf c.id { r with cols := c.cols } where
  about := by
    have same : (q.meaning I db).toScope = q.scope := toScope_meaning q
    refine ⟨q.scope, ⟨q, hq, c, hc, rfl, rfl⟩, ?_⟩
    rw [← same]
    exact constrained.constraint.about
  holds row hrow x hx :=
    have shared := h.shares q hq c hc row
    ⟨constrained.within row hrow _ shared x hx,
      constrained.constraint.holds row hrow _ shared x hx⟩

/-- A plan that respects types is covered by the analysis of constraints. -/
theorem RespectsTypes.covers {env : Environment K} (h : p.RespectsTypes I db Γ D)
    (wf : p.WellFormed) (truthful : env.catalog.Truthful I) (mirrored : I.Mirrored)
    (le : D ≤ .ofTypes Γ) :
    (Analysis.constraints truthful mirrored db Γ le p.producersOf).Covers p where
  wellFormed := wf
  admits q hq op hop := ⟨h.within q hq op hop, h.typed q hq op hop, h.columns q hq op hop⟩
  registers _ hq _ hc _ constrained := h.constrained hq hc constrained

end Plan

namespace Memo

variable {env : Environment K} {I : Interpretation}

/-- In every memo that a search can reach, whichever rules are enabled, there are plans for
every group, and every row that one of them results in has the constraint property that is
derived for the group: its constraint admits the row, and the columns of each of its classes
have the same value. If the property is a contradiction, there are no rows. -/
theorem Reached.holds_constraint (truthful : env.catalog.Truthful I) (mirrored : I.Mirrored)
    (db : Database) {Γ : Nat → DataType} {plan : Plan K} (wf : plan.WellFormed)
    (respects : plan.RespectsTypes I db Γ (.ofTypes Γ)) {m m' : Memo K}
    (loaded : Memo.ofPlan env plan = .ok m) (reached : Reached env m m') :
    ∀ id r, m'.relation? id = some r → (∃ p, m'.Holds id p) ∧ ∀ p, m'.Holds id p →
      ∀ row : Row, row.Within (.ofTypes Γ) → ∀ bag ∈ (p.meaning I db).results row,
        (∀ x ∈ bag, (∀ c ∈ r.property.constraint.constraint, c.admits x = true) ∧
          ∀ cls ∈ r.property.constraint.classes, ∀ i ∈ cls.idSet, ∀ j ∈ cls.idSet,
            (x i).same (x j) = true) ∧
        (r.property.constraint.isContradiction = true → bag = 0) := by
  intro id r hr
  obtain ⟨some, described⟩ :=
    reached.described (respects.covers wf truthful mirrored le_rfl) loaded hr
  refine ⟨some, fun p held row hrow bag hbag => ?_⟩
  have holds (x : Row) (hx : x ∈ bag) : r.property.constraint.Holds x :=
    (described p held).constraint.holds row hrow bag hbag x hx
  refine ⟨fun x hx => ⟨(holds x hx).constraint, (holds x hx).classes⟩, fun contradiction => ?_⟩
  refine Multiset.eq_zero_of_forall_notMem fun x hx => ?_
  rw [(holds x hx).not_isContradiction] at contradiction
  cases contradiction

end Memo

/-! ### An example -/

namespace Sample

/-- The sample respects types. -/
theorem respectsTypes_plan :
    plan.RespectsTypes .strict contents (fun _ => .integer .int64) wholeNumbers where
  within := by
    simp only [mem_nodes_plan]
    rintro q (rfl | rfl | rfl) op hop <;> cases hop
    · trivial
    · intro t ht
      refine within_wholeNumbers fun v hv => ?_
      simp only [contents, Multiset.insert_eq_cons, Multiset.mem_cons,
        Multiset.mem_singleton] at ht
      rcases ht with rfl | rfl <;> exact ⟨_, List.mem_singleton.1 hv⟩
    · intro row hrow
      refine within_wholeNumbers fun v hv => ?_
      rcases List.mem_pair.1 hrow with rfl | rfl <;> exact ⟨_, List.mem_singleton.1 hv⟩
  typed := by
    simp only [mem_nodes_plan]
    rintro q (rfl | rfl | rfl) op hop <;> cases hop
    · intro c hc
      obtain rfl := List.mem_singleton.1 hc
      refine ⟨?_, fun _ _ _ => rfl⟩
      intro c op v shape
      cases shape
    · trivial
    · trivial
  columns := by
    simp only [mem_nodes_plan]
    rintro q (rfl | rfl | rfl) op hop <;> cases hop
    · trivial
    · intro t ht c hc _
      obtain rfl := List.mem_singleton.1 hc
      simp only [contents, Multiset.insert_eq_cons, Multiset.mem_cons,
        Multiset.mem_singleton] at ht
      rcases ht with rfl | rfl <;> simp [Row.assign]
    · trivial
  shares := by
    simp only [Plan.Shares, mem_nodes_plan]
    rintro q (rfl | rfl | rfl) c producer <;> cases producer

end Sample

namespace Memo

open Sample in
/-- The search for a join with a list of numbers: every row of every group has the
property that was derived. -/
theorem holds_constraint_sample : ∃ m, Memo.ofPlan setting plan = .ok m ∧
    ∀ id r, (optimize setting 1000 .any Stage.defaults m).memo.relation? id = some r →
      (∃ p, (optimize setting 1000 .any Stage.defaults m).memo.Holds id p) ∧
      ∀ p, (optimize setting 1000 .any Stage.defaults m).memo.Holds id p →
        ∀ row : Row, row.Within wholeNumbers →
          ∀ bag ∈ (p.meaning .strict contents).results row,
          (∀ x ∈ bag, (∀ c ∈ r.property.constraint.constraint, c.admits x = true) ∧
            ∀ cls ∈ r.property.constraint.classes, ∀ i ∈ cls.idSet, ∀ j ∈ cls.idSet,
              (x i).same (x j) = true) ∧
          (r.property.constraint.isContradiction = true → bag = 0) := by
  obtain ⟨m, loaded⟩ := exists_ofPlan
  exact ⟨m, loaded,
    Reached.holds_constraint (fun _ _ _ _ _ _ _ _ => rfl) (fun _ _ _ _ _ _ => rfl) contents
    wellFormed respectsTypes_plan loaded (reached_optimize 1000 .any Stage.defaults m)⟩

end Memo

end QueryOptimizer
