import Mathlib.Data.List.Zip
import QueryOptimizer.Proofs.Memo.Held
import QueryOptimizer.Proofs.Plan.Loading
import QueryOptimizer.Proofs.Search.Reached
import QueryOptimizer.Proofs.Semantics.Domain

/-!
# Derived relations are right about plans

What is derived about a group says something about all plans that can be read off the group,
in every memo that a search can reach from a plan whose operators are covered by an analysis.
Most analyses need rows that stay within domains, so the operators that rules make have to
stay within them, too.

## Main results

* `Memo.Reached.described`: what is derived about a group is right about its plans.
* `RuleClosed.staysWithin`: rules make operators that stay within domains.
-/

namespace QueryOptimizer

variable {K : Type} [Quantity K]

/-! ### Operators that rules make -/

namespace Scalar

/-- What holds of all conjuncts of two predicates holds of those of a conjunction that
rules make of them. -/
theorem forall_conjuncts_conjoin? {Q : Scalar → Prop} {p q r : Scalar} {es : List Scalar}
    (hp : ∀ c ∈ p.conjuncts, Q c) (hq : ∀ c ∈ q.conjuncts, Q c)
    (sub : ∀ e ∈ es, e ∈ p.conjuncts ∨ e ∈ q.conjuncts) (made : conjoin? es = some r) :
    ∀ c ∈ r.conjuncts, Q c := by
  intro c hc
  obtain ⟨e, he, hc⟩ := mem_conjuncts_conjoin? made hc
  rcases sub e he with old | old <;> rw [conjuncts_of_mem_conjuncts old] at hc <;>
    obtain rfl := List.mem_singleton.1 hc
  · exact hp c old
  · exact hq c old

/-- What holds of a truth value holds of its conjuncts. -/
theorem forall_conjuncts_ofBool {Q : Scalar → Prop} {b : Bool} (h : Q (ofBool b)) :
    ∀ c ∈ (ofBool b).conjuncts, Q c := by
  simpa [ofBool, conjuncts] using h

/-- The rows of set operations are compared column by column. -/
theorem forall_conjuncts_sameRow? {Q : Scalar → Prop} {left right : List Column} {p : Scalar}
    (h : ∀ l r, (l, r) ∈ left.zip right → Q (binary .isNotDistinctFrom (column l) (column r)))
    (made : SetOperationRule.sameRow? left right = some p) : ∀ c ∈ p.conjuncts, Q c := by
  intro c hc
  obtain ⟨e, he, hc⟩ := mem_conjuncts_conjoin? made hc
  rw [← List.map_uncurry_zip_eq_zipWith] at he
  obtain ⟨⟨l, r⟩, pair, rfl⟩ := List.mem_map.1 he
  obtain rfl := List.mem_singleton.1 hc
  exact h l r pair

end Scalar

/-- Rules make operators that stay within the domains of such operators. -/
theorem RuleClosed.staysWithin (I : Interpretation) (db : Database) (D : Domains) :
    RuleClosed (LogicalOperator.StaysWithin I db D) where
  conjunction _ _ _ _ := trivial
  always _ := trivial
  select _ := trivial
  apply _ := trivial
  limit _ _ _ := trivial
  unionAll h := h
  distinct _ _ _ _ _ d hd := by cases hd
  sameRow _ _ _ := trivial
  rename {s left right} h sides r hr d hd v hv := by
    rw [← List.map_uncurry_zip_eq_zipWith] at hd
    obtain ⟨p, hp, rfl⟩ := List.mem_map.1 hd
    have pair : (p.2, p.1) ∈ left.zip s.output :=
      List.zip_swap s.output left ▸ List.mem_map_of_mem hp
    exact h left (by simp [sides]) _ pair (hr _ v hv)

/-! ### Shared results -/

namespace Plan

/-- The producers of shared results in a plan. -/
def producers (p : Plan K) : Set CteProducer :=
  {c | ∃ q ∈ p.nodes, q.operator = .logical (.cteProducer c)}

/-- Whether the shared results of a database are results of the producers in a plan. -/
def Shares (I : Interpretation) (db : Database) (p : Plan K) : Prop :=
  ∀ q ∈ p.nodes, ∀ c, q.operator = .logical (.cteProducer c) →
    ∀ env, db.shared c.id env ∈ (q.meaning I db).results env

omit [Quantity K] in
/-- A producer has the columns of the shared result. -/
theorem output_of_producer {I : Interpretation} {db : Database} {p : Plan K} {c : CteProducer}
    (h : p.operator = .logical (.cteProducer c)) :
    (p.meaning I db).output = Column.idsOf c.cols := by
  rw [meaning_of_logical h]
  rfl

end Plan

/-! ### Groups -/

namespace Memo

variable {env : Environment K} {I : Interpretation} {db : Database} {A : Analysis env I db}

/-- There are plans for every group of a memo that a search can reach, and what is derived
about the group is right about each of them. -/
theorem Reached.described {plan : Plan K} (covers : A.Covers plan) {m m' : Memo K}
    (loaded : Memo.ofPlan env plan = .ok m) (reached : Reached env m m') {id : GroupId}
    {r : Relation K} (hr : m'.relation? id = some r) :
    (∃ p, m'.Holds id p) ∧ ∀ p, m'.Holds id p → A.describes r (p.meaning I db) := by
  obtain ⟨μ, models, started, -, -⟩ := models_ofPlan covers loaded
  obtain ⟨μ', later⟩ := reached.later models
  have started' (id : GroupId) (hid : id < m'.groups.size) : m'.Started id := by
    by_cases old : id < m.groups.size
    · exact (started id old).extends later.extended
    · exact later.extended.started id (Nat.le_of_not_lt old) hid
  refine ⟨exists_holds started' id (lt_of_relation? hr), fun p held => ?_⟩
  rw [later.models.meaning_of_holds held]
  exact later.models.describes hr

end Memo

/-! ### An example -/

namespace Sample

/-- All columns are of one type. -/
abbrev wholeNumbers : Domains := .ofTypes fun _ => .integer .int64

/-- Tuples of whole numbers are within the domains of the sample. -/
theorem within_wholeNumbers {cols : List Column} {t : Tuple}
    (h : ∀ v ∈ t, ∃ n, v = some (.integer .int64 n)) : t.Within wholeNumbers cols := by
  intro p hp v hv
  obtain ⟨n, hn⟩ := h p.2 (List.of_mem_zip hp).2
  obtain rfl := Option.some.inj (hn.symm.trans hv)
  exact ⟨rfl, rfl⟩

end Sample

end QueryOptimizer
