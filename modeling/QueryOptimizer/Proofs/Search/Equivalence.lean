import QueryOptimizer.Proofs.Derivation.Output
import QueryOptimizer.Proofs.Memo.Held
import QueryOptimizer.Proofs.Plan.Loading
import QueryOptimizer.Proofs.Search.Reached

/-!
# Expressions of a group are equivalent

The logical expressions of a group are interchangeable in every memo that the search can
reach from a well-formed plan without limits: they have the same derived columns, and all
plans that can be read off the group result in the same bag of rows, for every database and
all values of outer columns.

A limit keeps rows by an order that is no part of the meaning, so a plan with limits
has several possible results. That the rules preserve all of them is part of what is
proved about each rule.

## Main results

* `Memo.Reached.interchangeable`: the expressions of a group are interchangeable.
-/

namespace QueryOptimizer

variable {K : Type} [Quantity K]

/-! ### What is known of the groups -/

/-- Limits are only made of limits. -/
theorem RuleClosed.notLimit : RuleClosed fun op => op.isLimit = false where
  conjunction _ _ _ _ := rfl
  always _ := rfl
  select _ := rfl
  apply _ := rfl
  limit h := by cases h
  unionAll _ := rfl
  distinct _ := rfl
  sameRow _ _ _ := rfl
  rename _ _ := rfl

/-- There are no limits, and the derived columns are those of the rows. -/
def Analysis.withoutLimits (env : Environment K) (I : Interpretation) (db : Database) :
    Analysis env I db where
  admits op := op.isLimit = false
  describes := Relation.Produces
  shares _ _ := True
  closed := .notLimit
  output := id
  derive _ scope _ rels _ derived :=
    LogicalOperator.produces_of_derive scope.fits rels
      (LogicalOperator.derived_of_eq_ok derived) I db

namespace Plan

/-- Whether no operator of a plan is a limit. -/
def LimitFree (p : Plan K) : Prop :=
  ∀ q ∈ p.nodes, ∀ op, q.operator = .logical op → op.isLimit = false

/-- A plan without limits is covered by the analysis of meanings. -/
theorem covers_withoutLimits {p : Plan K} (wf : p.WellFormed) (limitFree : p.LimitFree)
    (env : Environment K) (I : Interpretation) (db : Database) :
    (Analysis.withoutLimits env I db).Covers p where
  wellFormed := wf
  admits := limitFree
  registers _ _ _ _ _ _ := trivial

end Plan

/-! ### Groups -/

/-- Whether the logical expressions of a group can stand in for one another. -/
structure Memo.Interchangeable (I : Interpretation) (db : Database) (m : Memo K)
    (id : GroupId) :
    Prop where
  /-- They have the same derived columns. -/
  columns : ∃ columns : Finset Nat, ∀ place op inputs, place.group = id →
    m.key? place = some ⟨.logical op, inputs⟩ →
      ∃ rels output, m.relations inputs = .ok rels ∧ op.output rels = .ok output ∧
        output.idSet = columns
  /-- There is a plan for each of them. -/
  plans : ∀ place op inputs, place.group = id → m.key? place = some ⟨.logical op, inputs⟩ →
    ∃ p, m.HoldsAt place p
  /-- For each assignment of the outer columns, all these plans have exactly one result, and it
  is the same bag of rows. -/
  rows : ∀ env, ∃ bag, ∀ place p, place.group = id → m.HoldsAt place p →
    (p.meaning I db).results env = {bag}

namespace Memo

variable {env : Environment K} {I : Interpretation} {db : Database} {A : Analysis env I db}
  {m : Memo K} {μ : GroupId → Meaning}

/-- The derived columns of an expression are the columns of its group. -/
theorem Models.output_of_key? (h : m.Models A μ) {place : ExprId} {op : LogicalOperator}
    {inputs : List GroupId} (hk : m.key? place = some ⟨.logical op, inputs⟩) :
    ∃ rels output, m.relations inputs = .ok rels ∧ op.output rels = .ok output ∧
      output.idSet = (μ place.group).output := by
  obtain ⟨rels, hrels⟩ := exists_relations (h.inputs hk)
  obtain ⟨output, houtput, same⟩ := LogicalOperator.output_eq_ok (h.inScope hk).fits
    ((h.relations hrels).imp fun _ _ => A.output)
  exact ⟨rels, output, hrels, houtput, same.trans (by rw [← h.meaning hk]; rfl)⟩

/-- In a model without limits the expressions of a group are interchangeable. -/
theorem Models.exchangeable (h : m.Models A μ) (started : ∀ id < m.groups.size, m.Started id)
    (noLimit : ∀ op, A.admits op → op.isLimit = false) {id : GroupId}
    (inside : id < m.groups.size) : m.Interchangeable I db id where
  columns := ⟨(μ id).output, fun place op inputs hplace hk => hplace ▸ h.output_of_key? hk⟩
  plans place op inputs _ hk :=
    exists_holdsAt_of_inputs hk fun i hi => exists_holds started i (h.inputs hk i hi)
  rows env := by
    obtain ⟨bag, hbag⟩ := h.determined started noLimit id inside env
    refine ⟨bag, fun place p hplace held => ?_⟩
    rw [h.meaning_of_holdsAt held, hplace, hbag]

/-- The logical expressions of each group are interchangeable in every memo that a search can
reach from a well-formed plan without limits, whichever rules are enabled. The plans of the
root group result in what the plan results in. -/
theorem Reached.interchangeable (I : Interpretation) (db : Database) {plan : Plan K}
    (wf : plan.WellFormed) (limitFree : plan.LimitFree) {m m' : Memo K}
    (loaded : Memo.ofPlan env plan = .ok m) (reached : Reached env m m') :
    (∀ id < m'.groups.size, m'.Interchangeable I db id) ∧
      m'.root < m'.groups.size ∧
      ∀ p, m'.Holds m'.root p →
        ∀ row, (p.meaning I db).results row = (plan.meaning I db).results row := by
  obtain ⟨μ, models, started, inside, means⟩ :=
    models_ofPlan (plan.covers_withoutLimits wf limitFree env I db) loaded
  obtain ⟨μ', later⟩ := reached.later models
  have started' (id : GroupId) (hid : id < m'.groups.size) : m'.Started id := by
    by_cases old : id < m.groups.size
    · exact (started id old).extends later.extended
    · exact later.extended.started id (Nat.le_of_not_lt old) hid
  refine ⟨fun id hid => later.models.exchangeable started' (fun _ h => h) hid, ?_, ?_⟩
  · rw [later.extended.root]
    exact Nat.lt_of_lt_of_le inside later.extended.size_le
  · intro p held row
    rw [later.models.meaning_of_holds held, later.extended.root, later.agree _ inside, means]

/-- The sample has no limits. -/
theorem limitFree_sample : Sample.plan.LimitFree := by
  simp only [Plan.LimitFree, Sample.mem_nodes_plan]
  rintro q (rfl | rfl | rfl) op hop <;> cases hop <;> rfl

open Sample in
/-- The search for a join with a list of numbers: the expressions of every
group are interchangeable. -/
theorem interchangeable_sample : ∃ m, Memo.ofPlan setting plan = .ok m ∧
    ∀ id < (optimize setting 1000 .any Stage.defaults m).memo.groups.size,
      (optimize setting 1000 .any Stage.defaults m).memo.Interchangeable
        .strict contents id := by
  obtain ⟨m, loaded⟩ := exists_ofPlan
  exact ⟨m, loaded,
    (Reached.interchangeable .strict contents wellFormed limitFree_sample loaded
      (reached_optimize 1000 .any Stage.defaults m)).1⟩

end Memo

end QueryOptimizer
