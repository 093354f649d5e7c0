import QueryOptimizer.Derivation.Statistics
import QueryOptimizer.Proofs.Constraint.Property
import QueryOptimizer.Proofs.Derivation.Output
import QueryOptimizer.Proofs.Memo.Saturation

/-!
# Derivations that cannot fail

What rules make has something derived about it, unless the catalog fails or the host cancels.
Columns without a new name are kept when constraints are renamed, and an operator that has all
its inputs finds each of them.

The lemmas are stated for a set of excused errors, among which are those that the
outside world may raise (`Environment.AnswersUnless`). If it raises none, no error is
excused, and nothing fails.

## Main results

* `LogicalOperator.derive_succeedsUnless`: something is derived about every operator that a
  rule can make, unless the outside world fails.
* `LogicalOperator.succeeds_derive`: so it is for certain if the catalog answers.
-/

namespace QueryOptimizer

variable {K : Type} {excused : OptError → Prop}

/-- Whether the outside world raises excused errors only. -/
structure Environment.AnswersUnless (excused : OptError → Prop) (env : Environment K) :
    Prop where
  catalog : env.catalog.AnswersUnless excused
  going : env.isCancelled = true → excused .cancelled

open OptResult

/-- An environment whose catalog answers, and that is not cancelled,
answers whatever is excused. -/
theorem Environment.answersUnless {env : Environment K} (answers : env.catalog.Answers)
    (going : env.isCancelled = false) : env.AnswersUnless excused :=
  ⟨answers.unless, fun cancelled => by rw [going] at cancelled; cases cancelled⟩

/-! ### Predicates -/

section Predicates

variable {catalog : Catalog K} (answers : catalog.AnswersUnless excused)
include answers

/-- Reading conjuncts does not fail unless the catalog does. -/
theorem ConstraintProperty.readConjuncts_succeedsUnless (es : List Scalar) :
    (readConjuncts catalog es).SucceedsUnless excused := by
  induction es with
  | nil => exact .pure _
  | cons e es ih =>
    rw [readConjuncts]
    split
    · exact ih.bind fun _ _ => .pure _
    · exact (Constraint.ofPredicate_succeedsUnless answers e).bind fun _ _ =>
        ih.bind fun _ _ => .pure _

/-- Reading a property off a predicate does not fail unless the catalog does. -/
theorem ConstraintProperty.ofPredicate_succeedsUnless (e : Scalar) :
    (ofPredicate catalog e).SucceedsUnless excused :=
  (readConjuncts_succeedsUnless answers e.conjuncts).bind fun _ _ => .pure _

end Predicates

/-! ### Renaming -/

section Rename

variable (map : ColumnMap)

/-- Renaming a constraint cannot fail if columns may be missing from the map. -/
theorem Constraint.succeeds_rename : ∀ c : Constraint, (rename map false c).Succeeds
  | interval i => by
    unfold rename
    refine .bind ?_ fun _ _ => .pure _
    unfold Interval.rename
    split
    · exact .pure _
    · exact .pure _
  | conjunction parts _ => (renameList parts).bind fun _ _ => .pure _
  | disjunction parts _ => (renameList parts).bind fun _ _ => .pure _
  | negation c => (succeeds_rename c).bind fun _ _ => .pure _
where
  renameList : ∀ cs : List Constraint, (Constraint.renameList map false cs).Succeeds
  | [] => .pure _
  | c :: cs => (succeeds_rename c).bind fun _ _ => (renameList cs).bind fun _ _ => .pure _

/-- Renaming a property cannot fail if columns may be missing from the map. -/
theorem ConstraintProperty.succeeds_rename (p : ConstraintProperty) :
    (p.rename map false).Succeeds := by
  have classes : (p.classes.mapM (renameClass map false)).Succeeds := by
    refine .mapM fun cls _ => .bind (.mapM fun c _ => ?_) fun _ _ => .pure _
    split <;> exact .pure _
  refine classes.bind fun _ _ => .bind ?_ fun _ _ => .pure _
  cases p.constraint with
  | none => exact .pure _
  | some c => exact (Constraint.succeeds_rename map c).bind fun _ _ => .pure _

end Rename

/-! ### Statistics -/

/-- Filtering statistics does not fail unless the catalog does. -/
theorem Statistics.filter_succeedsUnless [Quantity K] {catalog : Catalog K}
    (answers : catalog.AnswersUnless excused) (config : Config K) (s : Statistics K)
    (e : Scalar) : (s.filter catalog config e).SucceedsUnless excused := by
  have conjunct (current : ByColumn (Histogram K)) (e : Scalar) :
      (s.filterConjunct catalog current e).SucceedsUnless excused := by
    unfold filterConjunct
    split
    · exact .pure _
    · split
      · exact .pure _
      · refine (Constraint.ofPredicate_succeedsUnless answers e).bind fun c _ => ?_
        split
        · split
          · split <;> exact .pure _
          · exact .pure _
        · exact .pure _
  have conjuncts (current : ByColumn (Histogram K)) (es : List Scalar) :
      (s.filterConjuncts catalog current es).SucceedsUnless excused := by
    induction es generalizing current with
    | nil => exact .pure _
    | cons e es ih => exact (conjunct current e).bind fun _ _ => (ih _).bind fun _ _ => .pure _
  unfold filter
  split
  · exact .pure _
  · split
    · exact .pure _
    · refine (ConstraintProperty.ofPredicate_succeedsUnless answers e).bind fun known _ => ?_
      split
      · exact .pure _
      · exact (conjuncts _ _).bind fun _ _ => .pure _

/-! ### Joins and unions -/

namespace JoinType

variable {rels : Inputs K} (type : JoinType) (first : (rels.get 0).Succeeds)
  (second : (rels.get 1).Succeeds)
include first second

omit second in
/-- The columns of a join are found. -/
theorem succeeds_output : (type.output rels).Succeeds := by
  unfold output
  split
  · exact first.bind fun _ _ => .pure _
  · exact .pure _

/-- The keys of a join are found. -/
theorem succeeds_keys (p : Scalar) : (type.keys p rels).Succeeds := by
  refine first.bind fun left _ => ?_
  split
  · exact .pure _
  · refine second.bind fun right _ => ?_
    dsimp only
    split <;> exact .pure _

/-- The bound on the rows of a join is found. -/
theorem succeeds_rowBound : (type.rowBound rels).Succeeds := by
  refine first.bind fun left _ => ?_
  split
  · exact .pure _
  · refine second.bind fun right _ => ?_
    dsimp only
    split <;> exact .pure _

/-- The constraint of a join is found unless the catalog fails. -/
theorem constraint_succeedsUnless {catalog : Catalog K}
    (answers : catalog.AnswersUnless excused) (p : Scalar) :
    (type.constraint p catalog rels).SucceedsUnless excused := by
  have known := ConstraintProperty.ofPredicate_succeedsUnless answers p
  refine first.unless.bind fun left _ => ?_
  split
  · exact known.bind fun _ _ => second.unless.bind fun _ _ => .pure _
  · exact known.bind fun _ _ => .pure _
  · exact .pure _

/-- The statistics of a join are found. -/
theorem succeeds_statistics [Quantity K] (config : Config K) (p : Scalar) :
    (type.statistics p config rels).Succeeds :=
  first.bind fun _ _ => second.bind fun _ _ => .pure _

end JoinType

namespace SetOperation

/-- The constraints of all inputs of a union are renamed. -/
theorem succeeds_constraint {s : SetOperation} {rels : Inputs K} (all : s.kind = .unionAll)
    (length : rels.length = s.inputs.length) (inside : 0 < rels.length) :
    (s.constraint rels).Succeeds := by
  have each {i : Nat} (hi : i < rels.length) : (s.inputConstraint rels i).Succeeds :=
    Succeeds.bind (.elementAt (length ▸ hi)) fun _ _ => Succeeds.bind
        (.elementAt hi) fun r _ =>
      (ConstraintProperty.succeeds_rename _ r.property.constraint).bind fun _ _ => .pure _
  refine (each inside).bind fun _ _ => ?_
  rw [all]
  exact .foldlM fun _ i hi => (each (List.mem_range.1 (List.mem_of_mem_tail hi))).bind
    fun _ _ => .pure _

end SetOperation

/-! ### Operators -/

namespace LogicalOperator

/-- Whether rules make the operator. -/
def isMade : LogicalOperator → Bool
  | select _ | project _ | groupBy _ | limit _ | join _ | apply _ => true
  | setOp s => s.kind == .unionAll
  | _ => false

variable [Quantity K] {env : Environment K} {op : LogicalOperator} {rels : Inputs K}

/-- Something is derived about every operator that rules make, unless the
outside world fails. -/
theorem derive_succeedsUnless (answers : env.AnswersUnless excused) (made : op.isMade = true)
    (length : rels.length = op.arity) (inside : 0 < rels.length) (ctes : CteTable K) :
    (op.derive env ctes rels).SucceedsUnless excused := by
  have first : (rels.get 0).Succeeds := .elementAt inside
  have second (two : op.arity = 2) : (rels.get 1).Succeeds := .elementAt (by omega)
  have output : (op.output rels).Succeeds := by
    cases op with
    | select | limit | project => exact first.bind fun _ _ => .pure _
    | groupBy | setOp => exact .pure _
    | join j => exact j.type.succeeds_output first
    | apply a => exact a.type.succeeds_output first
    | _ => cases made
  have keys : (op.keys ctes rels).Succeeds := by
    cases op with
    | select | limit | project => exact first.bind fun _ _ => .pure _
    | groupBy | setOp => exact .pure _
    | join j => exact j.type.succeeds_keys first (second rfl) _
    | apply a => exact a.type.succeeds_keys first (second rfl) _
    | _ => cases made
  have partitions : (op.partitions ctes rels).Succeeds := by
    cases op with
    | dynamicGet | cteAnchor | cteConsumer => cases made
    | _ => exact .pure _
  have constraint : (op.constraint env ctes rels).SucceedsUnless excused := by
    cases op with
    | select p =>
      exact (ConstraintProperty.ofPredicate_succeedsUnless answers.catalog p).bind fun _ _ =>
        first.unless.bind fun _ _ => .pure _
    | groupBy | limit | project => exact first.unless.bind fun _ _ => .pure _
    | setOp s => exact (s.succeeds_constraint (beq_iff_eq.1 made) length inside).unless
    | join j => exact j.type.constraint_succeedsUnless first (second rfl) answers.catalog _
    | apply a => exact a.type.constraint_succeedsUnless first (second rfl) answers.catalog _
    | _ => cases made
  have rowBound : (op.rowBound env ctes rels).Succeeds := by
    cases op with
    | select p =>
      simp only [LogicalOperator.rowBound]
      split
      · exact .pure _
      · exact first.bind fun _ _ => .pure _
    | groupBy g =>
      simp only [LogicalOperator.rowBound]
      split
      · exact .pure _
      · exact first.bind fun _ _ => .pure _
    | limit | project => exact first.bind fun _ _ => .pure _
    | setOp s =>
      simp only [LogicalOperator.rowBound, SetOperation.rowBound, beq_iff_eq.1 made]
      exact .pure _
    | join j =>
      simp only [LogicalOperator.rowBound]
      split
      · exact .pure _
      · exact j.type.succeeds_rowBound first (second rfl)
    | apply a => exact a.type.succeeds_rowBound first (second rfl)
    | _ => cases made
  have estimate : (op.estimate env ctes rels).SucceedsUnless excused := by
    cases op with
    | select p =>
      exact first.unless.bind fun r _ => Statistics.filter_succeedsUnless answers.catalog _ _ _
    | groupBy | limit | project => exact first.unless.bind fun _ _ => .pure _
    | setOp s =>
      simp only [LogicalOperator.estimate, SetOperation.statistics, beq_iff_eq.1 made]
      exact .pure _
    | join j => exact (j.type.succeeds_statistics first (second rfl) _ _).unless
    | apply a => exact (a.type.succeeds_statistics first (second rfl) _ _).unless
    | _ => cases made
  have property : (op.property env ctes rels).SucceedsUnless excused := by
    unfold LogicalOperator.property
    split
    · rename_i cancelled
      exact .error (answers.going cancelled)
    refine output.unless.bind fun _ _ => keys.unless.bind
        fun _ _ => partitions.unless.bind fun _ _ =>
      constraint.bind fun c _ => ?_
    dsimp only
    split
    · exact .pure _
    · exact rowBound.unless.bind fun _ _ => .pure _
  refine property.bind fun p _ => .bind ?_ fun _ _ => .pure _
  unfold LogicalOperator.statistics
  split
  · rename_i cancelled
    exact .error (answers.going cancelled)
  · split
    · exact .pure _
    · exact estimate

/-- Something is derived about every operator that rules make. -/
theorem succeeds_derive (answers : env.catalog.Answers) (going : env.isCancelled = false)
    (made : op.isMade = true) (length : rels.length = op.arity) (inside : 0 < rels.length)
    (ctes : CteTable K) : (op.derive env ctes rels).Succeeds :=
  (derive_succeedsUnless (Environment.answersUnless answers going) made length
    inside ctes).succeeds

end LogicalOperator

end QueryOptimizer
