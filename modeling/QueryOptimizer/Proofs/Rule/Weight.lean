import Mathlib.Algebra.GroupWithZero.Nat
import Mathlib.Data.Finset.Basic
import QueryOptimizer.Proofs.Bare
import QueryOptimizer.Proofs.Rule.Outcome
import QueryOptimizer.Proofs.Semantics.Scalar

/-!
# Weights

Every operator but a limit has a positive weight, and what an exploration rule makes of an
expression weighs as much as the expression. A condition of a predicate counts, because rotated
joins share them out and a lookup moves them into a selection; a set operation weighs as much
as the join that may take its place. Limits weigh nothing, since two of them may become one.

So the expressions of a group can be given one weight, which is greater than that of each input
unless the expression is a limit.

## Main results

* `LogicalOperator.weight_eq_of_beq`: equal operators have one weight.
* `RuleId.Rewrites.weight_eq`: exploration rules keep the weight.
-/

namespace QueryOptimizer

/-! ### Conditions -/

namespace Scalar

/-- The number of conjuncts of a predicate, apart from those that are always true. -/
def conditions (p : Scalar) : Nat :=
  (p.conjuncts.filter (!·.isTrue)).length

/-- What matching ignores does not count for conjuncts. -/
theorem conjuncts_bare (p : Scalar) : p.bare.conjuncts = p.conjuncts.map bare := by
  fun_induction conjuncts p with
  | case1 l r hl hr => simp [bare, conjuncts, hl, hr]
  | case2 p single =>
    cases p with
    | binary op l r => cases op <;> first | rfl | exact absurd rfl (single l r)
    | _ => rfl

theorem isTrue_bare (p : Scalar) : p.bare.isTrue = p.isTrue := by
  cases p <;> rfl

/-- What matching ignores does not count for the number of conditions. -/
@[simp] theorem conditions_bare (p : Scalar) : p.bare.conditions = p.conditions := by
  simp [conditions, conjuncts_bare, List.filter_map, Function.comp_def, isTrue_bare]

/-- What two predicates are spread into are conditions. -/
theorem conjuncts_of_mem_spread {p q c : Scalar} (h : c ∈ p.spread q) :
    c.conjuncts = [c] ∧ c.isTrue = false := by
  obtain ⟨mem, something⟩ := List.mem_filter.1 h
  refine ⟨?_, by simpa using something⟩
  rcases List.mem_append.1 mem with mem | mem
  · exact conjuncts_of_mem_conjuncts mem
  · exact conjuncts_of_mem_conjuncts mem

/-- Two predicates are spread into as many conditions as they have together. -/
theorem length_spread (p q : Scalar) : (p.spread q).length = p.conditions + q.conditions := by
  simp [spread, conditions]

/-- A conjunction of conditions has that many. -/
theorem conditions_conjoin? {es : List Scalar} {p : Scalar} (made : conjoin? es = some p)
    (atoms : ∀ c ∈ es, c.conjuncts = [c] ∧ c.isTrue = false) : p.conditions = es.length := by
  rw [conditions, conjuncts_conjoin?_self made fun c hc => (atoms c hc).1,
    List.filter_eq_self.2 fun c hc => by simp [(atoms c hc).2]]

/-- Conditions that are put together by conjunctions are as many as before. -/
theorem conditions_conjoin?_getD {es : List Scalar}
    (atoms : ∀ c ∈ es, c.conjuncts = [c] ∧ c.isTrue = false) :
    ((conjoin? es).getD (ofBool true)).conditions = es.length := by
  cases es with
  | nil => rfl
  | cons e es =>
    have made : conjoin? (e :: es) = some (es.foldl (.binary .and) e) := rfl
    exact conditions_conjoin? made atoms

/-- Rows are compared column by column. -/
theorem conditions_sameRow? {left right : List Column} {p : Scalar}
    (made : SetOperationRule.sameRow? left right = some p) :
    p.conditions = min left.length right.length := by
  rw [conditions_conjoin? made, List.length_zipWith]
  intro c hc
  obtain ⟨i, hi, rfl⟩ := List.mem_iff_getElem.1 hc
  rw [List.getElem_zipWith]
  exact ⟨rfl, rfl⟩

end Scalar

/-! ### Operators -/

/-- The weight of a set operation. One that a rule turns into a join weighs as much as the join
with what is put on top of it. -/
def SetOperation.weight (s : SetOperation) : Nat :=
  match s.kind with
  | .unionAll | .differenceAll | .intersectAll => 1
  | .union => 2
  | .difference | .intersect =>
    match s.inputs with
    | left :: right :: _ =>
      (if s.output == left then 3 else 4) + min left.length right.length
    | _ => 1

/-- The weight of an operator without its inputs. -/
def LogicalOperator.weight : LogicalOperator → Nat
  | limit _ => 0
  | select p => 1 + p.conditions
  | join j => 2 + j.predicate.conditions
  | setOp s => s.weight
  | _ => 1

namespace LogicalOperator

/-- An operator that is no limit weighs something. -/
theorem weight_pos {op : LogicalOperator} (h : op.isLimit = false) : 0 < op.weight := by
  cases op with
  | limit => cases h
  | select | join => exact Nat.add_pos_left (by decide) _
  | setOp s =>
    simp only [weight, SetOperation.weight]
    split <;> (try split) <;> (try split) <;> omega
  | _ => exact Nat.one_pos

/-- What matching ignores does not count for the weight of an operator. -/
@[simp] theorem weight_bare (op : LogicalOperator) : op.bare.weight = op.weight := by
  cases op with
  | setOp s =>
    obtain ⟨kind, output, inputs⟩ := s
    simp only [bare, weight, SetOperation.weight, SetOperation.bare]
    rcases inputs with _ | ⟨left, _ | ⟨right, rest⟩⟩
    · rfl
    · rfl
    · have same : (output.map Column.bare == left.map Column.bare) = (output == left) := by
        rw [Bool.eq_iff_iff, Column.list_beq_iff_bare, Column.list_beq_iff_bare,
          List.map_map, List.map_map]
        rfl
      simp [same]
  | _ => simp [bare, weight, Join.bare]

/-- Operators that match have the same weight. -/
theorem weight_eq_of_beq {op op' : LogicalOperator} (h : (op == op') = true) :
    op.weight = op'.weight := by
  rw [← weight_bare op, ← weight_bare op', beq_iff_bare.1 h]

end LogicalOperator

/-- The weight of a logical operator. What is physical does not count. -/
def Operator.weight : Operator → Nat
  | logical op => op.weight
  | physical _ => 0

/-! ### Trees -/

namespace ExprTree

variable {w : GroupId → Nat}

mutual

/-- The weight of a tree over groups with weights. -/
def weight (w : GroupId → Nat) : ExprTree → Nat
  | operator op inputs => op.weight + weights w inputs
  | expr id _ => w id.group
  | group id => w id
termination_by structural t => t

/-- The weight of several trees. -/
def weights (w : GroupId → Nat) : List ExprTree → Nat
  | [] => 0
  | t :: ts => t.weight w + weights w ts
termination_by structural ts => ts

end

/-- Trees weigh together what each of them weighs. -/
theorem weights_congr {w' : GroupId → Nat} {ts : List ExprTree}
    (same : ∀ t ∈ ts, t.weight w' = t.weight w) : weights w' ts = weights w ts := by
  induction ts with
  | nil => rfl
  | cons t ts ih =>
    obtain ⟨first, others⟩ := List.forall_mem_cons.1 same
    rw [weights, weights, first, ih others]

/-- Groups weigh together what each of them weighs. -/
@[simp] theorem weights_groups (ids : List GroupId) :
    weights w (ids.map group) = (ids.map w).sum := by
  induction ids with
  | nil => rfl
  | cons i ids ih => simp [weights, weight, ih]

/-- A join weighs two more than its conditions and its inputs. -/
theorem weight_joined (j : Join) (l r : ExprTree) :
    (joined j l r).weight w = 2 + j.predicate.conditions + (l.weight w + r.weight w) := by
  simp [joined, weight, weights, Operator.weight, LogicalOperator.weight]

/-- Dropping duplicates weighs one. -/
theorem weight_distinct (cols : List Column) (t : ExprTree) :
    (SetOperationRule.distinct cols t).weight w = 1 + t.weight w := by
  simp [SetOperationRule.distinct, weight, weights, Operator.weight, LogicalOperator.weight]

/-- Renaming columns weighs one, unless there is nothing to rename. -/
theorem weight_renamed (target source : List Column) (t : ExprTree) :
    (SetOperationRule.renamed target source t).weight w =
      (if target == source then 0 else 1) + t.weight w := by
  unfold SetOperationRule.renamed
  split
  · rw [Nat.zero_add]
  · simp [weight, weights, Operator.weight, LogicalOperator.weight]

end ExprTree

/-! ### Rules -/

variable {K : Type} {m : Memo K}

/-- Whether the logical expressions of a memo weigh as much as their groups. -/
def Memo.Weighs (m : Memo K) (w : GroupId → Nat) : Prop :=
  ∀ {place op ids}, m.key? place = some ⟨.logical op, ids⟩ →
    w place.group = op.weight + (ids.map w).sum

/-- A set operation weighs as much as the join that a rule puts in its place. -/
theorem RuleId.weight_of_joinFor? {r : RuleId} {s : SetOperation} {type : JoinType}
    {left right : List Column} (joins : r.joinFor? = some (s.kind, type))
    (first : s.inputs[0]? = some left) (second : s.inputs[1]? = some right) :
    s.kind ≠ .unionAll ∧
      s.weight = (if s.output == left then 3 else 4) + min left.length right.length := by
  obtain ⟨kind, output, inputs⟩ := s
  obtain ⟨rest, rfl⟩ : ∃ rest, inputs = left :: right :: rest := by
    rcases inputs with _ | ⟨_, _ | ⟨_, rest⟩⟩
    · cases first
    · cases second
    · exact ⟨rest, by rw [Option.some.inj first, Option.some.inj second]⟩
  unfold joinFor? at joins
  split at joins <;> cases joins
  · exact ⟨SetOpKind.noConfusion, rfl⟩
  · exact ⟨SetOpKind.noConfusion, rfl⟩

/-- An exploration rule makes a tree that weighs as much as the group of the expression. -/
theorem RuleId.Rewrites.weight_eq {w : GroupId → Nat} (weighs : m.Weighs w)
    (saturated : m.Saturated) {r : RuleId} {place : ExprId} {k : ExprKey} {t : ExprTree}
    (known : m.key? place = some k) (explores : r ∈ explorations) (h : r.Rewrites m k t) :
    t.weight w = w place.group := by
  have two {lower : ExprId} {j : Join} {a b : GroupId} {rest : List GroupId}
      (hk : m.key? lower = some ⟨.logical (.join j), a :: b :: rest⟩) :
      w lower.group = 2 + j.predicate.conditions + (w a + w b) := by
    obtain rfl : rest = [] := by
      have length : rest.length + 1 + 1 = 2 := saturated lower _ hk
      exact List.length_eq_zero_iff.1 (by omega)
    rw [weighs hk]
    simp [LogicalOperator.weight]
  cases h with
  | commute =>
    rw [two known, ExprTree.weight_joined, ExprTree.weight, ExprTree.weight,
      Nat.add_comm (w _)]
  | @associate p q r' lower a b c rest lowers below lowered =>
    have parts := List.length_eq_length_filter_add (l := p.spread q) lowers
    have kept : ∀ e ∈ (p.spread q).filter (!lowers ·), e.conjuncts = [e] ∧ e.isTrue = false :=
      fun e he => Scalar.conjuncts_of_mem_spread (List.mem_filter.1 he).1
    have moved : ∀ e ∈ (p.spread q).filter lowers, e.conjuncts = [e] ∧ e.isTrue = false :=
      fun e he => Scalar.conjuncts_of_mem_spread (List.mem_filter.1 he).1
    rw [Scalar.length_spread] at parts
    simp only [two known, two below, ExprTree.weight_joined, ExprTree.weight,
      Scalar.conditions_conjoin? lowered moved, Scalar.conditions_conjoin?_getD kept]
    omega
  | exchange _ below =>
    simp only [two known, two below, ExprTree.weight_joined, ExprTree.weight]
    omega
  | lookup =>
    rw [two known]
    simp only [ExprTree.weight, ExprTree.weights, Operator.weight, LogicalOperator.weight]
    omega
  | push below =>
    rw [weighs known]
    simp [ExprTree.weight, ExprTree.weights, Operator.weight, weighs below,
      LogicalOperator.weight]
  | merge below =>
    rw [weighs known]
    simp [ExprTree.weight, Operator.weight, weighs below, LogicalOperator.weight]
  | @unionAll s ids kind =>
    rw [weighs known, ExprTree.weight_distinct]
    simp [ExprTree.weight, Operator.weight, LogicalOperator.weight, SetOperation.weight, kind]
    omega
  | @rejoin _ s type left right p a b joins first second compared =>
    obtain ⟨-, kind⟩ := weight_of_joinFor? joins first second
    rw [weighs known, ExprTree.weight_distinct, ExprTree.weight_renamed,
      ExprTree.weight_joined, Scalar.conditions_sameRow? compared]
    simp only [LogicalOperator.weight, kind, ExprTree.weight, List.map_cons, List.map_nil,
      List.sum_cons, List.sum_nil]
    split <;> omega
  | implement implements => exact absurd explores (notMem_explorations_of_physical? implements)

end QueryOptimizer
