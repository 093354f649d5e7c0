import QueryOptimizer.Memo.Tree
import QueryOptimizer.Rule.Pattern

/-!
# Rules about joins

Inner joins may be turned around and rotated, and they may change places with semi joins. An
inner join with a stored table can look matching rows up by a key of the table.
-/

namespace QueryOptimizer

variable {K : Type}

namespace Operator

/-- Whether the operator is a logical join of a type that passes a test. -/
def isJoin (p : JoinType → Bool) (op : Operator) : Bool :=
  op.join?.any (p ·.type)

/-- Whether the operator is an inner join. -/
def isInnerJoin : Operator → Bool :=
  isJoin (· == .inner)

/-- Whether the operator reads a stored table. -/
def isTableAccess : Operator → Bool
  | logical (.get _) | logical (.dynamicGet _) => true
  | _ => false

end Operator

namespace ExprTree

/-- A new join of two trees. -/
def joined (j : Join) (left right : ExprTree) : ExprTree :=
  operator (.logical (.join j)) [left, right]

end ExprTree

namespace JoinRule

open ExprTree

/-! ### Patterns -/

/-- Any inner join. -/
def inner : Pattern :=
  .leaf Operator.isInnerJoin

/-- An inner join whose left input is a join of a type that passes a test. -/
def innerOver (p : JoinType → Bool) : Pattern :=
  .node Operator.isInnerJoin [.leaf (Operator.isJoin p), .group]

/-- An inner join whose right input is a stored table. -/
def innerWithTable : Pattern :=
  .node Operator.isInnerJoin [.group, .leaf Operator.isTableAccess]

/-! ### Rules -/

/-- `A ⋈ B` becomes `B ⋈ A`. -/
def commute (m : Memo K) (t : ExprTree) : OptResult (Option ExprTree) := do
  let op ← t.rootOperator m
  return some (.operator op [← t.input 1, ← t.input 0])

/-- `(A ⋈ B) ⋈ C` becomes `A ⋈ (B ⋈ C)`. Conjuncts of both predicates that only use
`B` and `C` go to the new lower join; nothing happens when there are none, as that
would be a cross product. -/
def associate (m : Memo K) (t : ExprTree) : OptResult (Option ExprTree) := do
  let upper ← t.rootAs m Operator.join?
  let left ← t.input 0
  let lower ← left.rootAs m Operator.join?
  let a ← left.input 0
  let b ← left.input 1
  let c ← t.input 1
  let below := (← b.property m).output.union (← c.property m).output
  let conjuncts := (lower.predicate.conjuncts ++ upper.predicate.conjuncts).filter (!·.isTrue)
  let (lowered, kept) := conjuncts.partition (·.usedColumns.isSubset below)
  match Scalar.conjoin? lowered with
  | none => return none
  | some p =>
    let q := (Scalar.conjoin? kept).getD (.ofBool true)
    return some (joined ⟨.inner, q⟩ a (joined ⟨.inner, p⟩ b c))

/-- `(A ⋉ B) ⋈ C` becomes `(A ⋈ C) ⋉ B`, and likewise for anti semi joins. The inner join
cannot refer to `B`, whose columns the semi join does not produce. -/
def swap (m : Memo K) (t : ExprTree) : OptResult (Option ExprTree) := do
  let upper ← t.rootAs m Operator.join?
  let left ← t.input 0
  let semi ← left.rootAs m Operator.join?
  return some (joined semi (joined upper (← left.input 0) (← t.input 1)) (← left.input 1))

/-- An inner join with a stored table becomes an apply, which selects matching rows of
the table for each left row. The predicate must use a left column and all columns of
some key of the table. -/
def toIndexApply (m : Memo K) (t : ExprTree) : OptResult (Option ExprTree) := do
  let j ← t.rootAs m Operator.join?
  let used := j.predicate.usedColumns
  let left ← t.input 0
  let outer := (← left.property m).output.toList.filter used.contains
  let right ← t.input 1
  let hasIndex := (← right.property m).keys.isUniqueOn used
  if outer.isEmpty || !hasIndex then return none
  let matching : ExprTree :=
    .operator (.logical (.select j.predicate)) [.group (← right.rootGroup)]
  return some (.operator (.logical (.apply ⟨.inner, .ofBool true, outer⟩)) [left, matching])

end JoinRule

end QueryOptimizer
