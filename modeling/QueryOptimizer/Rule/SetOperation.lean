import QueryOptimizer.Memo.Tree
import QueryOptimizer.Rule.Pattern

/-!
# Rules about set operations

Set operations without duplicates become joins and aggregates. Rows count as equal when their
columns are equal or null together, so the joins compare with `IS NOT DISTINCT FROM`.
-/

namespace QueryOptimizer

variable {K : Type}

/-- Whether the operator is a set operation of a kind that passes a test. -/
def Operator.isSetOp (p : SetOpKind → Bool) (op : Operator) : Bool :=
  op.setOp?.any (p ·.kind)

namespace SetOperationRule

/-- A set operation of one kind. -/
def ofKind (k : SetOpKind) : Pattern :=
  .leaf (Operator.isSetOp (· == k))

/-- The rows of a tree without duplicates. -/
def distinct (cols : List Column) (t : ExprTree) : ExprTree :=
  .operator (.logical (.groupBy (.distinctOn cols))) [t]

/-- Two rows are equal column by column, nulls counting as equal; `none` for no columns. -/
def sameRow? (left right : List Column) : Option Scalar :=
  Scalar.conjoin? <|
    List.zipWith (fun l r => .binary .isNotDistinctFrom (.column l) (.column r)) left right

/-- The columns of a tree under new names. -/
def renamed (target source : List Column) (t : ExprTree) : ExprTree :=
  if target == source then t
  else
    let definitions := List.zipWith (fun c s => (c, Scalar.column s)) target source
    .operator (.logical (.project definitions)) [t]

/-- A union becomes the different rows of a union that keeps duplicates. -/
def unionToUnionAll (m : Memo K) (t : ExprTree) : OptResult (Option ExprTree) := do
  let s ← t.rootAs m Operator.setOp?
  let all : ExprTree := .operator (.logical (.setOp { s with kind := .unionAll })) t.inputs
  return some (distinct s.output all)

/-- A set operation on two inputs becomes the different rows of a join of the inputs. -/
def toJoin (type : JoinType) (m : Memo K) (t : ExprTree) : OptResult (Option ExprTree) := do
  let s ← t.rootAs m Operator.setOp?
  match t.inputs with
  | [left, right] =>
    let leftCols ← elementAt "input columns" s.inputs 0
    let rightCols ← elementAt "input columns" s.inputs 1
    match sameRow? leftCols rightCols with
    | none => return none
    | some predicate =>
      let rows : ExprTree := .operator (.logical (.join ⟨type, predicate⟩)) [left, right]
      return some (distinct s.output (renamed s.output leftCols rows))
  | _ => return none

end SetOperationRule

end QueryOptimizer
