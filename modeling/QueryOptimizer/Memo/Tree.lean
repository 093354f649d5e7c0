import QueryOptimizer.Memo.Basic

/-!
# Expression trees

A rule reads and makes trees over a memo. What it reads consists of expressions of the memo,
whose inputs are looked into as far as the rule's pattern does, with groups below that. What it
makes consists of operators on top of expressions and groups.
-/

namespace QueryOptimizer

/-- A tree of new operators, of expressions of a memo, and of whole groups. -/
inductive ExprTree where
  | operator (op : Operator) (inputs : List ExprTree)
  | expr (id : ExprId) (inputs : List ExprTree)
  | group (id : GroupId)

namespace ExprTree

/-- The inputs of a tree. A group has none. -/
def inputs : ExprTree → List ExprTree
  | operator _ inputs | expr _ inputs => inputs
  | group _ => []

/-- The input at a position, which must exist. -/
def input (t : ExprTree) (index : Nat) : OptResult ExprTree :=
  elementAt "input" t.inputs index

mutual

/-- Whether two trees are equal. -/
def equal : ExprTree → ExprTree → Bool
  | operator op inputs, operator op' inputs' => op == op' && equalAll inputs inputs'
  | expr id inputs, expr id' inputs' => id == id' && equalAll inputs inputs'
  | group id, group id' => id == id'
  | _, _ => false
termination_by structural t => t

/-- Whether two lists hold equal trees. -/
def equalAll : List ExprTree → List ExprTree → Bool
  | [], [] => true
  | t :: ts, u :: us => t.equal u && equalAll ts us
  | _, _ => false
termination_by structural ts => ts

end

instance : BEq ExprTree := ⟨equal⟩

/-- The mark in front of a row at a depth of the drawing. -/
def mark : Nat → String
  | 0 => ""
  | depth + 1 => "".pushn ' ' (2 * depth) ++ "--"

mutual

/-- The rows of the drawing of a tree that is `depth` levels down. -/
def rowsAt (depth : Nat) : ExprTree → List String
  | operator op inputs =>
    (mark depth ++ "OperatorNode: " ++ op.toText) :: rowsBelow (depth + 1) inputs
  | expr id inputs =>
    (mark depth ++ "ExprHandleNode: " ++ id.toText) :: rowsBelow (depth + 1) inputs
  | group id => [mark depth ++ "GroupHandleNode: " ++ toString id]
termination_by structural t => t

/-- The rows of the inputs of a tree. -/
def rowsBelow (depth : Nat) : List ExprTree → List String
  | [] => []
  | t :: ts => rowsAt depth t ++ rowsBelow depth ts
termination_by structural ts => ts

end

/-- The lines of the drawing of a tree. -/
def lines (t : ExprTree) : List String :=
  Text.linesOfRows (t.rowsAt 0)

variable {K : Type}

/-- The operator at the root of a tree. A group has none. -/
def rootOperator (m : Memo K) : ExprTree → OptResult Operator
  | operator op _ => return op
  | expr id _ => return (← m.expr id).operator
  | group _ => throw .operatorOfGroup

/-- The operator at the root of a tree read as one of a kind; it must be of that kind. -/
def rootAs {α : Type} (m : Memo K) (kind : Operator → Option α) (t : ExprTree) :
    OptResult α := do
  match kind (← t.rootOperator m) with
  | some a => return a
  | none => throw .patternMismatch

/-- The group that a tree belongs to. New operators do not belong to one yet. -/
def rootGroup : ExprTree → OptResult GroupId
  | operator _ _ => throw .operatorNotInMemo
  | expr id _ => return id.group
  | group id => return id

/-- The logical property of the group that a tree belongs to. -/
def property (m : Memo K) (t : ExprTree) : OptResult LogicalProperty := do
  return (← m.group (← t.rootGroup)).property

end ExprTree

end QueryOptimizer
