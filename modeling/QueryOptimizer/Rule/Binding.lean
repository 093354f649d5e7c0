import QueryOptimizer.Memo.Tree
import QueryOptimizer.Rule.Pattern

/-!
# Bindings

A binding of a pattern is a tree of expressions of the memo that has the shape of the
pattern. The bindings at an expression are all choices of logical expressions from the input
groups, in the lexicographic order of their positions. Inputs that the pattern does not look
into are bound as groups.
-/

namespace QueryOptimizer

variable {K : Type}

namespace Memo

/-- The expressions among `ids` that pass a test. -/
def exprsWhere (m : Memo K) (ids : List ExprId) (p : Expr K → Bool) : List (ExprId × Expr K) :=
  ids.filterMap fun id =>
    match m.expr id with
    | .ok e => if p e then some (id, e) else none
    | .error _ => none

/-- The logical expressions of a group. -/
def logicalPlaces (m : Memo K) (id : GroupId) : List ExprId :=
  m.groups[id]?.elim [] (·.logicalPlaces id)

mutual

/-- The bindings of a pattern at some expressions of one group. -/
def bindAt (m : Memo K) : Pattern → List ExprId → List ExprTree
  | .group, ids => (ids.head?.map fun id => .group id.group).toList
  | .leaf accepts, ids =>
    (m.exprsWhere ids fun e => accepts e.operator).map fun (id, e) =>
      .expr id (e.inputs.map .group)
  | .node accepts patterns, ids =>
    (m.exprsWhere ids fun e => accepts e.operator &&
      patterns.length == e.inputs.length).flatMap fun (id, e) =>
        (m.bindInputs patterns e.inputs).map (.expr id)
termination_by structural p => p

/-- The choices of a binding for each pattern in the group at its position. -/
def bindInputs (m : Memo K) : List Pattern → List GroupId → List (List ExprTree)
  | [], _ => [[]]
  | p :: ps, ids =>
    (m.bindAt p (ids.head?.elim [] m.logicalPlaces)).flatMap fun t =>
      (m.bindInputs ps ids.tail).map (t :: ·)
termination_by structural ps => ps

end

/-- The bindings of a pattern at an expression. -/
def bindings (m : Memo K) (p : Pattern) (id : ExprId) : List ExprTree :=
  m.bindAt p [id]

end Memo

end QueryOptimizer
