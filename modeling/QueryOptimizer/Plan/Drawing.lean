import QueryOptimizer.Cost
import QueryOptimizer.Plan.Basic

/-!
# Drawings of plans

A plan is drawn as a tree, one row per node, the inputs of a node below it. The rows of the
last input hang on `└─ `, those of an earlier one on `├─ `. A name with a line feed in it
breaks its row into several lines.
-/

namespace QueryOptimizer

namespace Plan

/-- Hangs the drawing of an input on its node. -/
def hang (last : Bool) : List String → List String
  | [] => []
  | top :: below =>
    ((if last then "└─ " else "├─ ") ++ top) ::
      below.map ((if last then "   " else "│  ") ++ ·)

/-- The row of a node: its operator and, if it is known, its cost. -/
def headRow (op : Operator) (estimate : Option (PlanEstimate Binary64)) : String :=
  match estimate with
  | some e => op.toText ++ " (cost=" ++ Cost.toText e.cost ++ ")"
  | none => op.toText

mutual

/-- The rows of a plan. -/
def rows : Plan Binary64 → List String
  | ⟨_, op, inputs, estimate⟩ => headRow op estimate :: rowsBelow inputs
termination_by structural p => p

/-- The rows of the inputs of a node. -/
def rowsBelow : List (Plan Binary64) → List String
  | [] => []
  | p :: ps => hang ps.isEmpty p.rows ++ rowsBelow ps
termination_by structural ps => ps

end

/-- The lines of a plan. -/
def lines (p : Plan Binary64) : List String :=
  Text.linesOfRows p.rows

end Plan

end QueryOptimizer
