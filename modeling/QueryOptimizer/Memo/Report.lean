import QueryOptimizer.Cost
import QueryOptimizer.Memo.Basic

/-!
# Reports of the memo

What the memo holds, as texts in tables: for each group its expressions and its winners.
-/

namespace QueryOptimizer

/-- What a group holds. -/
structure GroupReport where
  header : String
  /-- For each expression its number, its operator and its input groups. -/
  exprs : List (List String)
  /-- For each winner its property, its place and its cost. -/
  winners : List (List String)
  deriving Repr

/-- The report of a group. -/
def Group.report (g : Group Binary64) : GroupReport :=
  { header :=
      "Group " ++ toString g.id ++ " (" ++ g.statistics.rows.fixed 2 ++ " rows, max card "
        ++ g.property.rowBound.toText ++ "):"
    exprs := g.exprs.toList.mapIdx fun i e =>
      [toString i, e.operator.toText, Text.list (e.inputs.map toString)]
    winners := g.winners.entries.map fun (p, w) =>
      [p.toText, w.expr.toText, Cost.toText w.cost] }

/-- The report of each group in order. -/
def Memo.report (m : Memo Binary64) : List GroupReport :=
  m.groups.toList.map Group.report

end QueryOptimizer
