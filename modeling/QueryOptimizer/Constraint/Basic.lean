import QueryOptimizer.Constraint.Interval
import QueryOptimizer.Constraint.Lookup

/-!
# Constraints

A `Constraint` describes the values that the columns of a relation may take. Constraints are
conservative: every row of the relation satisfies its constraint, so a constraint that admits
nothing proves the relation to be empty.

`Constraint.conjunction?`, `Constraint.disjunction?` and `Constraint.negate` are the
constructors that the optimizer uses. They keep the parts of a conjunction or disjunction flat,
merge intervals on one column, and leave out what says nothing.
-/

namespace QueryOptimizer

/-- What is known about the values of some columns. -/
inductive Constraint where
  | interval (i : Interval)
  | conjunction (parts : List Constraint) (strategy : LookupStrategy)
  | disjunction (parts : List Constraint) (strategy : LookupStrategy)
  | negation (c : Constraint)
  deriving Repr

namespace Constraint

instance : Inhabited Constraint := ⟨conjunction [] .scan⟩

/-! ### Questions -/

mutual

/-- Whether no row satisfies the constraint, as far as its parts tell. -/
def isContradiction : Constraint → Bool
  | interval i => i.isContradiction
  | conjunction parts _ => anyContradiction parts
  | disjunction parts _ => allContradictions parts
  | negation c => c.isUnbounded

/-- Whether every row satisfies the constraint, as far as its parts tell. -/
def isUnbounded : Constraint → Bool
  | interval i => i.isUnbounded
  | conjunction parts _ => allUnbounded parts
  | disjunction parts _ => anyUnbounded parts
  | negation c => c.isContradiction

/-- Whether one of the parts is a contradiction. -/
def anyContradiction : List Constraint → Bool
  | [] => false
  | c :: cs => c.isContradiction || anyContradiction cs

/-- Whether all parts are contradictions. -/
def allContradictions : List Constraint → Bool
  | [] => true
  | c :: cs => c.isContradiction && allContradictions cs

/-- Whether one of the parts is unbounded. -/
def anyUnbounded : List Constraint → Bool
  | [] => false
  | c :: cs => c.isUnbounded || anyUnbounded cs

/-- Whether all parts are unbounded. -/
def allUnbounded : List Constraint → Bool
  | [] => true
  | c :: cs => c.isUnbounded && allUnbounded cs

end

mutual

/-- The columns that a constraint speaks of. -/
def usedColumns : Constraint → ColumnSet
  | interval i => .singleton i.column
  | conjunction parts _ | disjunction parts _ => usedColumnsFrom .empty parts
  | negation c => c.usedColumns

/-- The columns of a list of constraints, added to a set. -/
def usedColumnsFrom (s : ColumnSet) : List Constraint → ColumnSet
  | [] => s
  | c :: cs => usedColumnsFrom (s.union c.usedColumns) cs

end

mutual

/-- Whether two constraints are written alike. How they look up their parts does not matter. -/
def equal : Constraint → Constraint → Bool
  | interval i, interval j => i == j
  | conjunction cs _, conjunction ds _ => equalList cs ds
  | disjunction cs _, disjunction ds _ => equalList cs ds
  | negation c, negation d => equal c d
  | _, _ => false

/-- Whether two lists of constraints are equal position by position. -/
def equalList : List Constraint → List Constraint → Bool
  | [], [] => true
  | c :: cs, d :: ds => equal c d && equalList cs ds
  | _, _ => false

end

instance : BEq Constraint := ⟨equal⟩

/-! ### Construction -/

/-- Adds a constraint at the end of a list, or, for an interval, combines it with the interval
on the same column that is already there. -/
def mergeInto (combine : Interval → Interval → Interval) (c : Constraint) :
    List Constraint → List Constraint
  | [] => [c]
  | d :: ds =>
    match d, c with
    | interval i, interval j =>
      if i.column == j.column then interval (combine i j) :: ds
        else d :: mergeInto combine c ds
    | _, _ => d :: mergeInto combine c ds

/-- Combines the intervals on each column, in order of first occurrence. -/
def mergeIntervals (combine : Interval → Interval → Interval) (cs : List Constraint) :
    List Constraint :=
  cs.foldl (fun acc c => mergeInto combine c acc) []

/-- The parts of a conjunction, any other constraint as its only part. -/
def conjuncts : Constraint → List Constraint
  | conjunction parts _ => parts
  | c => [c]

/-- The parts of a disjunction, any other constraint as its only part. -/
def disjuncts : Constraint → List Constraint
  | disjunction parts _ => parts
  | c => [c]

/-- The constraint that all of `cs` hold: flattened, with the intervals on one column
intersected and unbounded parts left out. It is `none` when nothing is left to say. -/
def conjunction? (cs : List Constraint) (strategy : LookupStrategy) : Option Constraint :=
  let merged := mergeIntervals Interval.intersect (cs.flatMap conjuncts)
  match merged.filter (!·.isUnbounded) with
  | [] => none
  | [c] => some c
  | parts => some (conjunction parts strategy)

/-- The constraint that one of `cs` holds: flattened, with the intervals on one column united
and contradictions left out unless there is nothing else. It is `none` when nothing is known:
when one of `cs` is unbounded, or there are none. -/
def disjunction? (cs : List Constraint) (strategy : LookupStrategy) : Option Constraint :=
  let flat := cs.flatMap disjuncts
  if flat.any isUnbounded then none
  else
    let merged := mergeIntervals Interval.union (flat.filter (!·.isContradiction))
    if merged.any isUnbounded then none
    else
      match merged with
      | [] => flat.find? isContradiction
      | [c] => some c
      | parts => some (disjunction parts strategy)

/-- The constraint that `c` does not hold. Intervals are complemented and a double negation is
removed. -/
def negate : Constraint → Constraint
  | interval i => interval i.complement
  | negation c => c
  | c => negation c

/-! ### Projection -/

/-- What one part of a constraint contributes to a projection: the columns that it uses,
whether it is a contradiction, and what it says about the columns projected on. -/
structure Projection where
  used : ColumnSet
  contradiction : Bool
  bound : Option Constraint

namespace Projection

/-- What a part says, unless that is nothing. -/
def effective? (p : Projection) : Option Constraint :=
  p.bound.filter (!·.isUnbounded)

/-- The projection of a conjunction: what any of its parts says. -/
def conjoin (ps : List Projection) : Option Constraint :=
  conjunction? (ps.filterMap effective?) .scan

/-- The projection of a disjunction. Every part that is no contradiction must say something,
since a part without a bound admits any value. -/
def disjoin (ps : List Projection) : Option Constraint :=
  let bounds := (ps.filter (!·.contradiction)).map effective?
  if bounds.any (·.isNone) then none else disjunction? (bounds.filterMap id) .scan

end Projection

mutual

/-- What the constraint says about one column, `none` when nothing is known.

For a conjunction the parts on this column alone come first, found by its lookup strategy, then
the parts that also use other columns. A negation says something only if it uses no other
column. -/
def onColumn (col : Column) : Constraint → Option Constraint
  | interval i => if i.column == col then some (interval i) else none
  | conjunction parts strategy =>
    if !(usedColumnsFrom .empty parts).contains col then none
    else
      let projected := projections col parts
      let single := strategy.select (·.used) projected col
      let multi := projected.filter fun p => decide (1 < p.used.size) && p.used.contains col
      Projection.conjoin (single ++ multi)
  | disjunction parts _ =>
    if !(usedColumnsFrom .empty parts).contains col then none
    else Projection.disjoin (projections col parts)
  | negation c =>
    if c.usedColumns.size == 1 && c.usedColumns.contains col then (onColumn col c).map negate
    else none

/-- What each constraint of a list contributes to a projection on one column. -/
def projections (col : Column) : List Constraint → List Projection
  | [] => []
  | c :: cs => ⟨c.usedColumns, c.isContradiction, onColumn col c⟩ :: projections col cs

end

mutual

/-- What the constraint says about a set of columns alone, `none` when nothing is known. -/
def onColumns (cols : ColumnSet) : Constraint → Option Constraint
  | interval i => if cols.contains i.column then some (interval i) else none
  | conjunction parts _ =>
    Projection.conjoin ((projectionsOn cols parts).filter fun p => !p.used.isDisjoint cols)
  | disjunction parts _ => Projection.disjoin (projectionsOn cols parts)
  | negation c => if c.usedColumns.isSubset cols then some (negation c) else none

/-- What each constraint of a list contributes to a projection on a set of columns. -/
def projectionsOn (cols : ColumnSet) : List Constraint → List Projection
  | [] => []
  | c :: cs => ⟨c.usedColumns, c.isContradiction, onColumns cols c⟩ :: projectionsOn cols cs

end

/-! ### Renaming -/

mutual

/-- The constraint with its columns replaced. A column that is not in the map is kept, or is an
error if `strict`. The parts are kept as they are, even if columns coincide afterwards. -/
def rename (map : ColumnMap) (strict : Bool) : Constraint → OptResult Constraint
  | interval i => return interval (← i.rename map strict)
  | conjunction parts strategy => return conjunction (← renameList map strict parts) strategy
  | disjunction parts strategy => return disjunction (← renameList map strict parts) strategy
  | negation c => return negation (← rename map strict c)

/-- The constraints of a list with their columns replaced. -/
def renameList (map : ColumnMap) (strict : Bool) :
    List Constraint → OptResult (List Constraint)
  | [] => return []
  | c :: cs => return (← rename map strict c) :: (← renameList map strict cs)

end

/-! ### As a predicate and as text -/

mutual

/-- The constraint as a predicate. -/
def toScalar : Constraint → Scalar
  | interval i => i.toScalar
  | conjunction parts _ => (Scalar.conjoin? (toScalars parts)).getD (.ofBool true)
  | disjunction parts _ => (Scalar.disjoin? (toScalars parts)).getD (.ofBool false)
  | negation c => .not c.toScalar

/-- Each constraint of a list as a predicate. -/
def toScalars : List Constraint → List Scalar
  | [] => []
  | c :: cs => c.toScalar :: toScalars cs

end

mutual

/-- The text of a constraint. -/
def toText : Constraint → String
  | interval i => i.toText
  | conjunction parts _ => "(" ++ Text.joined " AND " (texts parts) ++ ")"
  | disjunction parts _ => "(" ++ Text.joined " OR " (texts parts) ++ ")"
  | negation c => "NOT " ++ c.toText

/-- The texts of a list of constraints. -/
def texts : List Constraint → List String
  | [] => []
  | c :: cs => c.toText :: texts cs

end

end Constraint

end QueryOptimizer
