import QueryOptimizer.Scalar.Basic

/-!
# Reading scalar expressions

What the rest of the optimizer asks of an expression: which columns it uses, its top-level
conjuncts and disjuncts, whether it is one of the simple shapes that estimates understand, and
its copy under a renaming of columns.
-/

namespace QueryOptimizer

namespace Scalar

/-! ### Columns -/

mutual

/-- The columns of an expression added to a set, leaves from left to right. -/
def addColumns (s : ColumnSet) : Scalar → ColumnSet
  | column c => s.insert c
  | literal _ => s
  | binary _ l r => addColumns (addColumns s l) r
  | not e | isNull e => addColumns s e
  | cast e _ => addColumns s e
  | call _ as _ => addColumnsList s as
  | aggregate _ as _ => addColumnsList s as

/-- The columns of a list of expressions added to a set. -/
def addColumnsList (s : ColumnSet) : List Scalar → ColumnSet
  | [] => s
  | e :: es => addColumnsList (addColumns s e) es

end

/-- The columns that an expression uses. -/
def usedColumns (e : Scalar) : ColumnSet :=
  addColumns .empty e

mutual

/-- The expression with its columns renamed, leaves from left to right. -/
def rename (fresh : Bool) : Scalar → StateM Renaming Scalar
  | column c => return column (← Renaming.column fresh c)
  | literal v => return literal v
  | binary op l r => return binary op (← rename fresh l) (← rename fresh r)
  | not e => return not (← rename fresh e)
  | isNull e => return isNull (← rename fresh e)
  | cast e t => return cast (← rename fresh e) t
  | call n as t => return call n (← renameList fresh as) t
  | aggregate f as d => return aggregate f (← renameList fresh as) d

/-- The expressions of a list renamed one after the other. -/
def renameList (fresh : Bool) : List Scalar → StateM Renaming (List Scalar)
  | [] => return []
  | e :: es => return (← rename fresh e) :: (← renameList fresh es)

end

/-! ### Connectives -/

/-- The top-level conjuncts of a predicate, from left to right. -/
def conjuncts : Scalar → List Scalar
  | binary .and l r => l.conjuncts ++ r.conjuncts
  | e => [e]

/-- The top-level disjuncts of a predicate, from left to right. -/
def disjuncts : Scalar → List Scalar
  | binary .or l r => l.disjuncts ++ r.disjuncts
  | e => [e]

/-! ### Simple shapes -/

/-- The column, when the expression is one. -/
def asColumn? : Scalar → Option Column
  | column c => some c
  | _ => none

/-- Whether the expression is the literal true. -/
def isTrue : Scalar → Bool
  | literal (.boolean true) => true
  | _ => false

/-- Whether the expression is the literal false. -/
def isFalse : Scalar → Bool
  | literal (.boolean false) => true
  | _ => false

/-- A column compared with a literal, on either side; the operator is turned around when the
literal stands on the left. -/
def asComparison? : Scalar → Option (Column × BinaryOp × Datum)
  | binary op (column c) (literal v) => some (c, op, v)
  | binary op (literal v) (column c) => op.swap?.map fun swapped => (c, swapped, v)
  | _ => none

/-- The equality of two columns. -/
def asColumnEquality? : Scalar → Option (Column × Column)
  | binary .eq (column l) (column r) => some (l, r)
  | _ => none

mutual

/-- Whether an aggregate occurs anywhere in the expression. -/
def hasAggregate : Scalar → Bool
  | aggregate .. => true
  | column _ | literal _ => false
  | binary _ l r => l.hasAggregate || r.hasAggregate
  | not e | isNull e => e.hasAggregate
  | cast e _ => e.hasAggregate
  | call _ as _ => anyHasAggregate as

/-- Whether an aggregate occurs in one of the expressions. -/
def anyHasAggregate : List Scalar → Bool
  | [] => false
  | e :: es => e.hasAggregate || anyHasAggregate es

end

end Scalar

namespace Definition

/-- Renames the expression of a definition, then its column. -/
def rename (fresh : Bool) (d : Definition) : StateM Renaming Definition := do
  let e ← d.2.rename fresh
  return (← Renaming.column fresh d.1, e)

/-- The columns that the expressions of definitions use. -/
def usedColumns (ds : List Definition) : ColumnSet :=
  ColumnSet.unionAll (ds.map (·.2.usedColumns))

/-- The columns that definitions define. -/
def columns (ds : List Definition) : List Column :=
  ds.map (·.1)

end Definition

end QueryOptimizer
