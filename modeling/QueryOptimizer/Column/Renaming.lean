import QueryOptimizer.Column.Set

/-!
# Renaming columns

A `ColumnMap` says which column stands in for which. Expressions and operators are copied
through a map while the copy is still free to extend it: a `Renaming` carries the map together
with the factory that fresh columns come from, and `Renaming.column` is the one step every copy
is made of.
-/

namespace QueryOptimizer

/-- A substitution of columns, keyed by id, each id once. -/
structure ColumnMap where
  entries : List (Nat × Column) := []
  deriving Repr

namespace ColumnMap

/-- The map that replaces nothing. -/
def empty : ColumnMap := {}

/-- The column that stands in for `c`. -/
def get? (m : ColumnMap) (c : Column) : Option Column :=
  m.entries.lookup c.id

/-- Puts a pair into a list of entries, instead of one with the same id. -/
def insertEntry (id : Nat) (target : Column) : List (Nat × Column) → List (Nat × Column)
  | [] => [(id, target)]
  | (i, c) :: rest =>
    if i = id then (id, target) :: rest else (i, c) :: insertEntry id target rest

/-- Lets `target` stand in for `source` from now on. -/
def insert (m : ColumnMap) (source target : Column) : ColumnMap :=
  ⟨insertEntry source.id target m.entries⟩

/-- Lets each column of `source` be replaced by the column at its position in `target`. -/
def ofLists (source target : List Column) : ColumnMap :=
  (source.zip target).foldl (fun m (s, t) => m.insert s t) empty

/-- The number of columns that are replaced. -/
def size (m : ColumnMap) : Nat :=
  m.entries.length

/-- The column that stands in for `c`, or `c` itself when none does. -/
def substitute (m : ColumnMap) (c : Column) : Column :=
  (m.get? c).getD c

end ColumnMap

/-- A map under construction and the factory that its fresh columns come from. -/
structure Renaming where
  map : ColumnMap := {}
  factory : ColumnFactory := {}
  deriving Repr

namespace Renaming

/-- Renames one column. A column without an entry is kept, or, when `fresh` is set, replaced by
a fresh copy that is entered into the map. -/
def column (fresh : Bool) (c : Column) : StateM Renaming Column := fun r =>
  match r.map.get? c with
  | some mapped => (mapped, r)
  | none =>
    if fresh then
      let (copy, factory) := r.factory.copyOf c
      (copy, ⟨r.map.insert c copy, factory⟩)
    else (c, r)

/-- Renames the columns of a list from left to right. -/
def columns (fresh : Bool) (cols : List Column) : StateM Renaming (List Column) :=
  cols.mapM (column fresh)

/-- Renames the columns of a set in rising order of id. -/
def columnSet (fresh : Bool) (s : ColumnSet) : StateM Renaming ColumnSet := do
  return ColumnSet.ofList (← columns fresh s.toList)

end Renaming

end QueryOptimizer
