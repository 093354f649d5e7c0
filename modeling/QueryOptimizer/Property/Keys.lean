import QueryOptimizer.Column.Renaming

/-!
# Candidate keys

The candidate keys of a relation: column sets of which no two rows have the same
values. Only minimal keys are kept, since every larger set is a key as well, and the
empty set is never one of them.
-/

namespace QueryOptimizer

/-- The known keys of a relation. -/
structure Keys where
  sets : List ColumnSet := []
  deriving BEq

namespace Keys

/-- No known key. -/
def none : Keys := {}

/-- Adds a key, unless it contains a known one; keys that contain it are dropped. -/
def add (k : Keys) (key : ColumnSet) : Keys :=
  if key.isEmpty || k.sets.any (·.isSubset key) then k
  else ⟨(k.sets.filter (!key.isSubset ·)) ++ [key]⟩

/-- The minimal ones of some keys. -/
def ofList (keys : List ColumnSet) : Keys :=
  keys.foldl add none

/-- Whether no two rows agree on the columns: they contain a key. -/
def isUniqueOn (k : Keys) (cols : ColumnSet) : Bool :=
  k.sets.any (·.isSubset cols)

/-- The keys within some columns. -/
def restrict (k : Keys) (cols : ColumnSet) : Keys :=
  ⟨k.sets.filter (·.isSubset cols)⟩

/-- The keys of a relation whose columns are renamed one by one. -/
def rename (fresh : Bool) (k : Keys) : StateM Renaming Keys := do
  return ⟨← k.sets.mapM (Renaming.columnSet fresh)⟩

/-- The keys with their columns replaced; columns without a replacement are kept. -/
def substitute (map : ColumnMap) (k : Keys) : Keys :=
  ⟨k.sets.map fun s => .ofList (s.toList.map map.substitute)⟩

end Keys

end QueryOptimizer
