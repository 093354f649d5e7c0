import QueryOptimizer.Column.Set

/-!
# Looking up constraints by column

The parts of a conjunction or disjunction that constrain a single column can be found in two
ways: by looking at every part, or through an index from columns to parts. A `LookupStrategy`
names the way; `LookupStrategy.select` finds the parts.
-/

namespace QueryOptimizer

/-- How the parts that constrain one column only are found. -/
inductive LookupStrategy where
  /-- Look at every part. -/
  | scan
  /-- Use an index by column. -/
  | index
  deriving DecidableEq, Repr

/-- The name of a strategy. -/
def LookupStrategy.name : LookupStrategy → String
  | scan => "Array"
  | index => "Hash"

/-- Parts by the id of the only column that they use. -/
structure PartIndex (α : Type) where
  entries : List (Nat × List α) := []

namespace PartIndex

variable {α : Type}

/-- Adds a part at the end of the parts of a column. -/
def addEntry (id : Nat) (a : α) : List (Nat × List α) → List (Nat × List α)
  | [] => [(id, [a])]
  | (i, as) :: rest => if i = id then (i, as ++ [a]) :: rest else (i, as) :: addEntry id a rest

/-- Adds a part, if it uses exactly one column. -/
def add (used : α → ColumnSet) (index : PartIndex α) (a : α) : PartIndex α :=
  match (used a).toList with
  | [c] => ⟨addEntry c.id a index.entries⟩
  | _ => index

/-- The index of a list of parts. -/
def build (used : α → ColumnSet) (parts : List α) : PartIndex α :=
  parts.foldl (add used) {}

/-- The parts that use only this column. -/
def find (index : PartIndex α) (c : Column) : List α :=
  (index.entries.lookup c.id).getD []

end PartIndex

/-- The parts that use a column; with `exclusive`, those that use no other. -/
def partsOnColumn {α : Type} (used : α → ColumnSet) (parts : List α) (c : Column)
    (exclusive : Bool) : List α :=
  parts.filter fun a => (used a).contains c && (!exclusive || (used a).size == 1)

/-- The parts that use only this column, found the chosen way. -/
def LookupStrategy.select {α : Type} (strategy : LookupStrategy) (used : α → ColumnSet)
    (parts : List α) (c : Column) : List α :=
  match strategy with
  | scan => partsOnColumn used parts c true
  | index => (PartIndex.build used parts).find c

end QueryOptimizer
