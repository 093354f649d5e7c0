import QueryOptimizer.Column.Renaming

/-!
# Sort orders

A sort order lists columns from the most to the least significant one. Rows in one order are
also in every order that the list begins with, which is what `SortOrder.satisfies` says.
-/

namespace QueryOptimizer

/-- A column to sort by. -/
structure SortKey where
  column : Column
  ascending : Bool
  nullsFirst : Bool
  deriving BEq, Repr

/-- The columns to sort by, the most significant one first. -/
structure SortOrder where
  keys : List SortKey := []
  deriving BEq, Repr

namespace SortOrder

/-- Whether nothing is sorted. -/
def isEmpty (o : SortOrder) : Bool :=
  o.keys.isEmpty

/-- The columns of the order. -/
def usedColumns (o : SortOrder) : ColumnSet :=
  .ofList (o.keys.map (·.column))

/-- Whether rows in this order are in the required order: it begins with the required keys. -/
def satisfies (o required : SortOrder) : Bool :=
  decide (required.keys.length ≤ o.keys.length) &&
    (required.keys.zip o.keys).all fun (r, s) => r == s

/-- The order with its columns renamed. -/
def rename (fresh : Bool) (o : SortOrder) : StateM Renaming SortOrder := do
  return ⟨← o.keys.mapM fun k => return { k with column := ← Renaming.column fresh k.column }⟩

/-- The hash of an order. -/
def hashValue (o : SortOrder) : UInt64 :=
  Hashing.ofParts "order" <| o.keys.flatMap fun k =>
    [k.column.hashValue, hash k.ascending, hash k.nullsFirst]

/-- The text of an order. Where nulls go is not shown. -/
def toText (o : SortOrder) : String :=
  Text.list <| o.keys.map fun k => k.column.toText ++ if k.ascending then " asc" else " desc"

end SortOrder

end QueryOptimizer
