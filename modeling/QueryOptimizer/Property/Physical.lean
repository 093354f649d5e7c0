import QueryOptimizer.Property.Distribution
import QueryOptimizer.Property.Order

/-!
# Physical properties

The physical properties of a relation are how its rows are spread over segments and in which
order each segment has them. They are required from the top of a plan downwards and delivered
from the bottom upwards.
-/

namespace QueryOptimizer

/-- A distribution together with a sort order. -/
structure PhysicalProperty where
  distribution : Distribution := .any
  order : SortOrder := {}
  deriving BEq, Repr

namespace PhysicalProperty

instance : Inhabited PhysicalProperty := ⟨{}⟩

/-- No requirement at all. -/
def any : PhysicalProperty := {}

/-- A distribution without an order. -/
def ofDistribution (d : Distribution) : PhysicalProperty :=
  { distribution := d }

/-- Rows spread by the values of columns. -/
def hashedOn (cols : List Column) : PhysicalProperty :=
  ofDistribution (.hashedOn cols)

/-- All rows on one segment. -/
def singleton : PhysicalProperty :=
  ofDistribution .singleton

/-- The columns that a property refers to. -/
def usedColumns (p : PhysicalProperty) : ColumnSet :=
  p.distribution.usedColumns.union p.order.usedColumns

/-- Whether a delivered property is good enough for a required one. -/
def satisfies (p required : PhysicalProperty) : Bool :=
  p.distribution.satisfies required.distribution && p.order.satisfies required.order

/-- The hash of a property. -/
def hashValue (p : PhysicalProperty) : UInt64 :=
  Hashing.combine p.distribution.hashValue p.order.hashValue

instance : Hashable PhysicalProperty := ⟨hashValue⟩

/-- The text of a property. -/
def toText (p : PhysicalProperty) : String :=
  Text.braced ["dist: " ++ p.distribution.toText, "orders: " ++ p.order.toText]

end PhysicalProperty

end QueryOptimizer
