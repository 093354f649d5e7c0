import QueryOptimizer.Column.Set

/-!
# Values by column

A `ByColumn α` holds a value for each of some columns, in rising order of column id. Statistics
keep their histograms and widths this way, so that they are always listed in one order.
-/

namespace QueryOptimizer

/-- A value for each of some column ids, listed in rising order of id. -/
structure ByColumn (α : Type) where
  entries : List (Nat × α) := []
  deriving BEq, Repr

namespace ByColumn

variable {α β : Type}

/-- No values at all. -/
def empty : ByColumn α := {}

instance : Inhabited (ByColumn α) := ⟨empty⟩

/-- The value of a column. -/
def get? (m : ByColumn α) (id : Nat) : Option α :=
  m.entries.lookup id

/-- Whether the column has a value. -/
def contains (m : ByColumn α) (id : Nat) : Bool :=
  (m.get? id).isSome

/-- Puts a value at its place in a rising list, instead of one with the same id. -/
def insertSorted (id : Nat) (a : α) : List (Nat × α) → List (Nat × α)
  | [] => [(id, a)]
  | (i, b) :: rest =>
    if id < i then (id, a) :: (i, b) :: rest
    else if id = i then (id, a) :: rest
    else (i, b) :: insertSorted id a rest

/-- Sets the value of a column. -/
def insert (m : ByColumn α) (id : Nat) (a : α) : ByColumn α :=
  ⟨insertSorted id a m.entries⟩

/-- Sets values one after the other. -/
def insertMany (m : ByColumn α) (entries : List (Nat × α)) : ByColumn α :=
  entries.foldl (fun m (id, a) => m.insert id a) m

/-- The values of a list; of entries with one id the last one stays. -/
def ofList (entries : List (Nat × α)) : ByColumn α :=
  empty.insertMany entries

/-- The values of both; where both have one, the right one stays. -/
def union (m n : ByColumn α) : ByColumn α :=
  m.insertMany n.entries

/-- The values with a function applied to each. -/
def map (m : ByColumn α) (f : α → β) : ByColumn β :=
  ⟨m.entries.map fun (id, a) => (id, f a)⟩

/-- The values of the columns that pass a test. -/
def filter (m : ByColumn α) (p : Nat → Bool) : ByColumn α :=
  ⟨m.entries.filter fun (id, _) => p id⟩

/-- The ids in rising order. -/
def ids (m : ByColumn α) : List Nat :=
  m.entries.map (·.1)

/-- The values in rising order of id. -/
def values (m : ByColumn α) : List α :=
  m.entries.map (·.2)

end ByColumn

end QueryOptimizer
