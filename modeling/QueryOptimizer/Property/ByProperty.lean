import QueryOptimizer.Property.Physical

/-!
# Values by physical property

A `ByProperty α` holds a value for each of some physical properties. A memo keeps what it found
for each property that was ever asked for this way; there are never many.

`ByProperty.get?_insert_self` says that a value that was set is found again.
-/

namespace QueryOptimizer

/-- A value for each of some physical properties, in the order in which they first got one. -/
structure ByProperty (α : Type) where
  entries : List (PhysicalProperty × α) := []
  deriving Repr

namespace ByProperty

variable {α : Type}

/-- No values at all. -/
def empty : ByProperty α := {}

instance : Inhabited (ByProperty α) := ⟨empty⟩

/-- The value of a property. -/
def get? (m : ByProperty α) (p : PhysicalProperty) : Option α :=
  m.entries.lookup p

/-- Replaces the value of a property, or appends it. -/
def replaceOrAppend (p : PhysicalProperty) (a : α) :
    List (PhysicalProperty × α) → List (PhysicalProperty × α)
  | [] => [(p, a)]
  | (q, b) :: rest => if p == q then (q, a) :: rest else (q, b) :: replaceOrAppend p a rest

/-- Sets the value of a property. -/
def insert (m : ByProperty α) (p : PhysicalProperty) (a : α) : ByProperty α :=
  ⟨replaceOrAppend p a m.entries⟩

/-- The number of properties with a value. -/
def size (m : ByProperty α) : Nat :=
  m.entries.length

/-- A value that was set is found again, if the property equals itself. -/
theorem get?_insert_self (m : ByProperty α) (p : PhysicalProperty) (a : α)
    (h : (p == p) = true) : (m.insert p a).get? p = some a := by
  unfold insert get?
  simp only
  induction m.entries with
  | nil => simp [replaceOrAppend, List.lookup_cons, h]
  | cons e rest ih =>
    obtain ⟨q, b⟩ := e
    cases hq : p == q <;> simp [replaceOrAppend, List.lookup_cons, hq, ih]

end ByProperty

end QueryOptimizer
