/-!
# Bounds on row counts

An upper bound on the number of rows of a relation, `none` when there is no bound. Bounds are
held within 64 bits: a sum or product beyond that is the largest bound.
-/

namespace QueryOptimizer

/-- An upper bound on the number of rows. -/
structure RowBound where
  limit? : Option Nat := none
  deriving DecidableEq, Repr

namespace RowBound

/-- The largest bound that can be held. -/
def maximum : Nat := Nat.pow 2 64 - 1

/-- No bound. -/
def unbounded : RowBound := {}

/-- At most `n` rows. -/
def atMost (n : Nat) : RowBound :=
  ⟨some (min n maximum)⟩

/-- Whether there are no rows at all. -/
def isZero (b : RowBound) : Bool :=
  b.limit? == some 0

/-- The bound of a concatenation. -/
def plus (b c : RowBound) : RowBound :=
  match b.limit?, c.limit? with
  | some m, some n => atMost (m + n)
  | _, _ => unbounded

/-- The bound of a cross product. Nothing times anything is nothing. -/
def times (b c : RowBound) : RowBound :=
  match b.limit?, c.limit? with
  | some 0, _ | _, some 0 => atMost 0
  | some m, some n => atMost (m * n)
  | _, _ => unbounded

/-- The bound of rows that are within both bounds. -/
def min (b c : RowBound) : RowBound :=
  match b.limit?, c.limit? with
  | some m, some n => ⟨some (Nat.min m n)⟩
  | some _, none => b
  | none, _ => c

/-- The text of a bound. -/
def toText (b : RowBound) : String :=
  match b.limit? with
  | some n => toString n
  | none => "unbounded"

end RowBound

end QueryOptimizer
