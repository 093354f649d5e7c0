import QueryOptimizer.DataType
import QueryOptimizer.Hashing

/-!
# Columns

A column is identified by its id alone. Two columns with one id are the same column, whatever
their names and types say, so equality, order and hash look only at the id. Columns are handed
out by a `ColumnFactory`, which never gives one id twice.
-/

namespace QueryOptimizer

/-- Where a column comes from. -/
inductive Origin where
  /-- Read from a stored table: the scan that reads it, its position there, whether it
  may be null, and its width in bytes. -/
  | table (scan : Nat) (position : Int) (nullable : Bool) (width : Nat)
  /-- Computed by an expression. -/
  | computed
  deriving DecidableEq, Repr

/-- A column of a relation. The modifier qualifies the type; it is `-1` when there is none. -/
structure Column where
  id : Nat
  type : DataType
  modifier : Int
  name : String
  origin : Origin
  deriving Repr

namespace Column

instance : BEq Column := ⟨fun a b => a.id == b.id⟩

instance : EquivBEq Column where
  rfl := by simp [BEq.beq]
  symm h := by simp_all [BEq.beq]
  trans h k := by simp_all [BEq.beq]

/-- Equality of columns is equality of their ids. -/
@[simp] theorem beq_iff {a b : Column} : (a == b) = true ↔ a.id = b.id := by
  simp [BEq.beq]

/-- The hash of a column is the hash of its id. -/
def hashValue (c : Column) : UInt64 :=
  Hashing.ofNat c.id

instance : Hashable Column := ⟨hashValue⟩

instance : LawfulHashable Column where
  hash_eq a b h := by simp only [beq_iff] at h; simp [Hashable.hash, hashValue, h]

/-- Whether the column may hold null. -/
def isNullable (c : Column) : Bool :=
  match c.origin with
  | .table _ _ nullable _ => nullable
  | .computed => true

/-- The bytes a value of the type takes: its fixed width, or eight. -/
def typeWidth (type : DataType) : Nat :=
  type.fixedWidth?.getD 8

/-- The bytes a value of the column takes. -/
def width (c : Column) : Nat :=
  match c.origin with
  | .table _ _ _ width => width
  | .computed => typeWidth c.type

/-- Whether the column holds truth values. -/
def isBoolean (c : Column) : Bool :=
  c.type == .boolean

/-- The text of a column: its name and its id. -/
def toText (c : Column) : String :=
  c.name ++ "#" ++ toString c.id

/-- Columns in brackets. -/
def listText (cols : List Column) : String :=
  Text.list (cols.map toText)

/-- Order-sensitive hash of a sequence of columns. -/
def hashSequence (cols : List Column) : UInt64 :=
  cols.foldl (fun acc c => Hashing.combine acc c.hashValue) (Hashing.ofNat cols.length)

end Column

namespace Origin

/-- The origin with its details. -/
def toText : Origin → String
  | table scan position nullable width =>
    Text.record "Table" [("source_op_id", toString scan), ("attno", toString position),
      ("nullable", toString nullable), ("width", toString width)]
  | computed => "Computed"

end Origin

/-- Hands out columns with ids that were not used before. -/
structure ColumnFactory where
  next : Nat := 0
  deriving Repr

namespace ColumnFactory

/-- A computed column with a type modifier. -/
def createWithModifier (f : ColumnFactory) (type : DataType) (modifier : Int) (name : String) :
    Column × ColumnFactory :=
  (⟨f.next, type, modifier, name, .computed⟩, ⟨f.next + 1⟩)

/-- A computed column. -/
def create (f : ColumnFactory) (type : DataType) (name : String) : Column × ColumnFactory :=
  f.createWithModifier type (-1) name

/-- A column read from a table. -/
def createFromTable (f : ColumnFactory) (type : DataType) (name : String) (scan : Nat)
    (position : Int) (nullable : Bool) : Column × ColumnFactory :=
  (⟨f.next, type, -1, name, .table scan position nullable (Column.typeWidth type)⟩,
    ⟨f.next + 1⟩)

/-- A computed column with the type, modifier and name of another one. -/
def copyOf (f : ColumnFactory) (c : Column) : Column × ColumnFactory :=
  f.createWithModifier c.type c.modifier c.name

end ColumnFactory

end QueryOptimizer
