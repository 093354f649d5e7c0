import QueryOptimizer.Scalar.Operator
import QueryOptimizer.Statistics.Basic

/-!
# Catalog

The catalog describes tables and says which operators, casts and functions exist. A `Catalog`
is the set of lookups that the optimizer makes; each may find nothing, which is `notFound`, or
fail for a reason outside the question, which is `unavailable`. The optimizer treats the first
as an answer (`CatalogAnswer.exists?`) and passes the second on.
-/

namespace QueryOptimizer

/-- The kinds of things a catalog knows. -/
inductive CatalogKind where
  | table | statistics | comparison | cast | scalarOp | function | aggregate
  deriving DecidableEq, Repr

/-- The name of a kind. -/
def CatalogKind.name : CatalogKind → String
  | table => "Table"
  | statistics => "Statistics"
  | comparison => "Comparison"
  | cast => "Cast"
  | scalarOp => "ScalarOp"
  | function => "Function"
  | aggregate => "Aggregate"

/-- Why a lookup has no result. -/
inductive CatalogError where
  | notFound (kind : CatalogKind) (name : String)
  | unavailable (reason : String)
  deriving DecidableEq, Repr

/-- The message of a failed lookup. -/
def CatalogError.message : CatalogError → String
  | notFound kind name => kind.name ++ " " ++ name ++ " not found in catalog"
  | unavailable reason => "catalog unavailable: " ++ reason

/-- The result of a lookup. -/
abbrev CatalogAnswer := Except CatalogError

/-- Turns "not found" into an answer and keeps every other failure. -/
def CatalogAnswer.exists? {α : Type} : CatalogAnswer α → CatalogAnswer (Option α)
  | .ok a => .ok (some a)
  | .error (.notFound ..) => .ok none
  | .error e => .error e

/-! ### Tables -/

/-- A column of a stored table. -/
structure TableColumn where
  name : String
  type : DataType
  nullable : Bool
  deriving DecidableEq, Repr

/-- How the rows of a stored table are spread over the segments. Hash columns are given by
their position in the table. -/
inductive TableDistribution where
  | hashed (positions : List Nat)
  | random
  | replicated
  | singleton
  deriving DecidableEq, Repr

/-- The text of a distribution. -/
def TableDistribution.toText : TableDistribution → String
  | hashed positions => "Hashed(" ++ Text.list (positions.map toString) ++ ")"
  | random => "Random"
  | replicated => "Replicated"
  | singleton => "Singleton"

/-- A stored table. Keys and partition keys are given by column positions. -/
structure Table where
  id : Nat
  name : String
  columns : List TableColumn
  keys : List (List Nat) := []
  distribution : TableDistribution := .random
  partitionKeys : List Nat := []
  deriving Repr

namespace Table

/-- Tables are the same when their ids agree. -/
instance : BEq Table := ⟨fun a b => a.id == b.id⟩

instance : EquivBEq Table where
  rfl := by simp [BEq.beq]
  symm h := by simp_all [BEq.beq]
  trans h k := by simp_all [BEq.beq]

/-- Whether the table is stored in partitions. -/
def isPartitioned (t : Table) : Bool :=
  !t.partitionKeys.isEmpty

/-- Fresh columns for a scan of the table, one for each of its columns. -/
def scanColumns (t : Table) (factory : ColumnFactory) : List Column × ColumnFactory :=
  go 0 t.columns factory
where
  go (position : Nat) : List TableColumn → ColumnFactory → List Column × ColumnFactory
    | [], f => ([], f)
    | c :: cs, f =>
      let (col, f) := f.createFromTable c.type c.name (t.id % Nat.pow 2 32) position c.nullable
      let (cols, f) := go (position + 1) cs f
      (col :: cols, f)

/-- A table of nullable columns with these names and types. -/
def ofTypes (id : Nat) (name : String) (columns : List (String × DataType)) : Table :=
  { id, name, columns := columns.map fun (name, type) => ⟨name, type, true⟩ }

end Table

/-- Statistics of a stored table: its row count, and histograms by column position. -/
structure TableStats (K : Type) where
  rows : K
  histograms : ByColumn (Histogram K) := {}

/-- What is known of a scalar operator: whether a null operand makes the result null, and
whether its operands may be exchanged. -/
structure ScalarOpProps where
  nullOnNullInput : Bool
  commutative : Bool
  deriving DecidableEq, Repr

/-! ### Lookups -/

/-- The lookups that the optimizer makes. -/
structure Catalog (K : Type) where
  table : Nat → CatalogAnswer Table
  tableStats : Nat → CatalogAnswer (TableStats K)
  /-- The type of the result of comparing two types. -/
  comparison : BinaryOp → DataType → DataType → CatalogAnswer DataType
  /-- The name of the cast between two types. -/
  cast : DataType → DataType → CatalogAnswer String
  scalarOp : BinaryOp → CatalogAnswer ScalarOpProps
  /-- The type of the result of a function. -/
  function : String → List DataType → CatalogAnswer DataType
  /-- The type of the result of an aggregate over an argument of a type. -/
  aggregate : AggregateFunction → Option DataType → CatalogAnswer DataType

namespace Catalog

variable {K : Type}

/-- The catalog whose lookups all fail with one error. -/
def failing (e : CatalogError) : Catalog K where
  table _ := .error e
  tableStats _ := .error e
  comparison _ _ _ := .error e
  cast _ _ := .error e
  scalarOp _ := .error e
  function _ _ := .error e
  aggregate _ _ := .error e

/-- Whether two types can be compared with an operator. -/
def comparisonExists (c : Catalog K) (op : BinaryOp) (left right : DataType) :
    CatalogAnswer Bool :=
  return (← (c.comparison op left right).exists?).isSome

/-- Whether there is a cast between two types. -/
def castExists (c : Catalog K) (source target : DataType) : CatalogAnswer Bool :=
  return (← (c.cast source target).exists?).isSome

/-- What is known of an operator, if it is known. -/
def scalarOp? (c : Catalog K) (op : BinaryOp) : CatalogAnswer (Option ScalarOpProps) :=
  (c.scalarOp op).exists?

/-- The statistics of a table, if it has some. -/
def tableStats? (c : Catalog K) (id : Nat) : CatalogAnswer (Option (TableStats K)) :=
  (c.tableStats id).exists?

end Catalog

end QueryOptimizer
