import QueryOptimizer.Catalog.Basic

/-!
# Catalog in memory

A catalog that is filled by hand. Its rules for operators are built in: any two numeric types
can be compared and cast, other types need to be equal or to have a registered cast.
-/

namespace QueryOptimizer

/-- A catalog kept in memory. -/
structure MemoryCatalog (K : Type) where
  tables : List Table := []
  stats : List (Nat × TableStats K) := []
  casts : List (DataType × DataType) := []
  functions : List (String × DataType) := []

namespace MemoryCatalog

variable {K : Type}

/-- Adds a table, instead of one with the same id. -/
def addTable (m : MemoryCatalog K) (t : Table) : MemoryCatalog K :=
  { m with tables := m.tables.filter (·.id != t.id) ++ [t] }

/-- Sets the statistics of a table. -/
def addStats (m : MemoryCatalog K) (id : Nat) (stats : TableStats K) : MemoryCatalog K :=
  { m with stats := (id, stats) :: m.stats }

/-- Registers a cast. -/
def addCast (m : MemoryCatalog K) (source target : DataType) : MemoryCatalog K :=
  { m with casts := (source, target) :: m.casts }

/-- Registers a function by the type of its result. -/
def addFunction (m : MemoryCatalog K) (name : String) (type : DataType) : MemoryCatalog K :=
  { m with functions := (name, type) :: m.functions }

/-- A catalog of tables, with statistics for those that have some. -/
def ofTables (tables : List (Table × Option (TableStats K))) : MemoryCatalog K :=
  tables.foldl
    (fun m (t, stats) =>
      let m := m.addTable t
      match stats with
      | some s => m.addStats t.id s
      | none => m)
    {}

/-- The table with an id. -/
def table? (m : MemoryCatalog K) (id : Nat) : Option Table :=
  m.tables.find? (·.id == id)

/-- The table with a name. -/
def tableByName? (m : MemoryCatalog K) (name : String) : Option Table :=
  m.tables.find? (·.name == name)

/-- A lookup result: what was found, or the error that nothing was. -/
def found {α : Type} (kind : CatalogKind) (name : String) : Option α → CatalogAnswer α
  | some a => .ok a
  | none => .error (.notFound kind name)

/-- Whether values of two types can be compared. -/
def comparable (m : MemoryCatalog K) (left right : DataType) : Bool :=
  left == right || (left.isNumeric && right.isNumeric) ||
    m.casts.contains (left, right) || m.casts.contains (right, left)

/-- Whether values of one type can be cast to another. -/
def castable (m : MemoryCatalog K) (source target : DataType) : Bool :=
  source == target || (source.isNumeric && target.isNumeric) ||
    m.casts.contains (source, target)

/-- The name of a cast. -/
def castName (source target : DataType) : String :=
  ("cast_" ++ source.name ++ "_to_" ++ target.name).toLower

/-- The built-in operators: comparisons and arithmetic are null on null input, the comparisons
that treat nulls as values are not. -/
def operatorProps? : BinaryOp → Option ScalarOpProps
  | .eq | .notEq | .plus | .multiply => some ⟨true, true⟩
  | .lt | .ltEq | .gt | .gtEq | .minus | .divide | .modulo => some ⟨true, false⟩
  | .isDistinctFrom | .isNotDistinctFrom => some ⟨false, true⟩
  | _ => none

/-- The type of the result of an aggregate. -/
def aggregateType? : AggregateFunction → Option DataType → Option DataType
  | .count, _ => some (.integer .int64)
  | .avg, some t => if t.isNumeric then some .float64 else none
  | .sum, some t => if t.isNumeric then some t else none
  | .min, some t | .max, some t => some t
  | _, _ => none

/-- The lookups of a catalog in memory. -/
def toCatalog (m : MemoryCatalog K) : Catalog K where
  table id := found .table (toString id) (m.table? id)
  tableStats id := found .statistics (toString id) (m.stats.lookup id)
  comparison op left right :=
    found .comparison (left.name ++ " " ++ op.toText ++ " " ++ right.name)
      (if op.isComparison && m.comparable left right then some .boolean else none)
  cast source target :=
    found .cast (source.name ++ " -> " ++ target.name)
      (if m.castable source target then some (castName source target) else none)
  scalarOp op := found .scalarOp op.toText (operatorProps? op)
  function name _ := found .function name (m.functions.lookup name)
  aggregate func arg :=
    found .aggregate (func.label ++ "(" ++ Text.option (arg.map DataType.name) ++ ")")
      (aggregateType? func arg)

end MemoryCatalog

end QueryOptimizer
