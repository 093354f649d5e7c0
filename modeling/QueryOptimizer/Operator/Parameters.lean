import QueryOptimizer.Catalog.Basic
import QueryOptimizer.Operator.Kind
import QueryOptimizer.Property.Order
import QueryOptimizer.Scalar.Analysis

/-!
# Parameters of operators

What an operator is applied with, apart from its inputs. A logical operator and the physical
operators that carry it out have the same parameters, so these are kept in types of their own:
each has an equality, a hash that equal parameters share, and labelled texts of its fields.
-/

namespace QueryOptimizer

instance : Hashable Table := ⟨fun t => Hashing.ofNat t.id⟩

/-- The labelled texts of the fields of a record. -/
abbrev Fields := List (String × String)

/-! ### Sources of rows -/

/-- A table read into columns, in the order of the table's columns. -/
structure Scan where
  table : Table
  cols : List Column
  deriving BEq

namespace Scan

/-- The hash of a scan. -/
def hashValue (s : Scan) : UInt64 :=
  Hashing.ofParts "scan" [hash s.table, Column.hashSequence s.cols]

/-- The fields of a scan. -/
def fields (s : Scan) : Fields :=
  [("table", Text.quoted s.table.name), ("cols", Column.listText s.cols)]

end Scan

/-- A partitioned table read into columns, with its partitions chosen while the plan runs. -/
structure DynamicScan where
  table : Table
  cols : List Column
  scan : Nat
  partitionKeys : List Column
  deriving BEq

namespace DynamicScan

/-- The scan of a table, whose partition keys are found among the columns by position. -/
def ofTable (table : Table) (cols : List Column) (scan : Nat) : DynamicScan :=
  ⟨table, cols, scan, table.partitionKeys.filterMap (cols[·]?)⟩

/-- The hash of a scan. -/
def hashValue (s : DynamicScan) : UInt64 :=
  Hashing.ofParts "dynamic scan"
    [hash s.table, Hashing.ofNat s.scan, Column.hashSequence s.cols]

/-- The fields of a scan. -/
def fields (s : DynamicScan) : Fields :=
  [("table", Text.quoted s.table.name), ("scan_id", toString s.scan),
    ("cols", Column.listText s.cols)]

end DynamicScan

/-- Literal rows: `rows[i][j]` is the value of `cols[j]` in row `i`. -/
structure Values where
  cols : List Column
  rows : List (List Datum)
  deriving BEq

namespace Values

/-- The hash of literal rows. -/
def hashValue (v : Values) : UInt64 :=
  Hashing.ofParts "values" [Column.hashSequence v.cols, hash v.rows]

/-- The fields of literal rows. -/
def fields (v : Values) : Fields :=
  [("cols", Column.listText v.cols), ("rows", toString v.rows.length)]

end Values

/-! ### Predicates and computed columns -/

/-- The field that shows a predicate. -/
def Scalar.field (predicate : Scalar) : String × String :=
  ("predicate", Text.quoted predicate.toText)

/-- The field that shows computed columns. -/
def Definition.field (label : String) (definitions : List Definition) : String × String :=
  (label, Text.quoted (Text.joined ", " (definitions.map Definition.toText)))

/-- Grouping by keys with aggregates computed for each group. Without keys there
is one group. -/
structure Grouping where
  keys : List Column
  aggregates : List Definition
  deriving BEq

namespace Grouping

/-- The hash of a grouping. -/
def hashValue (g : Grouping) : UInt64 :=
  Hashing.ofParts "grouping"
    (Column.hashSequence g.keys :: g.aggregates.map Definition.hashValue)

/-- The fields of a grouping. -/
def fields (g : Grouping) : Fields :=
  [("group_cols", Column.listText g.keys), Definition.field "aggs" g.aggregates]

/-- The grouping that only removes duplicates. -/
def distinctOn (cols : List Column) : Grouping :=
  ⟨cols, []⟩

end Grouping

/-! ### Limits -/

/-- In the given order, skip `offset` rows and keep at most `count` of the others. -/
structure Limit where
  offset : Nat
  count : Option Nat
  order : SortOrder
  deriving BEq

namespace Limit

/-- Offsets and counts are held within 64 bits. -/
def maximum : Nat := Nat.pow 2 64 - 1

/-- The one limit that does what `outer` does to the rows that `inner` leaves; `none` when they
look at the rows in different orders. -/
def mergeOver (outer inner : Limit) : Option Limit :=
  if !outer.order.isEmpty && outer.order != inner.order then none
  else
    let remaining := inner.count.map (· - outer.offset)
    let count :=
      match remaining, outer.count with
      | some m, some n => some (min m n)
      | some m, none => some m
      | none, n => n
    some ⟨min (inner.offset + outer.offset) maximum, count, inner.order⟩

/-- The hash of a limit. -/
def hashValue (l : Limit) : UInt64 :=
  Hashing.ofParts "limit" [Hashing.ofNat l.offset, hash l.count, l.order.hashValue]

/-- The fields of a limit. -/
def fields (l : Limit) : Fields :=
  [("offset", toString l.offset), ("count", Text.option (l.count.map toString)),
    ("orders", Text.quoted l.order.toText)]

end Limit

/-! ### Joins -/

/-- A join of two inputs on a predicate. -/
structure Join where
  type : JoinType
  predicate : Scalar
  deriving BEq

namespace Join

/-- The hash of a join. -/
def hashValue (j : Join) : UInt64 :=
  Hashing.ofParts "join" [hash j.type, j.predicate.hashValue]

/-- The fields of a join. -/
def fields (j : Join) : Fields :=
  [("join_type", j.type.name), j.predicate.field]

end Join

/-- A join whose right input is evaluated for each left row, with the columns `outer` bound to
the values of that row. -/
structure Apply where
  type : JoinType
  predicate : Scalar
  outer : List Column
  deriving BEq

namespace Apply

/-- The hash of an apply. -/
def hashValue (a : Apply) : UInt64 :=
  Hashing.ofParts "apply" [hash a.type, a.predicate.hashValue, Column.hashSequence a.outer]

/-- The fields of an apply. -/
def fields (a : Apply) : Fields :=
  [("join_type", a.type.name), a.predicate.field, ("outer_refs", Column.listText a.outer)]

end Apply

/-! ### Set operations -/

/-- A set operation over any number of inputs, whose columns are matched with the output
columns by position. -/
structure SetOperation where
  kind : SetOpKind
  output : List Column
  inputs : List (List Column)
  deriving BEq

namespace SetOperation

/-- The hash of a set operation. -/
def hashValue (s : SetOperation) : UInt64 :=
  Hashing.ofParts "set operation"
    (hash s.kind :: Column.hashSequence s.output :: s.inputs.map Column.hashSequence)

/-- The fields of a set operation. -/
def fields (s : SetOperation) : Fields :=
  [("kind", Text.quoted s.kind.name), ("output_cols", Column.listText s.output),
    ("input_cols", Text.list (s.inputs.map Column.listText))]

end SetOperation

/-! ### Common table expressions -/

/-- The computation of a shared result with its columns. -/
structure CteProducer where
  id : Nat
  cols : List Column
  deriving BEq

namespace CteProducer

/-- The hash of a producer. -/
def hashValue (p : CteProducer) : UInt64 :=
  Hashing.ofParts "producer" [Hashing.ofNat p.id, Column.hashSequence p.cols]

/-- The fields of a producer. -/
def fields (p : CteProducer) : Fields :=
  [("id", toString p.id), ("cols", Column.listText p.cols)]

end CteProducer

/-- The use of a shared result, with the producer's columns under new names. -/
structure CteConsumer where
  id : Nat
  cols : List Column
  producerCols : List Column
  deriving BEq

namespace CteConsumer

/-- The producer's columns under their new names. -/
def newNames (c : CteConsumer) : ColumnMap :=
  .ofLists c.producerCols c.cols

/-- The hash of a consumer. -/
def hashValue (c : CteConsumer) : UInt64 :=
  Hashing.ofParts "consumer" [Hashing.ofNat c.id, Column.hashSequence c.cols]

/-- The fields of a consumer. -/
def fields (c : CteConsumer) : Fields :=
  [("id", toString c.id), ("cols", Column.listText c.cols)]

end CteConsumer

end QueryOptimizer
