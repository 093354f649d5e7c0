import QueryOptimizer.Number.Reading
import QueryOptimizer.Text.Layout

/-!
# Data types

The types of columns and literals. Types whose values are stored as one integer are grouped in
`IntegerType`: signed and unsigned integers of each width, calendar dates and timestamps.
-/

namespace QueryOptimizer

/-- The resolution of a timestamp. -/
inductive TimeUnit where
  | second
  | millisecond
  | microsecond
  | nanosecond
  deriving DecidableEq, Repr, Hashable

/-- A type whose values are integers. -/
inductive IntegerType where
  | int8 | int16 | int32 | int64
  | uint8 | uint16 | uint32 | uint64
  | date32 | date64
  | timestamp (unit : TimeUnit)
  deriving DecidableEq, Repr, Hashable

/-- A type whose values are strings, with short or with long offsets. -/
inductive TextType where
  | utf8
  | largeUtf8
  deriving DecidableEq, Repr, Hashable

/-- The type of a column or of a literal. The null type has no value but null. -/
inductive DataType where
  | null
  | boolean
  | integer (type : IntegerType)
  | float32
  | float64
  | decimal (precision : Nat) (scale : Int)
  | text (type : TextType)
  | binary
  deriving DecidableEq, Repr, Hashable

namespace TimeUnit

/-- The name of the unit. -/
def name : TimeUnit → String
  | second => "Second"
  | millisecond => "Millisecond"
  | microsecond => "Microsecond"
  | nanosecond => "Nanosecond"

end TimeUnit

namespace IntegerType

/-- The name of the type. Timestamps carry no time zone. -/
def name : IntegerType → String
  | int8 => "Int8"
  | int16 => "Int16"
  | int32 => "Int32"
  | int64 => "Int64"
  | uint8 => "UInt8"
  | uint16 => "UInt16"
  | uint32 => "UInt32"
  | uint64 => "UInt64"
  | date32 => "Date32"
  | date64 => "Date64"
  | timestamp unit => "Timestamp(" ++ unit.name ++ ", None)"

/-- The bytes of one value. -/
def width : IntegerType → Nat
  | int8 | uint8 => 1
  | int16 | uint16 => 2
  | int32 | uint32 | date32 => 4
  | int64 | uint64 | date64 | timestamp _ => 8

/-- Whether arithmetic on the type is arithmetic on numbers: true of integers, not of dates and
timestamps. -/
def isNumeric : IntegerType → Bool
  | date32 | date64 | timestamp _ => false
  | _ => true

/-- Whether neighbouring values differ by one, so that a closed range `[a, b]` holds
`b - a + 1` values. Timestamps are treated as a continuum. -/
def isIntegral : IntegerType → Bool
  | timestamp _ => false
  | _ => true

end IntegerType

namespace TextType

/-- The name of the type. -/
def name : TextType → String
  | utf8 => "Utf8"
  | largeUtf8 => "LargeUtf8"

end TextType

namespace DataType

/-- The name of the type. -/
def name : DataType → String
  | null => "Null"
  | boolean => "Boolean"
  | integer type => type.name
  | float32 => "Float32"
  | float64 => "Float64"
  | decimal precision scale =>
    "Decimal128(" ++ toString precision ++ ", " ++ toString scale ++ ")"
  | text type => type.name
  | binary => "Binary"

/-- The types without parameters, and the timestamps. -/
def plain : List DataType :=
  [null, boolean, float32, float64, text .utf8, text .largeUtf8, binary] ++
    [IntegerType.int8, .int16, .int32, .int64, .uint8, .uint16, .uint32, .uint64,
      .date32, .date64, .timestamp .second, .timestamp .millisecond, .timestamp .microsecond,
      .timestamp .nanosecond].map integer

/-- The type with a name. A decimal type is its name up to the bracket, the precision and the
scale. -/
def ofName? (s : String) : Option DataType :=
  match plain.find? (·.name == s) with
  | some type => some type
  | none =>
    match s.splitOn "(" with
    | ["Decimal128", rest] =>
      match ((rest.splitOn ")").headD "").splitOn ", " with
      | [p, q] => do return decimal (← Number.integer? p).toNat (← Number.integer? q)
      | _ => none
    | _ => none

/-- Whether values of the type are numbers. -/
def isNumeric : DataType → Bool
  | integer type => type.isNumeric
  | float32 | float64 | decimal .. => true
  | _ => false

/-- Whether a closed range of values holds a countable number of them; true and false count as
neighbours. -/
def isIntegral : DataType → Bool
  | boolean => true
  | integer type => type.isIntegral
  | _ => false

/-- The bytes of one value, for types whose values all have the same width. -/
def fixedWidth? : DataType → Option Nat
  | integer type => some type.width
  | float32 => some 4
  | float64 => some 8
  | decimal .. => some 16
  | null | boolean | text _ | binary => none

end DataType

end QueryOptimizer
