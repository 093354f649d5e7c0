import QueryOptimizer.DataType

/-!
# Scalar operators and aggregate functions

The binary operators of scalar expressions with their texts, and the aggregate functions with
the names they are called by and the names they are printed with.
-/

namespace QueryOptimizer

/-- A binary operator of scalar expressions. -/
inductive BinaryOp where
  | eq | notEq | lt | ltEq | gt | gtEq
  | plus | minus | multiply | divide | modulo
  | and | or
  | isDistinctFrom | isNotDistinctFrom
  | match | matchIgnoreCase | notMatch | notMatchIgnoreCase
  | bitAnd | bitOr | bitXor | shiftRight | shiftLeft
  | concat
  deriving DecidableEq, Repr, Hashable

namespace BinaryOp

/-- Every operator, in order of declaration. -/
def all : List BinaryOp :=
  [eq, notEq, lt, ltEq, gt, gtEq, plus, minus, multiply, divide, modulo, and, or,
    isDistinctFrom, isNotDistinctFrom, .match, matchIgnoreCase, notMatch, notMatchIgnoreCase,
    bitAnd, bitOr, bitXor, shiftRight, shiftLeft, concat]

/-- The text of the operator. -/
def toText : BinaryOp → String
  | eq => "="
  | notEq => "!="
  | lt => "<"
  | ltEq => "<="
  | gt => ">"
  | gtEq => ">="
  | plus => "+"
  | minus => "-"
  | multiply => "*"
  | divide => "/"
  | modulo => "%"
  | and => "AND"
  | or => "OR"
  | isDistinctFrom => "IS DISTINCT FROM"
  | isNotDistinctFrom => "IS NOT DISTINCT FROM"
  | .match => "~"
  | matchIgnoreCase => "~*"
  | notMatch => "!~"
  | notMatchIgnoreCase => "!~*"
  | bitAnd => "&"
  | bitOr => "|"
  | bitXor => "#"
  | shiftRight => ">>"
  | shiftLeft => "<<"
  | concat => "||"

/-- The operator with a given text. -/
def ofText? (s : String) : Option BinaryOp :=
  all.find? (·.toText == s)

/-- Whether the operator compares its operands: the six order comparisons and the two
comparisons that treat nulls as equal values. -/
def isComparison : BinaryOp → Bool
  | eq | notEq | lt | ltEq | gt | gtEq | isDistinctFrom | isNotDistinctFrom => true
  | _ => false

/-- Whether the result of the operator is a truth value. -/
def isBoolean (op : BinaryOp) : Bool :=
  op.isComparison || op == and || op == or

/-- The operator that says the same with the operands exchanged, for the order comparisons. -/
def swap? : BinaryOp → Option BinaryOp
  | eq => some eq
  | notEq => some notEq
  | lt => some gt
  | ltEq => some gtEq
  | gt => some lt
  | gtEq => some ltEq
  | _ => none

end BinaryOp

/-- An aggregate function. -/
inductive AggregateFunction where
  | count | sum | min | max | avg | median
  | approxDistinct | approxMedian | arrayAgg | firstValue | lastValue
  | variance | stddev | covariance | covariancePop | correlation
  | grouping | bitAnd | bitOr | bitXor | boolAnd | boolOr
  deriving DecidableEq, Repr, Hashable

namespace AggregateFunction

/-- Every function with the names it is called by. -/
def calledBy : List (String × AggregateFunction) :=
  [("count", count), ("sum", sum), ("min", min), ("max", max), ("avg", avg), ("mean", avg),
    ("median", median), ("approx_distinct", approxDistinct), ("approx_median", approxMedian),
    ("array_agg", arrayAgg), ("first_value", firstValue), ("last_value", lastValue),
    ("var", variance), ("stddev", stddev), ("covar", covariance), ("covar_pop", covariancePop),
    ("corr", correlation), ("grouping", grouping), ("bit_and", bitAnd), ("bit_or", bitOr),
    ("bit_xor", bitXor), ("bool_and", boolAnd), ("bool_or", boolOr)]

/-- The function called by a name. -/
def ofName? (name : String) : Option AggregateFunction :=
  calledBy.lookup name

/-- The name of the function in printed expressions. -/
def toText : AggregateFunction → String
  | count => "COUNT"
  | sum => "SUM"
  | min => "MIN"
  | max => "MAX"
  | avg => "AVG"
  | median => "MEDIAN"
  | approxDistinct => "APPROX_DISTINCT"
  | approxMedian => "APPROX_MEDIAN"
  | arrayAgg => "ARRAY_AGG"
  | firstValue => "FIRST_VALUE"
  | lastValue => "LAST_VALUE"
  | variance => "VARIANCE"
  | stddev => "STDDEV"
  | covariance => "COVARIANCE"
  | covariancePop => "COVARIANCE_POP"
  | correlation => "CORRELATION"
  | grouping => "GROUPING"
  | bitAnd => "BIT_AND"
  | bitOr => "BIT_OR"
  | bitXor => "BIT_XOR"
  | boolAnd => "BOOL_AND"
  | boolOr => "BOOL_OR"

/-- The name of the function in messages about it. -/
def label : AggregateFunction → String
  | count => "Count"
  | sum => "Sum"
  | min => "Min"
  | max => "Max"
  | avg => "Avg"
  | median => "Median"
  | approxDistinct => "ApproxDistinct"
  | approxMedian => "ApproxMedian"
  | arrayAgg => "ArrayAgg"
  | firstValue => "FirstValue"
  | lastValue => "LastValue"
  | variance => "Variance"
  | stddev => "Stddev"
  | covariance => "Covariance"
  | covariancePop => "CovariancePop"
  | correlation => "Correlation"
  | grouping => "Grouping"
  | bitAnd => "BitAnd"
  | bitOr => "BitOr"
  | bitXor => "BitXor"
  | boolAnd => "BoolAnd"
  | boolOr => "BoolOr"

end AggregateFunction

end QueryOptimizer
