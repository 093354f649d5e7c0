import QueryOptimizer.Operator.Logical
import QueryOptimizer.Operator.Physical

/-!
# Operators

An operator is logical or physical. Operators that are equal (`==`) are
interchangeable, and they hash alike.
-/

namespace QueryOptimizer

/-- A logical or a physical operator. -/
inductive Operator where
  | logical (op : LogicalOperator)
  | physical (op : PhysicalOperator)
  deriving BEq

namespace Operator

/-- The text of an operator. -/
def toText : Operator → String
  | logical op => op.toText
  | physical op => op.toText

/-- The hash of an operator. -/
def hashValue : Operator → UInt64
  | logical op => Hashing.ofParts "logical" [op.hashValue]
  | physical op => Hashing.ofParts "physical" [op.hashValue]

instance : Hashable Operator := ⟨hashValue⟩

/-- Whether the operator is logical. -/
def isLogical : Operator → Bool
  | logical _ => true
  | physical _ => false

/-- Whether the operator is physical and only enforces a property. -/
def isEnforcer : Operator → Bool
  | logical _ => false
  | physical op => op.isEnforcer

/-- Whether the operator has no inputs. -/
def isLeaf : Operator → Bool
  | logical (.get _) | logical (.dynamicGet _) | logical (.values _) | logical (.cteConsumer _)
  | physical (.tableScan _) | physical (.dynamicTableScan _) | physical (.valuesScan _)
  | physical (.cteConsumer _) => true
  | _ => false

/-- The join, if the operator is a logical one. -/
def join? : Operator → Option Join
  | logical (.join j) => some j
  | _ => none

/-- The limit, if the operator is a logical one. -/
def limit? : Operator → Option Limit
  | logical (.limit l) => some l
  | _ => none

/-- The computed columns, if the operator is a logical projection. -/
def project? : Operator → Option (List Definition)
  | logical (.project ds) => some ds
  | _ => none

/-- The set operation, if the operator is a logical one. -/
def setOp? : Operator → Option SetOperation
  | logical (.setOp s) => some s
  | _ => none

end Operator

end QueryOptimizer
