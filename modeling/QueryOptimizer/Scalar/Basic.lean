import QueryOptimizer.Column.Renaming
import QueryOptimizer.Datum
import QueryOptimizer.Scalar.Operator

/-!
# Scalar expressions

Predicates, computed columns and aggregates. Two expressions are equal (`==`) when they
have the same shape and the same leaves, where columns are compared by id; equal
expressions hash alike.
-/

namespace QueryOptimizer

/-- A scalar expression over the columns of a row. -/
inductive Scalar where
  | column (c : Column)
  | literal (value : Datum)
  | binary (op : BinaryOp) (left right : Scalar)
  | not (e : Scalar)
  | isNull (e : Scalar)
  | cast (e : Scalar) (type : DataType)
  | call (name : String) (args : List Scalar) (type : DataType)
  | aggregate (func : AggregateFunction) (args : List Scalar) (distinct : Bool)
  deriving Repr

namespace Scalar

instance : Inhabited Scalar := ⟨literal (.null .null)⟩

/-! ### Construction -/

/-- The equality of two expressions. -/
def eq (left right : Scalar) : Scalar :=
  binary .eq left right

/-- A truth value as an expression. -/
def ofBool (b : Bool) : Scalar :=
  literal (.boolean b)

/-- Expressions joined by an operator, the leftmost ones innermost. -/
def chain (op : BinaryOp) : List Scalar → Option Scalar
  | [] => none
  | e :: es => some (es.foldl (binary op) e)

/-- The conjunction of predicates, from the left; `none` for no predicates. -/
def conjoin? (es : List Scalar) : Option Scalar :=
  chain .and es

/-- The disjunction of predicates, from the left; `none` for no predicates. -/
def disjoin? (es : List Scalar) : Option Scalar :=
  chain .or es

/-! ### Equality and hash -/

mutual

/-- Whether two expressions have the same shape and the same leaves. -/
def equal : Scalar → Scalar → Bool
  | column c, column d => c == d
  | literal v, literal w => v == w
  | binary op l r, binary op' l' r' => op == op' && equal l l' && equal r r'
  | not e, not e' => equal e e'
  | isNull e, isNull e' => equal e e'
  | cast e t, cast e' t' => equal e e' && t == t'
  | call n as t, call n' as' t' => n == n' && equalList as as' && t == t'
  | aggregate f as d, aggregate f' as' d' => f == f' && equalList as as' && d == d'
  | _, _ => false

/-- Whether two lists of expressions are equal position by position. -/
def equalList : List Scalar → List Scalar → Bool
  | [], [] => true
  | e :: es, e' :: es' => equal e e' && equalList es es'
  | _, _ => false

end

instance : BEq Scalar := ⟨equal⟩

mutual

/-- The hash of an expression. -/
def hashValue : Scalar → UInt64
  | column c => Hashing.ofParts "column" [c.hashValue]
  | literal v => Hashing.ofParts "literal" [hash v]
  | binary op l r => Hashing.ofParts "binary" [hash op, hashValue l, hashValue r]
  | not e => Hashing.ofParts "not" [hashValue e]
  | isNull e => Hashing.ofParts "is null" [hashValue e]
  | cast e t => Hashing.ofParts "cast" [hashValue e, hash t]
  | call n as t => Hashing.ofParts "call" [hash n, hashList as, hash t]
  | aggregate f as d => Hashing.ofParts "aggregate" [hash f, hashList as, hash d]

/-- The hash of a list of expressions. -/
def hashList : List Scalar → UInt64
  | [] => 0
  | e :: es => Hashing.combine (hashValue e) (hashList es)

end

instance : Hashable Scalar := ⟨hashValue⟩

/-! ### Types and text -/

/-- The type of the values of an expression. Arithmetic has the type of its left operand; an
aggregate but a count or an average has the type of its first argument. -/
def type : Scalar → DataType
  | column c => c.type
  | literal v => v.type
  | binary op l _ => if op.isBoolean then .boolean else l.type
  | not _ | isNull _ => .boolean
  | cast _ t => t
  | call _ _ t => t
  | aggregate .count _ _ => .integer .int64
  | aggregate .avg _ _ => .float64
  | aggregate _ [] _ => .integer .int64
  | aggregate _ (e :: _) _ => e.type

mutual

/-- The text of an expression. Operands are not bracketed. -/
def toText : Scalar → String
  | column c => c.toText
  | literal v => v.toText
  | binary op l r => l.toText ++ " " ++ op.toText ++ " " ++ r.toText
  | not e => "NOT (" ++ e.toText ++ ")"
  | isNull e => e.toText ++ " IS NULL"
  | cast e t => "CAST(" ++ e.toText ++ " AS " ++ t.name ++ ")"
  | call n as _ => n ++ "(" ++ Text.joined ", " (texts as) ++ ")"
  | aggregate f as d =>
    f.toText ++ "(" ++ (if d then "DISTINCT " else "") ++ Text.joined ", " (texts as) ++ ")"

/-- The texts of a list of expressions. -/
def texts : List Scalar → List String
  | [] => []
  | e :: es => e.toText :: texts es

end

end Scalar

/-- A column together with the expression that computes it. -/
abbrev Definition := Column × Scalar

namespace Definition

/-- The text of a definition. -/
def toText (d : Definition) : String :=
  d.1.toText ++ " := " ++ d.2.toText

/-- The hash of a definition. -/
def hashValue (d : Definition) : UInt64 :=
  Hashing.ofParts "" [d.1.hashValue, d.2.hashValue]

end Definition

end QueryOptimizer
