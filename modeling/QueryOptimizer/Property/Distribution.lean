import QueryOptimizer.Column.Renaming

/-!
# Distributions

How the rows of a relation are spread over the segments that execute a plan. Some
distributions are only ever required, others only ever delivered; `Distribution.satisfies`
says when a delivered one is good enough for a required one. A `Motion` moves rows to
bring a distribution about.
-/

namespace QueryOptimizer

/-- How rows are spread over segments. -/
inductive Distribution where
  /-- No requirement. -/
  | any
  /-- All rows are on one segment. -/
  | singleton
  /-- Every segment has all rows. -/
  | replicated
  /-- Any distribution over several segments without copies of rows. -/
  | nonSingleton
  /-- Rows are on several segments without any rule. Where duplicates matter, no row may be
  seen on two segments. -/
  | random (duplicateSensitive : Bool)
  /-- Rows are on several segments without any rule because they were moved so. -/
  | strictRandom
  /-- The segment of a row depends on the values of columns. -/
  | hashed (cols : List Column) (nullsColocated duplicateSensitive : Bool)
  /-- The segment of a row depends on the values of columns in the way of the stored table. -/
  | strictHashed (cols : List Column) (nullsColocated : Bool)
  deriving BEq, Repr

namespace Distribution

/-- Rows spread by the values of columns, nulls together. -/
def hashedOn (cols : List Column) : Distribution :=
  hashed cols true false

/-- Whether rows are spread over several segments without copies. -/
def isPartitioned : Distribution → Bool
  | random _ | strictRandom | hashed .. | strictHashed .. => true
  | any | singleton | replicated | nonSingleton => false

/-- The columns that decide about the segment of a row. -/
def hashColumns : Distribution → List Column
  | hashed cols _ _ | strictHashed cols _ => cols
  | _ => []

/-- The columns that a distribution refers to. -/
def usedColumns (d : Distribution) : ColumnSet :=
  .ofList d.hashColumns

/-- The distribution with its columns replaced, `none` when a column has no replacement. -/
def rename? (map : ColumnMap) : Distribution → Option Distribution
  | hashed cols nulls duplicates => do return hashed (← cols.mapM map.get?) nulls duplicates
  | strictHashed cols nulls => do return strictHashed (← cols.mapM map.get?) nulls
  | d => some d

/-- Whether rows spread by `cols` are also together as rows spread by `required` must be: some
columns decide, and all of them are required ones. -/
def hashesWithin (cols required : List Column) : Bool :=
  !cols.isEmpty && cols.all required.contains

/-- Whether a delivered distribution is good enough for a required one. -/
def satisfies (d required : Distribution) : Bool :=
  d == required ||
    match d, required with
    | _, any => true
    | d, nonSingleton => d.isPartitioned
    | random sensitive, random allowed => !sensitive || allowed
    | strictRandom, random _ => true
    | hashed cols nulls _, hashed wanted wantedNulls _
    | strictHashed cols nulls, hashed wanted wantedNulls _ =>
      hashesWithin cols wanted && (nulls || !wantedNulls)
    | _, _ => false

/-- The hash of a distribution. -/
def hashValue : Distribution → UInt64
  | any => Hashing.ofParts "any" []
  | singleton => Hashing.ofParts "singleton" []
  | replicated => Hashing.ofParts "replicated" []
  | nonSingleton => Hashing.ofParts "non-singleton" []
  | random duplicates => Hashing.ofParts "random" [hash duplicates]
  | strictRandom => Hashing.ofParts "strict random" []
  | hashed cols nulls duplicates =>
    Hashing.ofParts "hashed" [Column.hashSequence cols, hash nulls, hash duplicates]
  | strictHashed cols nulls =>
    Hashing.ofParts "strict hashed" [Column.hashSequence cols, hash nulls]

/-- The text of a distribution. -/
def toText : Distribution → String
  | any => "Any"
  | singleton => "Singleton"
  | replicated => "Replicated"
  | nonSingleton => "NonSingleton"
  | random sensitive => "Random(dup_sensitive: " ++ toString sensitive ++ ")"
  | strictRandom => "StrictRandom"
  | hashed cols _ _ => "Hashed" ++ Column.listText cols
  | strictHashed cols _ => "StrictHashed" ++ Column.listText cols

/-- Whether moving rows can bring the distribution about: it asks for something, and if it
hashes, it has columns to hash. -/
def isMovable : Distribution → Bool
  | any => false
  | hashed cols _ _ | strictHashed cols _ => !cols.isEmpty
  | _ => true

end Distribution

/-! ### Motions -/

/-- How a motion moves rows. -/
inductive MotionKind where
  /-- All rows to one segment. -/
  | gather
  /-- All rows to every segment. -/
  | broadcast
  /-- Each row to the segment that its values decide. -/
  | redistribute (cols : List Column)
  /-- Rows spread without any rule. -/
  | random
  deriving BEq, Repr

/-- The text of a kind of motion. -/
def MotionKind.toText : MotionKind → String
  | gather => "Gather"
  | broadcast => "Broadcast"
  | redistribute cols => "Redistribute(" ++ Column.listText cols ++ ")"
  | random => "Random"

/-- A movement of rows that ends in a distribution. -/
structure Motion where
  target : Distribution
  movable : target.isMovable = true

namespace Motion

instance : BEq Motion := ⟨fun m n => m.target == n.target⟩

/-- The motion that ends in a distribution, if there is one. -/
def toward? (target : Distribution) : Option Motion :=
  if h : target.isMovable then some ⟨target, h⟩ else none

/-- How the motion moves rows. -/
def kind (m : Motion) : MotionKind :=
  match m.target with
  | .singleton | .any => .gather
  | .replicated => .broadcast
  | .hashed cols _ _ | .strictHashed cols _ => .redistribute cols
  | .nonSingleton | .random _ | .strictRandom => .random

end Motion

end QueryOptimizer
