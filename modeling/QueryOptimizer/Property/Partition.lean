import QueryOptimizer.Column.Renaming

/-!
# Partitioned scans

Which scans of partitioned tables lie below an operator, each identified by its scan id.
-/

namespace QueryOptimizer

/-- A scan of a partitioned table and the columns it is partitioned by. -/
structure PartitionedScan where
  scan : Nat
  table : Nat
  keys : List Column
  deriving BEq, Repr

/-- The partitioned scans below an operator. -/
structure PartitionInfo where
  scans : List PartitionedScan := []
  deriving BEq, Repr

namespace PartitionInfo

/-- Whether a scan is listed. -/
def contains (p : PartitionInfo) (scan : Nat) : Bool :=
  p.scans.any (·.scan == scan)

/-- Lists a scan, unless one with its id is listed already. -/
def add (p : PartitionInfo) (s : PartitionedScan) : PartitionInfo :=
  if p.contains s.scan then p else ⟨p.scans ++ [s]⟩

/-- The scans of both. -/
def combine (p q : PartitionInfo) : PartitionInfo :=
  q.scans.foldl add p

/-- The scans with their columns replaced. -/
def substitute (map : ColumnMap) (p : PartitionInfo) : PartitionInfo :=
  ⟨p.scans.map fun s => { s with keys := s.keys.map map.substitute }⟩

end PartitionInfo

end QueryOptimizer
