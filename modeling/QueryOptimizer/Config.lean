import QueryOptimizer.Statistics.Bucket

/-!
# Configuration

The tunables of the optimizer, and the switches that turn search features off or
ask for reports.
-/

namespace QueryOptimizer

/-- The tunables of the optimizer. -/
structure Config (K : Type) where
  /-- Number of segments that data is spread over. -/
  segments : Nat
  /-- Row count assumed for tables without statistics. -/
  defaultRows : K
  /-- Whether the combined selectivity of several predicates is dampened. -/
  joinDamping : Bool
  /-- Whether anti joins keep the histograms of their left input as they are. -/
  skipAntiJoinHistograms : Bool
  deriving Repr

namespace Config

/-- The configuration that is used unless another one is given. -/
def default {K : Type} [Quantity K] : Config K :=
  ⟨3, Estimate.defaultRows, true, false⟩

end Config

/-- The diagnostic switches, all off by default. -/
structure TraceFlags where
  disableMotions : Bool := false
  disableMotionRandom : Bool := false
  disableMotionBroadcast : Bool := false
  reportMemo : Bool := false
  reportStages : Bool := false
  deriving DecidableEq, Repr

/-- The switches with these names are on. -/
def TraceFlags.ofNames (names : List String) : TraceFlags where
  disableMotions := names.contains "DisableMotions"
  disableMotionRandom := names.contains "DisableMotionRandom"
  disableMotionBroadcast := names.contains "DisableMotionBroadcast"
  reportMemo := names.contains "PrintMemoAfterOptimization"
  reportStages := names.contains "PrintOptimizationStages"

end QueryOptimizer
