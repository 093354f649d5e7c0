import QueryOptimizer.Catalog.Basic
import QueryOptimizer.Config

/-!
# Environment

What an optimization sees of the outside world. None of it changes while the optimization runs,
except the time.
-/

namespace QueryOptimizer

/-- What an optimization sees of the outside world. -/
structure Environment (K : Type) where
  catalog : Catalog K
  config : Config K
  flags : TraceFlags := {}
  /-- Whether the host has asked to stop. -/
  isCancelled : Bool := false
  /-- The time that has passed in a stage of the search when so many of its tasks have been
  done, in nanoseconds. -/
  elapsed : Nat → Nat := fun _ => 0

end QueryOptimizer
