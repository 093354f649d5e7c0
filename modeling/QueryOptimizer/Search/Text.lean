import QueryOptimizer.Search.Stage
import QueryOptimizer.Statistics.Text

/-!
# Text of a search stage

The limits of a stage and the cost it reached, as they appear in reports. A time is written in
the largest of the units s, ms, µs and ns of which it holds a whole one.
-/

namespace QueryOptimizer

namespace Duration

/-- The text of `n` parts, of which ten to the given power make a whole, without zeros at
the end. -/
def parts : Nat → Nat → String
  | 0, n => toString n
  | places + 1, n =>
    if n % 10 = 0 then parts places (n / 10) else Number.placePoint (places + 1) n

/-- The text of a time in nanoseconds: `5s`, `1.5ms`. -/
def toText (nanoseconds : Nat) : String :=
  if Nat.pow 10 9 ≤ nanoseconds then parts 9 nanoseconds ++ "s"
  else if Nat.pow 10 6 ≤ nanoseconds then parts 6 nanoseconds ++ "ms"
  else if Nat.pow 10 3 ≤ nanoseconds then parts 3 nanoseconds ++ "µs"
  else parts 0 nanoseconds ++ "ns"

end Duration

namespace Stage

/-- The text of an optional cost. -/
def costText (cost : Option Binary64) : String :=
  Text.option (cost.map fun c => "Cost(" ++ c.toText ++ ")")

/-- The texts of the time limit, the cost limit and the best cost of a stage. -/
def limitTexts (s : Stage Binary64) : String × String × String :=
  (Text.option (s.timeLimit.map Duration.toText), costText s.costLimit,
    costText (s.best.map (·.2)))

end Stage

end QueryOptimizer
