import QueryOptimizer.Statistics.Basic

/-!
# Text of statistics

Buckets, histograms and statistics with floating-point estimates as they appear in reports. A
bucket shows its frequency with four places and its number of values with one; all other
numbers are written with the fewest digits that read back.
-/

namespace QueryOptimizer

/-- The text of a bucket: its ends in brackets, its frequency and its number of values. -/
def Bucket.toText (b : Bucket Binary64) : String :=
  (if b.lowerClosed then "[" else "(") ++ b.lower.toText ++ ", " ++ b.upper.toText ++
    (if b.upperClosed then "]" else ")") ++ " freq=" ++ b.frequency.fixed 4 ++ " ndv=" ++
    b.distinct.fixed 1

/-- The text of a histogram. -/
def Histogram.toText (h : Histogram Binary64) : String :=
  if h.wellDefined then
    Text.record "Histogram" [
      ("buckets", Text.list (h.buckets.map Bucket.toText)),
      ("null_freq", h.nullFreq.toText),
      ("distinct_remaining", h.distinctRemaining.toText),
      ("freq_remaining", h.freqRemaining.toText)]
  else "Histogram(undefined)"

/-- The text of a bound on the number of different values. -/
def NdvBound.toText (u : NdvBound Binary64) : String :=
  Text.record "UpperBoundNdvs" [
    ("cols", u.cols.toText), ("upper_bound", u.bound.toText)]

/-- The text of statistics. Widths are left out. -/
def Statistics.toText (s : Statistics Binary64) : String :=
  Text.record "Statistics" [
    ("rows", s.rows.toText), ("empty", toString s.isEmpty),
    ("histograms", Text.braced (s.histograms.entries.map fun (id, h) =>
      toString id ++ ": " ++ h.toText)),
    ("upper_bound_ndvs", Text.list (s.ndvBounds.map NdvBound.toText))]

end QueryOptimizer
