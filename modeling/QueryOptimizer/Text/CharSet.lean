/-!
# Sets of characters

A `CharSet` holds its characters as a table of ranges of code points. The ranges rise and lie
apart, so a look-up ends at the first range that does not lie below the character.

The sets of this library are properties of characters as Unicode 17.0 gives them.

* `CharSet.contains_iff`: a character is in the set exactly if one of the ranges holds it.
-/

namespace QueryOptimizer.Text

/-- Whether ranges rise and lie apart, none of them starting below `least`. -/
def risingFrom (least : Nat) : List (Nat × Nat) → Bool
  | [] => true
  | (first, last) :: ranges => least ≤ first && first ≤ last && risingFrom (last + 2) ranges

/-- Whether a number lies in one of the ranges, which must rise. -/
def inRising (n : Nat) : List (Nat × Nat) → Bool
  | [] => false
  | (first, last) :: ranges => if n ≤ last then first ≤ n else inRising n ranges

/-- A set of characters: ranges of code points, first and last included. -/
structure CharSet where
  ranges : List (Nat × Nat)
  rising : risingFrom 0 ranges = true := by decide +kernel

/-- Whether a set contains a character. -/
def CharSet.contains (s : CharSet) (c : Char) : Bool :=
  inRising c.toNat s.ranges

/-- Ranges that rise from a number on begin at it or behind it. -/
theorem least_le_of_risingFrom {least : Nat} {ranges : List (Nat × Nat)}
    (rising : risingFrom least ranges = true) {r : Nat × Nat} (mem : r ∈ ranges) :
    least ≤ r.1 := by
  induction ranges generalizing least with
  | nil => cases mem
  | cons head ranges ih =>
    simp only [risingFrom, Bool.and_eq_true, decide_eq_true_eq] at rising
    rcases List.mem_cons.1 mem with rfl | mem
    · exact rising.1.1
    · have := ih rising.2 mem
      omega

/-- In rising ranges a number is found by the search for it, which stops at the
first range behind it. -/
theorem inRising_iff {least n : Nat} {ranges : List (Nat × Nat)}
    (rising : risingFrom least ranges = true) :
    inRising n ranges = true ↔ ∃ r ∈ ranges, r.1 ≤ n ∧ n ≤ r.2 := by
  induction ranges generalizing least with
  | nil => simp [inRising]
  | cons head ranges ih =>
    obtain ⟨first, last⟩ := head
    simp only [risingFrom, Bool.and_eq_true, decide_eq_true_eq] at rising
    by_cases reached : n ≤ last
    · simp only [inRising, reached, if_true, decide_eq_true_eq, List.mem_cons]
      refine ⟨fun h => ⟨_, .inl rfl, h, reached⟩, ?_⟩
      rintro ⟨r, rfl | mem, start, _⟩
      · exact start
      · have := least_le_of_risingFrom rising.2 mem
        omega
    · simp only [inRising, reached, if_false, ih rising.2, List.mem_cons]
      refine ⟨fun ⟨r, mem, h⟩ => ⟨r, .inr mem, h⟩, ?_⟩
      rintro ⟨r, rfl | mem, start, stop⟩
      · exact absurd stop reached
      · exact ⟨r, mem, start, stop⟩

/-- A character is in a set exactly if one of the ranges of the set holds its code point. -/
theorem CharSet.contains_iff (s : CharSet) (c : Char) :
    s.contains c = true ↔ ∃ r ∈ s.ranges, r.1 ≤ c.toNat ∧ c.toNat ≤ r.2 :=
  inRising_iff s.rising

end QueryOptimizer.Text
