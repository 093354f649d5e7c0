import QueryOptimizer.Number.Binary

/-!
# Reading decimal text

Numbers are written in decimal digits with an optional sign, point and power of ten; infinity
and the value that is no number are written as words, in any case of letters.
`Number.ofText?` reads them and rounds to the nearest 64-bit floating-point word;
`Number.integer?` reads whole numbers.
-/

namespace QueryOptimizer.Number

/-- Splits a sign off: whether it is a minus, and what follows it. -/
def splitSign : List Char → Bool × List Char
  | '-' :: rest => (true, rest)
  | '+' :: rest => (false, rest)
  | cs => (false, cs)

/-- The digits at the start of a text, and what follows them. -/
def splitDigits (cs : List Char) : List Char × List Char :=
  (cs.takeWhile Char.isDigit, cs.dropWhile Char.isDigit)

/-- The number that decimal digits stand for. -/
def ofDigits (digits : List Char) : Nat :=
  digits.foldl (fun n c => 10 * n + (c.toNat - '0'.toNat)) 0

/-- A whole number, `none` for any other text. -/
def integer? (s : String) : Option Int :=
  let (negative, cs) := splitSign s.toList
  if cs.isEmpty || !cs.all Char.isDigit then none
  else some (if negative then -(ofDigits cs : Int) else ofDigits cs)

/-- The power of ten at the end of a number: `e` and a whole number, or nothing. -/
def powerSuffix? : List Char → Option Int
  | [] => some 0
  | c :: rest => if c = 'e' ∨ c = 'E' then integer? (String.ofList rest) else none

/-- A sequence of digits with at most one point in it, and a power of ten. -/
def unsigned? (negative : Bool) (cs : List Char) : Option UInt64 := do
  let (whole, rest) := splitDigits cs
  let (places, rest) :=
    match rest with
    | '.' :: rest => splitDigits rest
    | rest => ([], rest)
  let power ← powerSuffix? rest
  if whole.isEmpty && places.isEmpty then none
  else some (ofDecimal negative (ofDigits (whole ++ places)) (power - places.length))

/-- The word nearest to the number that is written. The sign of a value that is no number is
kept. -/
def ofText? (s : String) : Option UInt64 :=
  let (negative, cs) := splitSign s.toList
  let word := (String.ofList cs).toLower
  if word == "nan" then some (binary64.encode (.nan negative)).toUInt64
  else if word == "inf" || word == "infinity" then
    some (binary64.encode (.infinite negative)).toUInt64
  else unsigned? negative cs

end QueryOptimizer.Number
