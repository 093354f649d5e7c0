import QueryOptimizer.Number.Binary

/-!
# Decimal text of floating-point numbers

Three ways of writing a floating-point word in decimal digits:

* `shortest`: the fewest digits that read back as the same word, of these the nearest;
* `fixed`: a given number of digits after the point;
* `scientific`: a given number of digits after the point of a power-of-ten notation.

The last two round the exact binary value, a tie going to the even digit. The digits come from
exact arithmetic on the decoded word; which digits are written where is decided by the small
functions at the end.
-/

namespace QueryOptimizer.Number

/-- A decimal number `digits · 10 ^ exponent`. -/
structure Decimal where
  digits : Nat
  exponent : Int
  deriving DecidableEq, Repr

/-! ### Digits of a binary value -/

/-- A binary value `mantissa · 2 ^ exponent` as a ratio of natural numbers. -/
def ratio (mantissa : Nat) (exponent : Int) : Nat × Nat :=
  if 0 ≤ exponent then (mantissa * Nat.pow 2 exponent.natAbs, 1)
    else (mantissa, Nat.pow 2 exponent.natAbs)

/-- A ratio scaled by a power of ten. -/
def scaleTen (num den : Nat) (power : Int) : Nat × Nat :=
  if 0 ≤ power then (num * Nat.pow 10 power.natAbs, den)
    else (num, den * Nat.pow 10 power.natAbs)

/-- Twice the distance to the next lower and to the next higher word, in units of
`2 ^ (exponent - 2)`. Below a power of two the words are twice as dense, except at the
bottom of the format. -/
def neighbourGaps (f : Format) (mantissa : Nat) (exponent : Int) : Nat × Nat :=
  if mantissa = Nat.pow 2 f.mantissaBits ∧ f.minExponent < exponent then (1, 2) else (2, 2)

/-- Whether the multiple `n` of `10 ^ power` reads back as the word with this mantissa and
exponent: it lies between the midpoints to the neighbouring words, where a midpoint itself
reads back as the word with the even mantissa. -/
def readsBack (f : Format) (mantissa : Nat) (exponent : Int) (n : Nat) (power : Int) : Bool :=
  let (below, above) := neighbourGaps f mantissa exponent
  let (num, den) := ratio 1 (exponent - 2)
  let (num, den) := scaleTen num den (-power)
  -- now the word's value is `4 * mantissa * num / den` in units of `10 ^ power`
  let low := (4 * mantissa - below) * num
  let high := (4 * mantissa + above) * num
  if mantissa % 2 = 0 then low ≤ n * den ∧ n * den ≤ high
  else low < n * den ∧ n * den < high

/-- The multiple of `10 ^ power` that reads back as the word and is nearest to it, the larger
one when two are equally near. -/
def onGrid? (f : Format) (mantissa : Nat) (exponent : Int) (power : Int) : Option Nat :=
  let (num, den) := ratio mantissa exponent
  let (num, den) := scaleTen num den (-power)
  let n := num / den
  let down := readsBack f mantissa exponent n power
  let up := readsBack f mantissa exponent (n + 1) power
  if up && (!down || den ≤ 2 * (num % den)) then some (n + 1)
  else if down then some n
  else none

/-- The first hit on the grids `10 ^ power`, `10 ^ (power - 1)`, …, of which `count` are
tried. -/
def firstOnGrid (f : Format) (mantissa : Nat) (exponent : Int) : Nat → Int → Decimal
  | 0, power =>
    let (num, den) := ratio mantissa exponent
    let (num, den) := scaleTen num den (-power)
    ⟨roundDiv num den, power⟩
  | count + 1, power =>
    match onGrid? f mantissa exponent power with
    | some n => ⟨n, power⟩
    | none => firstOnGrid f mantissa exponent count (power - 1)

/-- The power of ten just below or at a positive ratio. -/
def floorLog10 (num den : Nat) : Int :=
  -- the decimal length of a number is one more than its floor logarithm
  let guess : Int := ((Nat.toDigits 10 num).length : Int) - (Nat.toDigits 10 den).length
  let (n, d) := scaleTen num den (-guess)
  if d ≤ n then guess else guess - 1

/-- The fewest decimal digits that read back as the positive word with this mantissa and
exponent. -/
def shortestDigits (f : Format) (mantissa : Nat) (exponent : Int) : Decimal :=
  let (num, den) := ratio mantissa exponent
  firstOnGrid f mantissa exponent 20 (floorLog10 num den + 1)

/-- The value rounded to a multiple of `10 ^ power`. -/
def digitsAt (mantissa : Nat) (exponent : Int) (power : Int) : Nat :=
  let (num, den) := ratio mantissa exponent
  let (num, den) := scaleTen num den (-power)
  roundDiv num den

/-! ### Layout -/

/-- The digits of a number, filled up with leading zeros to a given width. -/
def padLeft (width : Nat) (n : Nat) : String :=
  let digits := toString n
  String.ofList (List.replicate (width - digits.length) '0') ++ digits

/-- A number of hundredths, thousandths and so on, with `places` digits after the point. -/
def placePoint (places : Nat) (n : Nat) : String :=
  if places = 0 then toString n
  else toString (n / Nat.pow 10 places) ++ "." ++ padLeft places (n % Nat.pow 10 places)

/-- A decimal number without an exponent. -/
def Decimal.positional (d : Decimal) : String :=
  if 0 ≤ d.exponent then toString (d.digits * Nat.pow 10 d.exponent.natAbs)
  else placePoint d.exponent.natAbs d.digits

/-- A decimal number as one digit, the rest after the point, and a power of ten. -/
def Decimal.powerForm (d : Decimal) : String :=
  match (toString d.digits).toList with
  | [] => ""
  | lead :: rest =>
    let point := if rest.isEmpty then "" else "." ++ String.ofList rest
    lead.toString ++ point ++ "e" ++ toString (d.exponent + rest.length)

/-- Puts a minus sign in front of a negative number. -/
def withSign (negative : Bool) (text : String) : String :=
  if negative then "-" ++ text else text

/-! ### Texts of a value -/

/-- The shortest text without an exponent: `3`, `0.0000001`, `-0`, `NaN`, `inf`. -/
def shortest (f : Format) (word : Nat) : String :=
  match f.decode word with
  | .nan _ => "NaN"
  | .infinite negative => withSign negative "inf"
  | .finite negative 0 _ => withSign negative "0"
  | .finite negative mantissa exponent =>
    withSign negative (shortestDigits f mantissa exponent).positional

/-- Whether a positive value is written with a power of ten in `shortestPointed`: below one
ten-thousandth and from `10 ^ 16` on. -/
def outsidePointed (mantissa : Nat) (exponent : Int) : Bool :=
  let (num, den) := ratio mantissa exponent
  num * 10000 < den || den * Nat.pow 10 16 ≤ num

/-- The shortest text that always shows a number to be fractional: `3.0`, `0.25`, and a power
of ten for very small and very large values: `1e-7`, `1.5e16`. -/
def shortestPointed (f : Format) (word : Nat) : String :=
  match f.decode word with
  | .nan _ => "NaN"
  | .infinite negative => withSign negative "inf"
  | .finite negative 0 _ => withSign negative "0.0"
  | .finite negative mantissa exponent =>
    let d := shortestDigits f mantissa exponent
    withSign negative <|
      if outsidePointed mantissa exponent then d.powerForm
      else if 0 ≤ d.exponent then d.positional ++ ".0"
      else d.positional

/-- The text with exactly `places` digits after the point. Zero keeps its sign. -/
def fixed (f : Format) (places : Nat) (word : Nat) : String :=
  match f.decode word with
  | .nan _ => "NaN"
  | .infinite negative => withSign negative "inf"
  | .finite negative mantissa exponent =>
    withSign negative (placePoint places (digitsAt mantissa exponent (-places)))

/-- The text with one digit before the point, `places` after it, and a power of ten. Both zeros
are written without a sign, and the three values that are no numbers as `nan`, `inf` and
`-inf`. -/
def scientific (f : Format) (places : Nat) (word : Nat) : String :=
  match f.decode word with
  | .nan _ => "nan"
  | .infinite negative => withSign negative "inf"
  | .finite _ 0 _ => placePoint places 0 ++ "e0"
  | .finite negative mantissa exponent =>
    let (num, den) := ratio mantissa exponent
    let lead := floorLog10 num den
    let digits := digitsAt mantissa exponent (lead - places)
    -- rounding up may have reached the next power of ten
    let (digits, lead) :=
      if digits = Nat.pow 10 (places + 1) then (Nat.pow 10 places, lead + 1)
        else (digits, lead)
    withSign negative (placePoint places digits) ++ "e" ++ toString lead

end QueryOptimizer.Number
