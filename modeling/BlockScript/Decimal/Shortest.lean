import BlockScript.Decimal.Binary64

/-!
# The fewest digits that read back

Every decimal number in the interval around a double rounds to that double.  The shortest decimal in
it is found on coarser and coarser grids first: of the two neighbours of the double on a grid of
powers of ten, the first grid where one lies in the interval gives the digits, and if both do the
nearer one is taken, the upper one where they are equally near.
-/

namespace BlockScript.Decimal

/-- The number written `0.d₁d₂…` times ten to the power `point`. -/
structure Digits where
  digits : List Char
  point : Int
  deriving DecidableEq, Repr, Inhabited

/-- The interval of the numbers that round to a double, in units of `2 ^ exponent`. -/
structure Interval where
  low : Nat
  middle : Nat
  high : Nat
  exponent : Int
  /-- Whether the two ends belong to it. -/
  closed : Bool

/-- The interval around `mantissa * 2 ^ exponent`.  Below a power of two doubles lie twice as
dense. -/
def interval (mantissa : Nat) (exponent : Int) : Interval :=
  let below := if mantissa = Nat.pow 2 52 ∧ leastExponent < exponent then 1 else 2
  { low := 4 * mantissa - below
    middle := 4 * mantissa
    high := 4 * mantissa + 2
    exponent := exponent - 2
    closed := mantissa % 2 == 0 }

/-- The number `i.middle` in units of `10 ^ scale`, if a neighbour on that grid is in the interval. -/
def Interval.neighbour? (i : Interval) (scale : Int) : Option Nat :=
  let factor := Nat.pow 2 i.exponent.toNat * Nat.pow 10 (-scale).toNat
  let unit := Nat.pow 2 (-i.exponent).toNat * Nat.pow 10 scale.toNat
  let below := i.middle * factor / unit
  let above := below + 1
  let reachesLow :=
    i.low * factor < below * unit || i.closed && i.low * factor == below * unit
  let reachesHigh :=
    above * unit < i.high * factor || i.closed && above * unit == i.high * factor
  let upper := i.middle * factor - below * unit
  if reachesLow && reachesHigh then some (if unit ≤ 2 * upper then above else below)
  else if reachesLow then some below
  else if reachesHigh then some above
  else none

/-- The number of digits before the point, negative for zeros after it. -/
def pointOf (mantissa : Nat) (exponent : Int) : Int :=
  let scaled := mantissa * Nat.pow 10 345 * Nat.pow 2 exponent.toNat / Nat.pow 2 (-exponent).toNat
  (Nat.toDigits 10 scaled).length - 345

/-- The digits of `n * 10 ^ scale` without zeros at the end. -/
def digitsOf (n : Nat) (scale : Int) : Digits :=
  let digits := Nat.toDigits 10 n
  ⟨(digits.reverse.dropWhile (· == '0')).reverse, digits.length + scale⟩

/-- The shortest digits of a positive double; seventeen always suffice. -/
def shortest (mantissa : Nat) (exponent : Int) : Digits :=
  let point := pointOf mantissa exponent
  let found := (List.range 17).findSome? fun (count : Nat) =>
    let scale := point - (count + 1)
    ((interval mantissa exponent).neighbour? scale).map fun n => digitsOf n scale
  found.getD ⟨[], 0⟩

end BlockScript.Decimal
