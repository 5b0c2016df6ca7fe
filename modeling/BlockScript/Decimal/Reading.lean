/-!
# Numbers written in decimal

Digits are read exactly.  A decimal fraction becomes the nearest double, and of two that are equally
near the one with the even mantissa; past the largest finite double it becomes an infinity.
-/

namespace BlockScript.Decimal

/-- The value of a digit. -/
def digitValue (c : Char) : Nat :=
  c.toNat - '0'.toNat

/-- The number that a row of digits writes. -/
def natOfDigits (digits : List Char) : Nat :=
  digits.foldl (fun n c => 10 * n + digitValue c) 0

/-- The double nearest to `m * 10 ^ e`.  Numbers of more than 310 digits before the point are past
every finite double, and those with more than 330 zeros after it are next to zero. -/
def nearest (m : Nat) (e : Int) : Float :=
  let magnitude := (Nat.toDigits 10 m).length + e
  if m = 0 ∨ magnitude < -330 then 0.0
  else if 310 < magnitude then 1.0 / 0.0
  else Float.ofScientific m (e < 0) e.natAbs

/-- The exponent that a number ends with, zero if it has none. -/
def exponentOf : List Char → Int
  | [] => 0
  | _ :: '-' :: digits => -(natOfDigits digits : Int)
  | _ :: '+' :: digits => natOfDigits digits
  | _ :: digits => natOfDigits digits

/-- Reads a number with a decimal point or an exponent. -/
def floatOfText (text : List Char) : Float :=
  let whole := text.takeWhile Char.isDigit
  let rest := text.dropWhile Char.isDigit
  let (fraction, rest) :=
    match rest with
    | '.' :: rest => (rest.takeWhile Char.isDigit, rest.dropWhile Char.isDigit)
    | rest => ([], rest)
  nearest (natOfDigits (whole ++ fraction)) (exponentOf rest - fraction.length)

end BlockScript.Decimal
