/-!
# Doubles as scaled integers

A finite double is an integer times a power of two.  Printing and the remainder work on that exact
form.
-/

namespace BlockScript.Decimal

inductive Decoded where
  | nan
  | infinite (negative : Bool)
  /-- The number of absolute value `mantissa * 2 ^ exponent`. -/
  | finite (negative : Bool) (mantissa : Nat) (exponent : Int)
  deriving DecidableEq, Repr, Inhabited

/-- The least exponent of a double. -/
def leastExponent : Int := -1074

def decode (x : Float) : Decoded :=
  let bits := x.toBits.toNat
  let negative := bits / Nat.pow 2 63 == 1
  let biased : Nat := bits / Nat.pow 2 52 % Nat.pow 2 11
  let fraction : Nat := bits % Nat.pow 2 52
  if biased = 2047 then
    if fraction = 0 then .infinite negative else .nan
  else if biased = 0 then
    .finite negative fraction leastExponent
  else
    .finite negative (Nat.pow 2 52 + fraction) (leastExponent + biased - 1)

/-- The double `mantissa * 2 ^ exponent`, for a number that is one. -/
def encode (negative : Bool) (mantissa : Nat) (exponent : Int) : Float :=
  let sign := if negative then Nat.pow 2 63 else 0
  if mantissa = 0 then
    Float.ofBits (UInt64.ofNat sign)
  else
    let scale := max leastExponent (exponent + Nat.log2 mantissa - 52)
    let scaled := mantissa * Nat.pow 2 (exponent - scale).toNat / Nat.pow 2 (scale - exponent).toNat
    if scaled < Nat.pow 2 52 then
      Float.ofBits (UInt64.ofNat (sign + scaled))
    else
      let biased := (scale - leastExponent).toNat + 1
      Float.ofBits (UInt64.ofNat (sign + biased * Nat.pow 2 52 + (scaled - Nat.pow 2 52)))

def notANumber : Float := 0.0 / 0.0

/-- The remainder of the truncating division, which has the sign of `a` and is exact. -/
def remainder (a b : Float) : Float :=
  match decode a, decode b with
  | .finite negative m e, .finite _ n f =>
    if n = 0 then notANumber
    else
      let scale := min e f
      encode negative (m * Nat.pow 2 (e - scale).toNat % (n * Nat.pow 2 (f - scale).toNat)) scale
  | .finite _ _ _, .infinite _ => a
  | _, _ => notANumber

/-- Whether a double is finite and has no fractional part. -/
def isWhole (x : Float) : Bool :=
  match decode x with
  | .finite _ m e => m % Nat.pow 2 (-e).toNat == 0
  | _ => false

end BlockScript.Decimal
