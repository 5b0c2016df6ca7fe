import BlockScript.Decimal.Shortest

/-!
# How doubles are written

A style says whether a whole number keeps a zero after the point, and for which numbers an exponent
is used.  A whole number can also be written with all of its digits.
-/

namespace BlockScript.Decimal

structure Style where
  /-- Whether `.0` is written behind a whole number. -/
  keepsZero : Bool
  /-- The least and the greatest power of ten that are written without an exponent. -/
  positional : Option (Int × Int)

/-- Never an exponent, and no point in a whole number. -/
def Style.plain : Style := ⟨false, none⟩

/-- An exponent below `10 ^ -4` and from `10 ^ 16` on, and always a sign of being no integer. -/
def Style.precise : Style := ⟨true, some (-4, 15)⟩

def zeros (count : Int) : List Char :=
  List.replicate count.toNat '0'

/-- Digits with a point among them. -/
def Digits.positional (keepsZero : Bool) (d : Digits) : List Char :=
  let count : Int := d.digits.length
  if d.point ≤ 0 then
    ['0', '.'] ++ zeros (-d.point) ++ d.digits
  else if count ≤ d.point then
    d.digits ++ zeros (d.point - count) ++ (if keepsZero then ['.', '0'] else [])
  else
    d.digits.take d.point.toNat ++ '.' :: d.digits.drop d.point.toNat

/-- One digit before the point, and an exponent. -/
def Digits.scientific (d : Digits) : List Char :=
  let fraction := d.digits.drop 1
  d.digits.take 1 ++ (if fraction.isEmpty then [] else '.' :: fraction) ++
    'e' :: (toString (d.point - 1)).toList

def Style.write (style : Style) (d : Digits) : List Char :=
  match style.positional with
  | none => d.positional style.keepsZero
  | some (least, greatest) =>
    if least ≤ d.point - 1 ∧ d.point - 1 ≤ greatest then d.positional style.keepsZero
    else d.scientific

def signed (negative : Bool) (text : List Char) : String :=
  String.ofList (if negative then '-' :: text else text)

/-- A double in a style, with the fewest digits that read back. -/
def Style.text (style : Style) (x : Float) : String :=
  match decode x with
  | .nan => "NaN"
  | .infinite negative => signed negative "inf".toList
  | .finite negative m e =>
    if m = 0 then signed negative ('0' :: if style.keepsZero then ['.', '0'] else [])
    else signed negative (style.write (shortest m e))

/-- A whole number with all of its digits, any other one with as few as read back. -/
def exactText (x : Float) : String :=
  match decode x with
  | .finite negative m e =>
    if isWhole x then
      let whole := m * Nat.pow 2 e.toNat / Nat.pow 2 (-e).toNat
      signed negative (Nat.toDigits 10 whole ++ ['.', '0'])
    else Style.plain.text x
  | _ => Style.plain.text x

end BlockScript.Decimal
