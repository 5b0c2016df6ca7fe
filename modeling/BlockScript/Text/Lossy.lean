/-!
# Bytes as text

Bytes are read as UTF-8.  Where they are not, a replacement character stands for each longest
beginning of a character that is not completed.
-/

namespace BlockScript.Lossy

def replacement : Char := Char.ofNat 0xFFFD

/-- Whether a byte continues a character. -/
def isContinuation (b : UInt8) : Bool :=
  0x80 ≤ b && b ≤ 0xBF

/-- The length of the character that a byte begins, and the range of the byte after it. -/
def lead? (b : UInt8) : Option (Nat × UInt8 × UInt8) :=
  if 0xC2 ≤ b && b ≤ 0xDF then some (2, 0x80, 0xBF)
  else if b = 0xE0 then some (3, 0xA0, 0xBF)
  else if b = 0xED then some (3, 0x80, 0x9F)
  else if 0xE1 ≤ b && b ≤ 0xEF then some (3, 0x80, 0xBF)
  else if b = 0xF0 then some (4, 0x90, 0xBF)
  else if 0xF1 ≤ b && b ≤ 0xF3 then some (4, 0x80, 0xBF)
  else if b = 0xF4 then some (4, 0x80, 0x8F)
  else none

/-- The bits that the first byte of a character of a length contributes. -/
def leadBits (length : Nat) (b : UInt8) : Nat :=
  if length = 2 then b.toNat % 32 else if length = 3 then b.toNat % 16 else b.toNat % 8

/-- The bytes of a character, all but the first, as far as they are there. -/
def tail (length : Nat) (low high : UInt8) : List UInt8 → List UInt8
  | second :: rest =>
    if low ≤ second && second ≤ high then
      second :: (rest.take (length - 2)).takeWhile isContinuation
    else []
  | [] => []

/-- The first character of non-empty bytes, and how many bytes it takes after the first. -/
def next (first : UInt8) (rest : List UInt8) : Char × Nat :=
  if first < 0x80 then (Char.ofNat first.toNat, 0)
  else
    match lead? first with
    | none => (replacement, 0)
    | some (length, low, high) =>
      let more := tail length low high rest
      if more.length + 1 = length then
        (Char.ofNat (more.foldl (fun n b => n * 64 + b.toNat % 64) (leadBits length first)),
          more.length)
      else
        (replacement, more.length)

/-- The characters of bytes, skipping the first `taken` ones. -/
def charsFrom : Nat → List UInt8 → List Char
  | _, [] => []
  | 0, first :: rest =>
    let (c, taken) := next first rest
    c :: charsFrom taken rest
  | taken + 1, _ :: rest => charsFrom taken rest

def chars (bytes : List UInt8) : List Char :=
  charsFrom 0 bytes

def decode (bytes : List UInt8) : String :=
  String.ofList (chars bytes)

end BlockScript.Lossy
