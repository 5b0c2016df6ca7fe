/-!
# Blanks

The characters with the property of white space, and the two ways of cutting a text at them.
-/

namespace BlockScript

def isWhiteSpace (c : Char) : Bool :=
  let n := c.toNat
  decide (0x9 ≤ n ∧ n ≤ 0xD) || n == 0x20 || n == 0x85 || n == 0xA0 || n == 0x1680 ||
    decide (0x2000 ≤ n ∧ n ≤ 0x200A) || n == 0x2028 || n == 0x2029 || n == 0x202F || n == 0x205F ||
    n == 0x3000

/-- A text without the blanks at both of its ends. -/
def trimmed (text : List Char) : List Char :=
  ((text.dropWhile isWhiteSpace).reverse.dropWhile isWhiteSpace).reverse

/-- The first word of a text, empty if there is none. -/
def firstWord (text : List Char) : List Char :=
  (text.dropWhile isWhiteSpace).takeWhile fun c => !isWhiteSpace c

end BlockScript
