import BlockScript.Text.Printable

/-!
# Texts shown with escapes

A text is shown between quotes so that it can be told what is in it: quotes, backslashes and the
common control characters have short escapes, and any other character that cannot be seen on its own
is shown by its code point.
-/

namespace BlockScript.Escaped

/-- The digits of a code point. -/
def codePoint (c : Char) : List Char :=
  ['\\', 'u', '\x7b'] ++ Nat.toDigits 16 c.toNat ++ ['\x7d']

def charText (c : Char) : List Char :=
  if c = '"' then ['\\', '"']
  else if c = '\\' then ['\\', '\\']
  else if c = '\n' then ['\\', 'n']
  else if c = '\r' then ['\\', 'r']
  else if c = '\t' then ['\\', 't']
  else if c = '\x00' then ['\\', '0']
  else if isPrintable c then [c]
  else codePoint c

def text (s : String) : String :=
  String.ofList ('"' :: s.toList.flatMap charText ++ ['"'])

end BlockScript.Escaped
