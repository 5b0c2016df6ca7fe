import BlockScript.Tree.Span

/-!
# Diagnostics

What is shown of an error: its message, a code that names its cause, advice, and the places in the
source that it points at.
-/

namespace BlockScript

structure Label where
  text : String
  region : Region
  deriving DecidableEq, Repr, Inhabited

structure Diagnostic where
  message : String
  code : String
  help : Option String
  labels : List Label
  deriving DecidableEq, Repr, Inhabited

end BlockScript
