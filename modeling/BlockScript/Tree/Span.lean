import BlockScript.Text.Position

/-!
# Spans of source text

Every node of a syntax tree knows the bytes it was read from.  A span that comes from a whole match
also knows the lines and columns of its ends; one that is put together from the spans of operands
does not.
-/

namespace BlockScript

structure LineColumn where
  line : Nat
  column : Nat
  deriving DecidableEq, Repr, Inhabited

structure Span where
  /-- The offset of the first byte. -/
  start : Nat
  /-- The offset after the last byte. -/
  stop : Nat
  /-- The lines and columns of both ends, where they are known. -/
  ends : Option (LineColumn × LineColumn) := none
  deriving DecidableEq, Repr, Inhabited

namespace Span

/-- The number of bytes covered. -/
def length (s : Span) : Nat := s.stop - s.start

def isEmpty (s : Span) : Bool := s.length == 0

/-- The span between two positions of a text. -/
def between (first last : Position) : Span where
  start := first.offset
  stop := last.offset
  ends := some (⟨first.line, first.column⟩, ⟨last.line, last.column⟩)

end Span

/-- A run of bytes that a message points at. -/
structure Region where
  offset : Nat
  length : Nat
  deriving DecidableEq, Repr, Inhabited

/-- The bytes of a span, none where it ends before it starts. -/
def Span.region (s : Span) : Region := ⟨s.start, s.length⟩

end BlockScript
