import BlockScript.Tree.Expr

/-!
# Chains of operands and operators

An expression is read as a flat chain.  Operators of one level group to the left; an operator that
binds tighter than the last ones takes its left operand from the right edge of the tree so far.
-/

namespace BlockScript

/-- One link of a chain. -/
inductive Item where
  /-- An operator before its operand, and the offset where it stands. -/
  | leading (op : UnaryOp) (start : Nat)
  | operand (value : Expr)
  | infixed (op : BinaryOp)
  deriving Repr, Inhabited

namespace Expr

/-- A binary operation that covers its operands. -/
def joined (op : BinaryOp) (left right : Expr) : Expr :=
  .binary op left right ⟨left.span.start, right.span.stop, none⟩

/-- Continues a chain that has been read as `left` with an operator and its right operand. -/
def extend : Expr → BinaryOp → Expr → Expr
  | .binary last a b span, op, right =>
    if last.precedence < op.precedence then
      joined last a (b.extend op right)
    else
      joined op (.binary last a b span) right
  | left, op, right => joined op left right

/-- Applies the operators before an operand, of which the innermost comes first. -/
def applied (leading : List (UnaryOp × Nat)) (value : Expr) : Expr :=
  leading.foldl (fun e (op, start) => .unary op e ⟨start, e.span.stop, none⟩) value

/-- Continues what has been read so far, if anything, with an operand. -/
def attach (left : Option (Expr × BinaryOp)) (right : Expr) : Expr :=
  match left with
  | none => right
  | some (left, op) => left.extend op right

/-- Reads a chain after `left`, with the operators `leading` waiting for their operand. -/
def ofItemsFrom (left : Option (Expr × BinaryOp)) (leading : List (UnaryOp × Nat)) :
    List Item → Option Expr
  | .leading op start :: rest => ofItemsFrom left ((op, start) :: leading) rest
  | [.operand value] => some (attach left (applied leading value))
  | .operand value :: .infixed op :: rest =>
    ofItemsFrom (some (attach left (applied leading value), op)) [] rest
  | _ => none

/-- The expression that a chain denotes; none if it is not operands with operators between them. -/
def ofItems? (items : List Item) : Option Expr :=
  ofItemsFrom none [] items

end Expr

end BlockScript
