import BlockScript.Tree.Operator
import BlockScript.Tree.Span

/-!
# Expressions
-/

namespace BlockScript

structure Identifier where
  name : String
  span : Span
  deriving DecidableEq, Repr, Inhabited

inductive Expr where
  | integer (value : Int64) (span : Span)
  | float (value : Float) (span : Span)
  /-- A string as it is written, with its quotes. -/
  | string (token : String) (span : Span)
  | boolean (value : Bool) (span : Span)
  | nil (span : Span)
  | name (id : Identifier)
  /-- An expression in parentheses. -/
  | group (inner : Expr) (span : Span)
  | unary (op : UnaryOp) (operand : Expr) (span : Span)
  | binary (op : BinaryOp) (left right : Expr) (span : Span)
  /-- A variable stepped by one. -/
  | step (direction : Direction) (fixity : Fixity) (target : Identifier) (span : Span)
  /-- A variable updated with the value of an expression. -/
  | update (op : UpdateOp) (target : Identifier) (value : Expr) (span : Span)
  deriving Repr, Inhabited

namespace Expr

def span : Expr → Span
  | .integer _ span => span
  | .float _ span => span
  | .string _ span => span
  | .boolean _ span => span
  | .nil span => span
  | .name id => id.span
  | .group _ span => span
  | .unary _ _ span => span
  | .binary _ _ _ span => span
  | .step _ _ _ span => span
  | .update _ _ _ span => span

end Expr

/-- A step as it is written. -/
def stepText (direction : Direction) (fixity : Fixity) (target : Identifier) : String :=
  match fixity with
  | .before => direction.symbol ++ target.name
  | .after => target.name ++ direction.symbol

end BlockScript
