import BlockScript.Proofs.Machine.Faults

/-!
# Parentheses do not matter for evaluation

A group evaluates its inner expression and places the faults that have no place yet.  There are none
of these: a fault gets its place at the node that raises it, below every group around that node.  So
a tree and the same tree without its groups come to the same value or to the same fault, and leave
the same environment behind.
-/

namespace BlockScript

namespace Expr

/-- The expression with the inner expression in place of every group; the other nodes keep their
spans. -/
def withoutGroups : Expr → Expr
  | .integer value span => .integer value span
  | .float value span => .float value span
  | .string token span => .string token span
  | .boolean value span => .boolean value span
  | .nil span => .nil span
  | .name id => .name id
  | .group inner _ => inner.withoutGroups
  | .unary op operand span => .unary op operand.withoutGroups span
  | .binary op left right span => .binary op left.withoutGroups right.withoutGroups span
  | .step direction fixity target span => .step direction fixity target span
  | .update op target value span => .update op target value.withoutGroups span

end Expr

open Evaluation

theorem Evaluation.within_eq_self {α : Type} {span : Span} {x : Evaluation α}
    (h : ∀ env fault later, x env = .error fault later → fault.placed span = fault) :
    within span x = x := by
  funext env
  unfold within
  cases hrun : x env with
  | ok a later => rfl
  | error fault later => simp only [h env fault later hrun]

/-- The faults of an evaluation have their places, so an outer span adds nothing. -/
theorem Expr.within_eval (e : Expr) (span : Span) : within span e.eval = e.eval := by
  apply within_eq_self
  intro env fault later hrun
  exact (raises_of_eval_error hrun).placed span

/-- Without its groups an expression evaluates as before: to the same value, or to the same fault
with the same place, and with the same environment at the end. -/
theorem Expr.eval_withoutGroups (e : Expr) (env : Environment) :
    e.withoutGroups.eval env = e.eval env := by
  have heval : e.withoutGroups.eval = e.eval := by
    induction e with
    | group inner span ih =>
      change inner.withoutGroups.eval = within span inner.eval
      rw [ih, inner.within_eval]
    | unary op operand span ih => simp only [withoutGroups, eval, ih]
    | binary op left right span ihLeft ihRight => simp only [withoutGroups, eval, ihLeft, ihRight]
    | update op target value span ih => simp only [withoutGroups, eval, ih]
    | _ => rfl
  rw [heval]

end BlockScript
