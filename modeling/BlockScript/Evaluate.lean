import BlockScript.Environment
import BlockScript.Tree.Expr
import BlockScript.Value.Operation

/-!
# Evaluating expressions

Operands are evaluated from left to right, both of them also for `and` and `or`.  The only effects
are the updates of variables that are already bound; those made before a fault remain.
-/

namespace BlockScript

/-- A computation that uses an environment and may end in a fault. -/
abbrev Evaluation := EStateM Fault Environment

namespace Evaluation

variable {α : Type}

/-- A fault that has no place yet happened in this span. -/
def within (span : Span) (x : Evaluation α) : Evaluation α := fun env =>
  match x env with
  | .ok a env => .ok a env
  | .error fault env => .error (fault.placed span) env

/-- The result of an operation on values. -/
def result : Except Cause α → Evaluation α
  | .ok a => pure a
  | .error cause => throw (.operation cause none)

/-- The value of a variable; if there is none, its own place is reported. -/
def variableValue (id : Identifier) : Evaluation Value := do
  match (← get).get? id.name with
  | some value => return value
  | none => throw (.operation (.undefinedSymbol id.name) (some id.span.region))

def assign (name : String) (value : Value) : Evaluation Unit :=
  modify fun env => env.assign name value

end Evaluation

open Evaluation in
def Expr.eval : Expr → Evaluation Value
  | .integer value _ => pure (.integer value)
  | .float value _ => pure (.floating value)
  | .string token _ => pure (.ofToken token)
  | .boolean value _ => pure (.boolean value)
  | .nil _ => pure .nil
  | .name id => variableValue id
  | .group inner span => within span inner.eval
  | .unary op operand span => within span do
    let value ← operand.eval
    result (op.apply value)
  | .binary op left right span => within span do
    let a ← left.eval
    let b ← right.eval
    result (op.apply a b)
  | .step direction fixity target span => within span do
    let old ← variableValue target
    let new ← result (old.step direction.delta)
    assign target.name new
    return match fixity with
      | .before => new
      | .after => old
  | .update op target operand span => within span do
    let value ← operand.eval
    let old ← variableValue target
    let new ← result (old.arithmetic op.binary value)
    assign target.name new
    return new

end BlockScript
