import BlockScript.Fault
import BlockScript.Tree.Operator
import BlockScript.Value.Basic

/-!
# Operations on values

Integers are words of 64 bits and wrap around.  An integer that meets a float is widened to the
nearest double.  Comparisons always compare doubles.
-/

namespace BlockScript.Value

/-- The double nearest to an integer. -/
def widen (n : Int64) : Float :=
  Float.ofInt n.toInt

/-- The error of an operation that does not apply to a value. -/
def wrongKind (operation : String) (a : Value) : Cause :=
  .operandType operation [a.kind.name]

/-- The error of an operation that does not apply to two values. -/
def wrongKinds (operation : String) (a b : Value) : Cause :=
  .operandType operation [a.kind.name, b.kind.name]

def asBoolean : Value → Except Cause Bool
  | .boolean b => .ok b
  | a => .error (wrongKind "boolean conversion" a)

def asText : Value → Except Cause String
  | .text s => .ok s
  | a => .error (wrongKind "text conversion" a)

/-- Integers are widened. -/
def asFloating : Value → Except Cause Float
  | .integer n => .ok (widen n)
  | .floating x => .ok x
  | a => .error (wrongKind "floating conversion" a)

/-- Floats are not narrowed. -/
def asInteger : Value → Except Cause Int64
  | .integer n => .ok n
  | a => .error (wrongKind "integer conversion" a)

/-- Two numbers of one kind. -/
inductive Numbers where
  | integers (a b : Int64)
  | floats (a b : Float)

/-- Two numbers, both widened unless both are integers. -/
def numbers? : Value → Value → Option Numbers
  | .integer a, .integer b => some (.integers a b)
  | .integer a, .floating b => some (.floats (widen a) b)
  | .floating a, .integer b => some (.floats a (widen b))
  | .floating a, .floating b => some (.floats a b)
  | _, _ => none

/-- Adds numbers and joins texts. -/
def add (a b : Value) : Except Cause Value :=
  match numbers? a b with
  | some (.integers m n) => .ok (.integer (m + n))
  | some (.floats x y) => .ok (.floating (x + y))
  | none =>
    match a, b with
    | .text s, .text t => .ok (.text (s ++ t))
    | _, _ => .error (wrongKinds "+" a b)

def subtract (a b : Value) : Except Cause Value :=
  match numbers? a b with
  | some (.integers m n) => .ok (.integer (m - n))
  | some (.floats x y) => .ok (.floating (x - y))
  | none => .error (wrongKinds "-" a b)

def multiply (a b : Value) : Except Cause Value :=
  match numbers? a b with
  | some (.integers m n) => .ok (.integer (m * n))
  | some (.floats x y) => .ok (.floating (x * y))
  | none => .error (wrongKinds "*" a b)

/-- The quotient of integers is rounded toward zero. -/
def divide (a b : Value) : Except Cause Value :=
  match numbers? a b with
  | some (.integers m n) => if n = 0 then .error .divisionByZero else .ok (.integer (m / n))
  | some (.floats x y) => .ok (.floating (x / y))
  | none => .error (wrongKinds "/" a b)

/-- The remainder has the sign of the dividend. -/
def modulo (a b : Value) : Except Cause Value :=
  match numbers? a b with
  | some (.integers m n) => if n = 0 then .error .divisionByZero else .ok (.integer (m % n))
  | some (.floats x y) => .ok (.floating (Decimal.remainder x y))
  | none => .error (wrongKinds "%" a b)

def arithmetic (op : BinaryOp) (a b : Value) : Except Cause Value :=
  match op with
  | .add => a.add b
  | .subtract => a.subtract b
  | .multiply => a.multiply b
  | .divide => a.divide b
  | .modulo => a.modulo b
  | op => .error (.unknownOperator op.symbol)

def negate : Value → Except Cause Value
  | .integer n => .ok (.integer (-n))
  | .floating x => .ok (.floating (-x))
  | a => .error (wrongKind "-" a)

def not : Value → Except Cause Value
  | .boolean b => .ok (.boolean !b)
  | a => .error (wrongKind "not" a)

def and : Value → Value → Except Cause Value
  | .boolean a, .boolean b => .ok (.boolean (a && b))
  | a, b => .error (wrongKinds "and" a b)

def or : Value → Value → Except Cause Value
  | .boolean a, .boolean b => .ok (.boolean (a || b))
  | a, b => .error (wrongKinds "or" a b)

def compare (op : BinaryOp) (a b : Value) : Except Cause Value :=
  match a.asFloating, b.asFloating with
  | .ok x, .ok y =>
    match op with
    | .less => .ok (.boolean (x < y))
    | .lessEqual => .ok (.boolean (x ≤ y))
    | .greater => .ok (.boolean (x > y))
    | .greaterEqual => .ok (.boolean (x ≥ y))
    | op => .error (.unknownOperator op.symbol)
  | _, _ => .error (wrongKinds op.symbol a b)

/-- Two floats that differ by less than this are equal. -/
def tolerance : Float := 1e-11

/-- Equality in the language.  Numbers of different kinds are compared as doubles. -/
def equals : Value → Value → Bool
  | .integer a, .floating b => widen a == b
  | .floating a, .integer b => a == widen b
  | .floating a, .floating b => (a - b).abs < tolerance
  | a, b => a.same b

/-- Adds a number of steps to a number. -/
def step (delta : Int64) : Value → Except Cause Value
  | .integer n => .ok (.integer (n + delta))
  | .floating x => .ok (.floating (x + widen delta))
  | a => .error (wrongKind (if delta < 0 then "--" else "++") a)

end BlockScript.Value

namespace BlockScript

def UnaryOp.apply : UnaryOp → Value → Except Cause Value
  | .not => Value.not
  | .negate => Value.negate

def BinaryOp.apply (op : BinaryOp) (a b : Value) : Except Cause Value :=
  match op with
  | .or => a.or b
  | .and => a.and b
  | .equal => .ok (.boolean (a.equals b))
  | .notEqual => .ok (.boolean (!a.equals b))
  | .less | .lessEqual | .greater | .greaterEqual => a.compare op b
  | .add | .subtract | .multiply | .divide | .modulo => a.arithmetic op b

/-- What a step adds. -/
def Direction.delta : Direction → Int64
  | .up => 1
  | .down => -1

end BlockScript
