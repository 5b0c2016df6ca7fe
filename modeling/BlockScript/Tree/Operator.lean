/-!
# Operators

The binary operators bind in six levels, from `or`, the loosest, to the multiplicative ones.  An
operator that stands before its operand binds tighter than all of them.
-/

namespace BlockScript

inductive UnaryOp where
  | not
  | negate
  deriving DecidableEq, Repr, Inhabited

def UnaryOp.symbol : UnaryOp → String
  | .not => "not"
  | .negate => "-"

inductive BinaryOp where
  | or
  | and
  | equal
  | notEqual
  | less
  | lessEqual
  | greater
  | greaterEqual
  | add
  | subtract
  | multiply
  | divide
  | modulo
  deriving DecidableEq, Repr, Inhabited

namespace BinaryOp

def symbol : BinaryOp → String
  | .or => "or"
  | .and => "and"
  | .equal => "=="
  | .notEqual => "!="
  | .less => "<"
  | .lessEqual => "<="
  | .greater => ">"
  | .greaterEqual => ">="
  | .add => "+"
  | .subtract => "-"
  | .multiply => "*"
  | .divide => "/"
  | .modulo => "%"

/-- How tightly an operator binds. -/
def precedence : BinaryOp → Nat
  | .or => 1
  | .and => 2
  | .equal | .notEqual => 3
  | .less | .lessEqual | .greater | .greaterEqual => 4
  | .add | .subtract => 5
  | .multiply | .divide | .modulo => 6

/-- All operators, the loosest first. -/
def all : List BinaryOp :=
  [.or, .and, .equal, .notEqual, .less, .lessEqual, .greater, .greaterEqual, .add, .subtract,
    .multiply, .divide, .modulo]

/-- The operator written with a symbol. -/
def ofSymbol? (symbol : String) : Option BinaryOp :=
  all.find? fun op => op.symbol == symbol

end BinaryOp

/-- The operators that update a variable with the value of an expression. -/
inductive UpdateOp where
  | add
  | subtract
  | multiply
  | divide
  | modulo
  deriving DecidableEq, Repr, Inhabited

namespace UpdateOp

/-- The operator applied to the old value and the operand. -/
def binary : UpdateOp → BinaryOp
  | .add => .add
  | .subtract => .subtract
  | .multiply => .multiply
  | .divide => .divide
  | .modulo => .modulo

def symbol (op : UpdateOp) : String :=
  op.binary.symbol ++ "="

end UpdateOp

/-- Which way a variable is stepped. -/
inductive Direction where
  | up
  | down
  deriving DecidableEq, Repr, Inhabited

def Direction.symbol : Direction → String
  | .up => "++"
  | .down => "--"

/-- Whether a step is written before or after its variable.  The one before has the new value, the
one after the old one. -/
inductive Fixity where
  | before
  | after
  deriving DecidableEq, Repr, Inhabited

end BlockScript
