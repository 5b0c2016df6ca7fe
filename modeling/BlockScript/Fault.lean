import BlockScript.Diagnostic

/-!
# Faults of a running program

An operation fails for a cause; the expression that applied it adds its place.  A fault of the
output has no place in the source.
-/

namespace BlockScript

/-- Why an operation on values fails. -/
inductive Cause where
  | undefinedSymbol (name : String)
  | operandType (operation : String) (kinds : List String)
  | divisionByZero
  | unknownOperator (symbol : String)
  deriving DecidableEq, Repr, Inhabited

inductive Fault where
  | operation (cause : Cause) (place : Option Region)
  | output (message : String)
  deriving DecidableEq, Repr, Inhabited

namespace Cause

def message : Cause → String
  | .undefinedSymbol name => "Undefined symbol: " ++ name
  | .operandType operation kinds =>
    "Invalid operand type: " ++ operation ++ " cannot be applied to [" ++
      ", ".intercalate kinds ++ "]"
  | .divisionByZero => "Division by zero"
  | .unknownOperator symbol => "Unknown operator: " ++ symbol

def code : Cause → String
  | .undefinedSymbol _ => "bluejay::runtime::undefined_symbol"
  | .operandType _ _ => "bluejay::runtime::invalid_operand_type"
  | .divisionByZero => "bluejay::runtime::division_by_zero"
  | .unknownOperator _ => "bluejay::runtime::unknown_operator"

def help : Cause → String
  | .undefinedSymbol name => "Assign a value to `" ++ name ++ "` before using it"
  | .operandType _ _ => "Check that the operation is supported for these value kinds"
  | .divisionByZero => "Integer division and modulo need a non-zero divisor"
  | .unknownOperator _ => "The parser produced an operator the evaluator does not handle here"

def label : Cause → String
  | .undefinedSymbol _ => "not bound here"
  | .operandType _ _ => "invalid operand"
  | .divisionByZero => "division by zero here"
  | .unknownOperator _ => "unknown operator"

end Cause

namespace Fault

/-- A fault without a place happened here; one with a place keeps it. -/
def placed (span : Span) : Fault → Fault
  | .operation cause none => .operation cause (some span.region)
  | fault => fault

/-- Where in the source a fault happened. -/
def place? : Fault → Option Region
  | .operation _ place => place
  | .output _ => none

def message : Fault → String
  | .operation cause _ => cause.message
  | .output message => "Output error: " ++ message

def diagnostic : Fault → Diagnostic
  | .operation cause place =>
    { message := cause.message
      code := cause.code
      help := some cause.help
      labels := place.toList.map fun region => ⟨cause.label, region⟩ }
  | .output message =>
    { message := (Fault.output message).message
      code := "bluejay::runtime::output"
      help := none
      labels := [] }

end Fault

end BlockScript
