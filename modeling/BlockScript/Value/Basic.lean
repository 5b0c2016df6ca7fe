import BlockScript.Decimal.Written
import BlockScript.Text.Quoted

/-!
# Values
-/

namespace BlockScript

inductive Value where
  | integer (n : Int64)
  | floating (x : Float)
  | text (s : String)
  | boolean (b : Bool)
  | nil
  deriving DecidableEq, Repr, Inhabited

inductive Kind where
  | integer
  | floating
  | text
  | boolean
  | nil
  deriving DecidableEq, Repr, Inhabited

def Kind.name : Kind → String
  | .integer => "Integer"
  | .floating => "Floating"
  | .text => "Text"
  | .boolean => "Boolean"
  | .nil => "Nil"

namespace Value

def kind : Value → Kind
  | .integer _ => .integer
  | .floating _ => .floating
  | .text _ => .text
  | .boolean _ => .boolean
  | .nil => .nil

/-- A value as it is printed. -/
def render : Value → String
  | .integer n => toString n.toInt
  | .floating x => Decimal.exactText x
  | .text s => s
  | .boolean true => "true"
  | .boolean false => "false"
  | .nil => "nil"

/-- The value of a written string. -/
def ofToken (token : String) : Value :=
  .text (String.ofList (Quoted.decode token.toList))

/-- Whether two values are of the same kind and equal, floats as numbers: a NaN differs from itself
and both zeros are equal. -/
def same : Value → Value → Bool
  | .integer a, .integer b => a == b
  | .floating a, .floating b => a == b
  | .text a, .text b => a == b
  | .boolean a, .boolean b => a == b
  | .nil, .nil => true
  | _, _ => false

end Value

end BlockScript
