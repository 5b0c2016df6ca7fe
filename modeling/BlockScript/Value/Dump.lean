import BlockScript.Text.Escaped
import BlockScript.Value.Basic

/-!
# Values shown with their kind
-/

namespace BlockScript.Value

/-- A value with the name of its kind around it; a text is shown with escapes. -/
def dump : Value → String
  | .integer n => "Integer(" ++ toString n.toInt ++ ")"
  | .floating x => "Floating(" ++ Decimal.Style.precise.text x ++ ")"
  | .text s => "Text(" ++ Escaped.text s ++ ")"
  | .boolean true => "Boolean(true)"
  | .boolean false => "Boolean(false)"
  | .nil => "Nil"

end BlockScript.Value
