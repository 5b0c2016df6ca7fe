import BlockScript.Diagnostic
import BlockScript.Grammar.Rule

/-!
# Errors of reading a program
-/

namespace BlockScript

/-- Why a text does not match the grammar. -/
inductive Mismatch where
  /-- One of these rules would have matched further. -/
  | expected (rules : List Rule)
  | custom (message : String)
  deriving DecidableEq, Repr, Inhabited

def Mismatch.message : Mismatch → String
  | .expected [] => "unexpected input"
  | .expected rules => "expected " ++ ", or ".intercalate (rules.map Rule.description)
  | .custom message => message

inductive ParseError where
  | mismatch (region : Region) (reason : Mismatch)
  /-- An integer that does not fit in 64 bits. -/
  | integerRange (region : Region) (found : String)
  | floatForm (region : Region) (found : String)
  /-- A rule that cannot stand at its place in a match. -/
  | misplaced (region : Region) (expected : String) (found : Rule)
  deriving DecidableEq, Repr, Inhabited

namespace ParseError

def region : ParseError → Region
  | .mismatch region _ => region
  | .integerRange region _ => region
  | .floatForm region _ => region
  | .misplaced region _ _ => region

def message : ParseError → String
  | .mismatch _ reason => "Parse error: " ++ reason.message
  | .integerRange _ _ => "Invalid integer literal"
  | .floatForm _ _ => "Invalid float literal"
  | .misplaced _ _ _ => "Unexpected grammar rule"

def code : ParseError → String
  | .mismatch _ _ => "bluejay::parse::pest_error"
  | .integerRange _ _ => "bluejay::parse::invalid_integer"
  | .floatForm _ _ => "bluejay::parse::invalid_float"
  | .misplaced _ _ _ => "bluejay::parse::unexpected_rule"

def help : ParseError → String
  | .mismatch _ _ => "Check the syntax near the highlighted location"
  | .integerRange _ _ =>
    "Integer literals must be decimal numbers that fit in 64 bits " ++
      "(-9223372036854775808 to 9223372036854775807)"
  | .floatForm _ _ =>
    "Float literals must be decimal numbers with a decimal point or exponent " ++
      "(e.g., 3.14, .5, 1e-4)"
  | .misplaced _ expected _ => "Expected rule: " ++ expected

def label : ParseError → String
  | .mismatch _ _ => "error occurred here"
  | .integerRange _ _ => "invalid integer"
  | .floatForm _ _ => "invalid float"
  | .misplaced _ _ _ => "unexpected rule here"

def diagnostic (e : ParseError) : Diagnostic where
  message := e.message
  code := e.code
  help := some e.help
  labels := [⟨e.label, e.region⟩]

end ParseError

end BlockScript
