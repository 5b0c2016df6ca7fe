import BlockScript.Grammar.Rules
import BlockScript.Proofs.Peg.Termination

/-!
# The grammar is ranked

Only the end of the input and the rules for a whole text can match without taking a character.  An
identifier is tried by way of the thirteen keywords, an expression by way of twelve kinds of
operands, and a statement by way of all the others: these paths give the highest ranks.
-/

namespace BlockScript.Grammar

def consuming : Rule → Bool
  | .endOfInput | .program | .soleExpression => false
  | _ => true

/-- A bound on how deep patterns are entered below a rule before a character is taken. -/
def rank : Rule → Nat
  | .program => 50
  | .statement => 44
  | .soleExpression => 36
  | .expressionStatement => 34
  | .expression => 33
  | .primary => 30
  | .assignment | .compoundAssignment | .postIncrement | .postDecrement => 20
  | .identifier => 18
  | .binaryOperator => 17
  | .keyword => 16
  | .ifStatement => 12
  | .ifClause | .elifClause | .elseClause | .whileStatement | .forStatement | .printStatement
  | .compoundOperator | .leadingOperator | .boolean | .float => 9
  | _ => 4

def ranking : rules.Ranking where
  consuming := consuming
  rank := rank
  consumes r := by cases r <;> decide
  guarded r := by cases r <;> decide
  height_lt r := by cases r <;> decide
  rank_le r := by cases r <;> decide
  depth_pos := by decide

end BlockScript.Grammar
