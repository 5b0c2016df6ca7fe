import BlockScript.Decimal.Reading
import BlockScript.Proofs.Grammar.Tokens
import BlockScript.Proofs.Tree.Chain
import BlockScript.Tree.Statement

/-!
# Canonical trees and their text

A tree is canonical if it is grouped without the help of parentheses it does not have, and if its
names, numbers and strings can be written.  A tree is written with one blank between tokens and a
semicolon behind every statement.  Trees are compared with their spans erased.
-/

namespace BlockScript

open Grammar (IsIdentifier IsToken)

/-! ## Erased spans -/

def Identifier.erase (id : Identifier) : Identifier :=
  ⟨id.name, default⟩

def Expr.erase : Expr → Expr
  | .integer value _ => .integer value default
  | .float value _ => .float value default
  | .string token _ => .string token default
  | .boolean value _ => .boolean value default
  | .nil _ => .nil default
  | .name id => .name id.erase
  | .group inner _ => .group inner.erase default
  | .unary op operand _ => .unary op operand.erase default
  | .binary op left right _ => .binary op left.erase right.erase default
  | .step direction fixity target _ => .step direction fixity target.erase default
  | .update op target value _ => .update op target.erase value.erase default

def Assignment.erase (a : Assignment) : Assignment :=
  ⟨a.target.erase, a.value.erase, default⟩

mutual

def Statement.erase : Statement → Statement
  | .assign assignment => .assign assignment.erase
  | .print mode value _ => .print mode value.erase default
  | .block body => .block body.erase
  | .conditional arms _ => .conditional arms.erase default
  | .whileLoop condition body _ => .whileLoop condition.erase body.erase default
  | .forLoop init condition update body _ =>
    .forLoop (init.map Assignment.erase) condition.erase update.erase body.erase default
  | .expression value _ => .expression value.erase default

def Statement.eraseAll : List Statement → List Statement
  | [] => []
  | statement :: rest => statement.erase :: Statement.eraseAll rest

def Block.erase : Block → Block
  | .mk statements _ => .mk (Statement.eraseAll statements) default

def Arms.erase : Arms → Arms
  | .done => .done
  | .otherwise body => .otherwise body.erase
  | .arm condition body _ rest => .arm condition.erase body.erase default rest.erase

end

def Program.erase (p : Program) : Program :=
  ⟨Statement.eraseAll p.statements, p.sourceFile, default⟩

/-! ## Canonical trees -/

/-- The value of a decimal token. -/
def IsDecimal (value : Float) : Prop :=
  ∃ token, IsToken .float token ∧ Decimal.floatOfText token = value

namespace Expr

/-- The last operand, reached through right operands, is an update. -/
def endsInUpdate : Expr → Bool
  | .update .. => true
  | .unary _ operand _ => operand.endsInUpdate
  | .binary _ _ right _ => right.endsInUpdate
  | _ => false

def Canonical : Expr → Prop
  | .integer value _ => 0 ≤ value.toInt ∨ value = Int64.minValue
  | .float value _ => IsDecimal value
  | .string token _ => IsToken .string token.toList
  | .boolean _ _ | .nil _ => True
  | .name id => IsIdentifier id.name.toList
  | .group inner _ => inner.Canonical
  | .unary _ operand _ => operand.isBinary = false ∧ operand.Canonical
  | .binary op left right _ =>
    left.BindsFrom op.precedence ∧ right.BindsFrom (op.precedence + 1) ∧
      left.endsInUpdate = false ∧ left.Canonical ∧ right.Canonical
  | .step _ _ target _ => IsIdentifier target.name.toList
  | .update _ target value _ => IsIdentifier target.name.toList ∧ value.Canonical

end Expr

def Assignment.Canonical (a : Assignment) : Prop :=
  IsIdentifier a.target.name.toList ∧ a.value.Canonical

/-- There is an arm with a condition. -/
def Arms.HasBranch : Arms → Prop
  | .arm .. => True
  | _ => False

mutual

def Statement.Canonical : Statement → Prop
  | .assign assignment => assignment.Canonical
  | .print _ value _ => value.Canonical
  | .block body => body.Canonical
  | .conditional arms _ => arms.HasBranch ∧ arms.Canonical
  | .whileLoop condition body _ => condition.Canonical ∧ body.Canonical
  | .forLoop init condition update body _ =>
    (∀ a, init = some a → a.Canonical) ∧ condition.Canonical ∧ update.Canonical ∧ body.Canonical
  | .expression value _ => value.Canonical

def Statement.AllCanonical : List Statement → Prop
  | [] => True
  | statement :: rest => statement.Canonical ∧ Statement.AllCanonical rest

def Block.Canonical : Block → Prop
  | .mk statements _ => Statement.AllCanonical statements

def Arms.Canonical : Arms → Prop
  | .done => True
  | .otherwise body => body.Canonical
  | .arm condition body _ rest => condition.Canonical ∧ body.Canonical ∧ rest.Canonical

end

def Program.Canonical (p : Program) : Prop :=
  Statement.AllCanonical p.statements

/-! ## The text of a tree -/

/-- A token for every value that has one. -/
structure FloatSpelling where
  token : Float → String
  spells : ∀ value, IsDecimal value →
    IsToken .float (token value).toList ∧ Decimal.floatOfText (token value).toList = value

instance : Nonempty FloatSpelling := by
  have hchoice : ∀ value : Float, ∃ token : String, IsDecimal value →
      IsToken .float token.toList ∧ Decimal.floatOfText token.toList = value := by
    intro value
    by_cases hvalue : IsDecimal value
    · obtain ⟨token, htoken⟩ := hvalue
      exact ⟨String.ofList token, fun _ => by simpa using htoken⟩
    · exact ⟨"", fun h => absurd h hvalue⟩
  exact ⟨⟨fun value => (hchoice value).choose, fun value => (hchoice value).choose_spec⟩⟩

section

variable (spelling : FloatSpelling)

def Expr.tokens : Expr → List String
  | .integer value _ => [toString value.toInt]
  | .float value _ => [spelling.token value]
  | .string token _ => [token]
  | .boolean value _ => [if value then "true" else "false"]
  | .nil _ => ["nil"]
  | .name id => [id.name]
  | .group inner _ => "(" :: (inner.tokens ++ [")"])
  | .unary op operand _ => op.symbol :: operand.tokens
  | .binary op left right _ => left.tokens ++ op.symbol :: right.tokens
  | .step direction .before target _ => [direction.symbol, target.name]
  | .step direction .after target _ => [target.name, direction.symbol]
  | .update op target value _ => target.name :: op.symbol :: value.tokens

def Assignment.tokens (a : Assignment) : List String :=
  a.target.name :: "=" :: a.value.tokens spelling

mutual

/-- The tokens of a statement, the semicolon included. -/
def Statement.tokens : Statement → List String
  | .assign assignment => assignment.tokens spelling ++ [";"]
  | .print mode value _ => mode.keyword :: "(" :: (value.tokens spelling ++ [")", ";"])
  | .block body => body.tokens ++ [";"]
  | .conditional arms _ => arms.tokens "if" ++ [";"]
  | .whileLoop condition body _ =>
    "while" :: (condition.tokens spelling ++ body.tokens ++ [";"])
  | .forLoop init condition update body _ =>
    "for" :: "(" :: ((init.map (Assignment.tokens spelling)).getD [] ++
      ";" :: (condition.tokens spelling ++
      ";" :: (update.tokens spelling ++
      ")" :: (body.tokens ++ [";"]))))
  | .expression value _ => value.tokens spelling ++ [";"]

def Statement.tokensAll : List Statement → List String
  | [] => []
  | statement :: rest => statement.tokens ++ Statement.tokensAll rest

def Block.tokens : Block → List String
  | .mk statements _ => "\x7b" :: (Statement.tokensAll statements ++ ["\x7d"])

/-- The tokens of the arms; `word` opens the first one with a condition. -/
def Arms.tokens (word : String) : Arms → List String
  | .done => []
  | .otherwise body => "else" :: body.tokens
  | .arm condition body _ rest =>
    word :: (condition.tokens spelling ++ body.tokens ++ rest.tokens "elif")

end

/-- The text of a program, with one blank between tokens. -/
def Program.render (p : Program) : String :=
  " ".intercalate (Statement.tokensAll spelling p.statements)

end

end BlockScript
