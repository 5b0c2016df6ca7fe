import BlockScript.Decimal.Written
import BlockScript.Tree.Statement

/-!
# S-expressions of programs

A program is shown as nested lists.  A list stays on one line if all of its items do; a list of
statements moreover only if it has one at most.  Otherwise every item has a line of its own, two
blanks deeper than the list.
-/

namespace BlockScript

inductive SExpr where
  | atom (text : String)
  | list (head : String) (items : List SExpr)
  /-- A list of statements. -/
  | body (head : String) (items : List SExpr)
  deriving Inhabited

namespace SExpr

mutual

/-- Whether an expression is shown on one line. -/
def isFlat : SExpr → Bool
  | .atom text => !text.toList.contains '\n'
  | .list _ items => allFlat items
  | .body _ items => decide (items.length ≤ 1) && allFlat items

def allFlat : List SExpr → Bool
  | [] => true
  | item :: rest => item.isFlat && allFlat rest

end

/-- What stands before each item of a list at an indentation. -/
def separator (flat : Bool) (indent : Nat) : List Char :=
  if flat then [' '] else '\n' :: List.replicate indent ' '

mutual

/-- The text of an expression whose lines after the first are indented. -/
def layout (indent : Nat) : SExpr → List Char
  | .atom text => text.toList
  | .list head items =>
    let separator := separator (allFlat items) (indent + 2)
    '(' :: head.toList ++ layoutItems separator (indent + 2) items ++ [')']
  | .body head items =>
    let separator := separator (decide (items.length ≤ 1) && allFlat items) (indent + 2)
    '(' :: head.toList ++ layoutItems separator (indent + 2) items ++ [')']

def layoutItems (separator : List Char) (indent : Nat) : List SExpr → List Char
  | [] => []
  | item :: rest => separator ++ item.layout indent ++ layoutItems separator indent rest

end

def render (e : SExpr) : String :=
  String.ofList (e.layout 0)

end SExpr

def Fixity.mark : Fixity → String
  | .before => "pre"
  | .after => "post"

def Expr.toSExpr : Expr → SExpr
  | .integer value _ => .list "integer" [.atom (toString value.toInt)]
  | .float value _ => .list "float" [.atom (Decimal.Style.precise.text value)]
  | .string token _ => .list "string" [.atom token]
  | .boolean value _ => .list "boolean" [.atom (if value then "true" else "false")]
  | .nil _ => .atom "nil"
  | .name id => .atom id.name
  | .group inner _ => .list "group" [inner.toSExpr]
  | .unary op operand _ => .list op.symbol [operand.toSExpr]
  | .binary op left right _ => .list op.symbol [left.toSExpr, right.toSExpr]
  | .step direction fixity target _ => .list (fixity.mark ++ direction.symbol) [.atom target.name]
  | .update op target value _ => .list op.symbol [.atom target.name, value.toSExpr]

def Assignment.toSExpr (a : Assignment) : SExpr :=
  .list "assign" [.atom a.target.name, a.value.toSExpr]

/-- The first part of a counting loop. -/
def initSExpr : Option Assignment → SExpr
  | some a => a.toSExpr
  | none => .list "no-init" []

mutual

def Statement.toSExpr : Statement → SExpr
  | .assign a => a.toSExpr
  | .print mode value _ => .list mode.keyword [value.toSExpr]
  | .block body => body.toSExpr
  | .conditional arms _ => .list "if" arms.toSExprs
  | .whileLoop condition body _ => .list "while" [condition.toSExpr, body.toSExpr]
  | .forLoop init condition update body _ =>
    .list "for" [initSExpr init, condition.toSExpr, update.toSExpr, body.toSExpr]
  | .expression value _ => value.toSExpr

def Block.toSExpr : Block → SExpr
  | .mk statements _ => .body "block" (Statement.toSExprs statements)

def Arms.toSExprs : Arms → List SExpr
  | .done => []
  | .otherwise body => [.list "else" [body.toSExpr]]
  | .arm condition body _ rest =>
    .list "when" [condition.toSExpr, body.toSExpr] :: rest.toSExprs

def Statement.toSExprs : List Statement → List SExpr
  | [] => []
  | statement :: rest => statement.toSExpr :: Statement.toSExprs rest

end

def Program.toSExpr (p : Program) : SExpr :=
  .body "program" (Statement.toSExprs p.statements)

end BlockScript
