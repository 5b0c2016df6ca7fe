import BlockScript.Decimal.Reading
import BlockScript.Grammar.Rules
import BlockScript.ParseError
import BlockScript.Peg.Frontier
import BlockScript.Peg.Node
import BlockScript.Tree.Chain
import BlockScript.Tree.Statement

/-!
# Reading a program

A text is matched with the grammar, and the tree is built from the match.  A text that matches can
still hold an integer that is out of range; the first one is reported.
-/

namespace BlockScript

open Peg (Node)

namespace Reader

/-- The error for a node that cannot stand where something else is expected. -/
def misplaced (expected : String) (node : Node Rule) : ParseError :=
  .misplaced (Span.between node.start node.stop).region expected node.rule

def readIdentifier : Node Rule → Except ParseError Identifier
  | .mk .identifier start stop text _ => .ok ⟨String.ofList text, .between start stop⟩
  | node => .error (misplaced "identifier" node)

/-- Reads the digits of an integer, which has to fit in 64 bits with a sign. -/
def readInteger (text : List Char) (span : Span) : Except ParseError Expr :=
  let value := Decimal.natOfDigits text
  if value < Nat.pow 2 63 then .ok (.integer (Int64.ofNat value) span)
  else .error (.integerRange span.region (String.ofList text))

/-- The one row of digits that is out of range alone but not behind a minus sign. -/
def minimumDigits : List Char :=
  "9223372036854775808".toList

/-- Whether a minus sign and an integer that directly follows it write the least integer. -/
def isMinimum (sign digits : Node Rule) : Bool :=
  sign.rule = .negateOperator && digits.rule = .integer && digits.text = minimumDigits &&
    sign.stop.offset = digits.start.offset

def binaryOpOf? : Rule → Option BinaryOp
  | .orOperator => some .or
  | .andOperator => some .and
  | .equalOperator => some .equal
  | .notEqualOperator => some .notEqual
  | .lessOperator => some .less
  | .lessEqualOperator => some .lessEqual
  | .greaterOperator => some .greater
  | .greaterEqualOperator => some .greaterEqual
  | .addOperator => some .add
  | .subtractOperator => some .subtract
  | .multiplyOperator => some .multiply
  | .divideOperator => some .divide
  | .moduloOperator => some .modulo
  | _ => none

def updateOpOf? : Rule → Option UpdateOp
  | .addAssign => some .add
  | .subtractAssign => some .subtract
  | .multiplyAssign => some .multiply
  | .divideAssign => some .divide
  | .moduloAssign => some .modulo
  | _ => none

/-- The link of a chain that an operator makes. -/
def operatorOf? (node : Node Rule) : Option Item :=
  match node.rule with
  | .notOperator => some (.leading .not node.start.offset)
  | .negateOperator => some (.leading .negate node.start.offset)
  | rule => (binaryOpOf? rule).map .infixed

def readUpdateOp (node : Node Rule) : Except ParseError UpdateOp :=
  match updateOpOf? node.rule with
  | some op => .ok op
  | none => .error (misplaced "compound assignment operator" node)

mutual

def readExpr : Node Rule → Except ParseError Expr
  | .mk .expression start stop text children => do
    match Expr.ofItems? (← readItems children) with
    | some e => .ok e
    | none => .error (misplaced "operands and operators" (.mk .expression start stop text []))
  | node => .error (misplaced "expression" node)

/-- Reads the links of a chain. -/
def readItems : List (Node Rule) → Except ParseError (List Item)
  | [] => .ok []
  | [node] =>
    match operatorOf? node with
    | some item => .ok [item]
    | none => do return [.operand (← readPrimary node)]
  | node :: next :: rest =>
    if isMinimum node next then do
      let least := Expr.integer Int64.minValue ⟨node.start.offset, next.stop.offset, none⟩
      return .operand least :: (← readItems rest)
    else
      match operatorOf? node with
      | some item => do return item :: (← readItems (next :: rest))
      | none => do
        let operand ← readPrimary node
        return .operand operand :: (← readItems (next :: rest))

def readPrimary : Node Rule → Except ParseError Expr
  | .mk rule start stop text children =>
    let span := Span.between start stop
    match rule, children with
    | .integer, _ => readInteger text span
    | .float, _ => .ok (.float (Decimal.floatOfText text) span)
    | .string, _ => .ok (.string (String.ofList text) span)
    | .boolean, [.mk .trueWord _ _ _ _] => .ok (.boolean true span)
    | .boolean, [.mk .falseWord _ _ _ _] => .ok (.boolean false span)
    | .nilWord, _ => .ok (.nil span)
    | .identifier, _ => .ok (.name ⟨String.ofList text, span⟩)
    | .parenthesized, [inner] => do return .group (← readExpr inner) span
    | .compoundAssignment, [target, op, value] => do
      let target ← readIdentifier target
      let op ← readUpdateOp op
      return .update op target (← readExpr value) span
    | .preIncrement, [target] => do return .step .up .before (← readIdentifier target) span
    | .preDecrement, [target] => do return .step .down .before (← readIdentifier target) span
    | .postIncrement, [target] => do return .step .up .after (← readIdentifier target) span
    | .postDecrement, [target] => do return .step .down .after (← readIdentifier target) span
    | _, _ => .error (misplaced "expression" (.mk rule start stop text children))

end

def readAssignment : Node Rule → Except ParseError Assignment
  | .mk .assignment start stop _ [target, value] => do
    let target ← readIdentifier target
    return ⟨target, ← readExpr value, .between start stop⟩
  | node => .error (misplaced "assignment" node)

def readPrintMode (node : Node Rule) : Except ParseError PrintMode :=
  match node.rule with
  | .printValueWord => .ok .value
  | .printLineWord => .ok .line
  | _ => .error (misplaced "print_value or print_line" node)

mutual

def readStatement : Node Rule → Except ParseError Statement
  | .mk rule start stop text children =>
    let span := Span.between start stop
    match rule, children with
    | .assignment, _ => do
      return .assign (← readAssignment (.mk rule start stop text children))
    | .printStatement, [mode, value] => do
      let mode ← readPrintMode mode
      return .print mode (← readExpr value) span
    | .block, statements => do return .block (.mk (← readStatements statements) span)
    | .ifStatement, clauses => do return .conditional (← readArms clauses) span
    | .whileStatement, [_, condition, body] => do
      let condition ← readExpr condition
      return .whileLoop condition (← readBlock body) span
    | .forStatement, [_, init, condition, update, body] => do
      let init ← readAssignment init
      let condition ← readExpr condition
      let update ← readExpr update
      return .forLoop (some init) condition update (← readBlock body) span
    | .forStatement, [_, condition, update, body] => do
      let condition ← readExpr condition
      let update ← readExpr update
      return .forLoop none condition update (← readBlock body) span
    | .expressionStatement, [value] => do return .expression (← readExpr value) span
    | _, _ => .error (misplaced "statement" (.mk rule start stop text children))

def readStatements : List (Node Rule) → Except ParseError (List Statement)
  | [] => .ok []
  | node :: rest => do
    let statement ← readStatement node
    return statement :: (← readStatements rest)

def readBlock : Node Rule → Except ParseError Block
  | .mk .block start stop _ children => do
    return .mk (← readStatements children) (.between start stop)
  | node => .error (misplaced "block" node)

/-- Reads the clauses of a conditional without their keywords. -/
def readArms : List (Node Rule) → Except ParseError Arms
  | [] => .ok .done
  | .mk rule start stop text children :: rest =>
    match rule, children with
    | .elseClause, [_, body] => do return .otherwise (← readBlock body)
    | _, [_, condition, body] => do
      let condition ← readExpr condition
      let body ← readBlock body
      return .arm condition body (.between start stop) (← readArms rest)
    | _, [_, _, condition, body] => do
      let condition ← readExpr condition
      let body ← readBlock body
      return .arm condition body (.between start stop) (← readArms rest)
    | _, _ => .error (misplaced "if, elif or else clause" (.mk rule start stop text children))

end

/-- The error for a text that does not match: what was expected at the furthest failure. -/
def mismatch (rule : Rule) (text : List Char) : ParseError :=
  let frontier := Grammar.rules.frontier rule text
  let offset := byteLength (text.take (text.length - frontier.remaining))
  .mismatch ⟨offset, 0⟩ (.expected (Rule.all.filter fun r => frontier.attempts.contains r))

/-- The node of a rule that matches a whole text. -/
def nodeOf (rule : Rule) (text : List Char) : Except ParseError (Node Rule) :=
  match Grammar.rules.parse rule text with
  | .matched trees _ =>
    match (Peg.Tree.placeAll .start trees).1 with
    | [node] => .ok node
    | _ => .error (mismatch rule text)
  | _ => .error (mismatch rule text)

end Reader

open Reader in
/-- Reads the text of a program. -/
def Program.parse (source : String) (sourceFile : Option String) :
    Except ParseError Program := do
  match ← nodeOf .program source.toList with
  | .mk _ start stop _ children =>
    let statements ← readStatements (children.takeWhile fun node => node.rule ≠ .endOfInput)
    return ⟨statements, sourceFile, .between start stop⟩

open Reader in
/-- Reads a text that is a single expression. -/
def Expr.parse (source : String) : Except ParseError Expr := do
  match ← nodeOf .soleExpression source.toList with
  | .mk _ _ _ _ (expression :: _) => readExpr expression
  | node => .error (misplaced "expression" node)

end BlockScript
