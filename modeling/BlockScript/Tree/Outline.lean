import BlockScript.Decimal.Written
import BlockScript.Text.Escaped
import BlockScript.Tree.Statement

/-!
# Outlines of programs

An outline shows a whole tree with all of its fields and spans, one item to a line and four blanks
deeper for each level.
-/

namespace BlockScript

inductive Outline where
  | atom (text : String)
  | field (name : String) (value : Outline)
  | group (opening : String) (items : List Outline) (closing : String)
  deriving Inhabited

namespace Outline

def padding (indent : Nat) : List Char :=
  List.replicate indent ' '

mutual

/-- The text of an outline whose lines after the first are indented. -/
def layout (indent : Nat) : Outline → List Char
  | .atom text => text.toList
  | .field name value => name.toList ++ [':', ' '] ++ value.layout indent
  | .group opening [] closing => opening.toList ++ closing.toList
  | .group opening items closing =>
    opening.toList ++ layoutItems (indent + 4) items ++ '\n' :: padding indent ++ closing.toList

def layoutItems (indent : Nat) : List Outline → List Char
  | [] => []
  | item :: rest => '\n' :: padding indent ++ item.layout indent ++ ',' :: layoutItems indent rest

end

def render (o : Outline) : String :=
  String.ofList (o.layout 0)

def record (name : String) (fields : List (String × Outline)) : Outline :=
  .group (name ++ " \x7b") (fields.map fun (name, value) => .field name value) "\x7d"

def tuple (name : String) (items : List Outline) : Outline :=
  .group (name ++ "(") items ")"

def list (items : List Outline) : Outline :=
  .group "[" items "]"

def number (n : Nat) : Outline :=
  .atom (toString n)

def string (s : String) : Outline :=
  .atom (Escaped.text s)

def option {α : Type} (outline : α → Outline) : Option α → Outline
  | none => .atom "None"
  | some a => tuple "Some" [outline a]

/-- An expression or a statement: its kind and its span. -/
def node (name : String) (kind span : Outline) : Outline :=
  record name [("kind", kind), ("span", span)]

end Outline

open Outline

def LineColumn.outline (p : LineColumn) : Outline :=
  tuple "" [number p.line, number p.column]

def Span.outline (s : Span) : Outline :=
  record "Span"
    [("start", number s.start), ("end", number s.stop),
      ("start_line_col", option LineColumn.outline (s.ends.map Prod.fst)),
      ("end_line_col", option LineColumn.outline (s.ends.map Prod.snd))]

def Identifier.outline (id : Identifier) : Outline :=
  record "Identifier" [("name", string id.name), ("span", id.span.outline)]

def UnaryOp.title : UnaryOp → String
  | .not => "Not"
  | .negate => "Negate"

def BinaryOp.title : BinaryOp → String
  | .or => "Or"
  | .and => "And"
  | .equal => "Equal"
  | .notEqual => "NotEqual"
  | .less => "Less"
  | .lessEqual => "LessEqual"
  | .greater => "Greater"
  | .greaterEqual => "GreaterEqual"
  | .add => "Add"
  | .subtract => "Subtract"
  | .multiply => "Multiply"
  | .divide => "Divide"
  | .modulo => "Modulo"

def UpdateOp.title (op : UpdateOp) : String :=
  op.binary.title ++ "Assign"

def Direction.title : Direction → String
  | .up => "Increment"
  | .down => "Decrement"

def Fixity.title : Fixity → String
  | .before => "Prefix"
  | .after => "Postfix"

def PrintMode.title : PrintMode → String
  | .value => "Value"
  | .line => "Line"

def Expr.outline : Expr → Outline
  | .integer value span =>
    node "Expression" (tuple "Integer" [.atom (toString value.toInt)]) span.outline
  | .float value span =>
    node "Expression" (tuple "Float" [.atom (Decimal.Style.precise.text value)]) span.outline
  | .string token span => node "Expression" (tuple "String" [Outline.string token]) span.outline
  | .boolean value span =>
    node "Expression" (tuple "Boolean" [.atom (if value then "true" else "false")]) span.outline
  | .nil span => node "Expression" (.atom "Nil") span.outline
  | .name id => node "Expression" (tuple "Identifier" [id.outline]) id.span.outline
  | .group inner span => node "Expression" (tuple "Parenthesized" [inner.outline]) span.outline
  | .unary op operand span =>
    node "Expression"
      (tuple "UnaryOp"
        [record "UnaryOperation"
          [("operator", .atom op.title), ("operand", operand.outline), ("span", span.outline)]])
      span.outline
  | .binary op left right span =>
    node "Expression"
      (tuple "BinaryOp"
        [record "BinaryOperation"
          [("left", left.outline), ("operator", .atom op.title), ("right", right.outline),
            ("span", span.outline)]])
      span.outline
  | .step direction fixity target span =>
    node "Expression"
      (tuple "Increment"
        [record "IncrementOperation"
          [("target", target.outline), ("kind", .atom direction.title),
            ("fixity", .atom fixity.title), ("span", span.outline)]])
      span.outline
  | .update op target value span =>
    node "Expression"
      (tuple "CompoundAssignment"
        [record "CompoundAssignment"
          [("target", target.outline), ("operator", .atom op.title), ("value", value.outline),
            ("span", span.outline)]])
      span.outline

def Assignment.outline (a : Assignment) : Outline :=
  record "Assignment"
    [("target", a.target.outline), ("value", a.value.outline), ("span", a.span.outline)]

mutual

def Statement.outline : Statement → Outline
  | .assign a => node "Statement" (tuple "Assignment" [a.outline]) a.span.outline
  | .print mode value span =>
    node "Statement"
      (tuple "Print"
        [record "PrintStatement"
          [("mode", .atom mode.title), ("expression", value.outline), ("span", span.outline)]])
      span.outline
  | .block body => node "Statement" (tuple "Block" [body.outline]) body.span.outline
  | .conditional arms span =>
    node "Statement"
      (tuple "If"
        [record "IfStatement"
          [("branches", list arms.outlines), ("else_block", arms.elseOutline),
            ("span", span.outline)]])
      span.outline
  | .whileLoop condition body span =>
    node "Statement"
      (tuple "While"
        [record "WhileStatement"
          [("condition", condition.outline), ("body", body.outline), ("span", span.outline)]])
      span.outline
  | .forLoop init condition update body span =>
    node "Statement"
      (tuple "For"
        [record "ForStatement"
          [("initializer", option Assignment.outline init), ("condition", condition.outline),
            ("update", update.outline), ("body", body.outline), ("span", span.outline)]])
      span.outline
  | .expression value span =>
    node "Statement" (tuple "Expression" [value.outline]) span.outline

def Block.outline : Block → Outline
  | .mk statements span =>
    record "Block" [("statements", list (Statement.outlines statements)), ("span", span.outline)]

/-- The arms that have a condition. -/
def Arms.outlines : Arms → List Outline
  | .done => []
  | .otherwise _ => []
  | .arm condition body span rest =>
    record "ConditionalBranch"
      [("condition", condition.outline), ("body", body.outline), ("span", span.outline)] ::
      rest.outlines

/-- The arm that has none. -/
def Arms.elseOutline : Arms → Outline
  | .done => .atom "None"
  | .otherwise body => tuple "Some" [body.outline]
  | .arm _ _ _ rest => rest.elseOutline

def Statement.outlines : List Statement → List Outline
  | [] => []
  | statement :: rest => statement.outline :: Statement.outlines rest

end

def Program.outline (p : Program) : Outline :=
  record "Program"
    [("statements", list (Statement.outlines p.statements)),
      ("source_file", option string p.sourceFile), ("span", p.span.outline)]

end BlockScript
