import BlockScript.Tree.Expr

/-!
# Statements and programs
-/

namespace BlockScript

structure Assignment where
  target : Identifier
  value : Expr
  span : Span
  deriving Repr, Inhabited

/-- Whether printing ends the line. -/
inductive PrintMode where
  | value
  | line
  deriving DecidableEq, Repr, Inhabited

def PrintMode.keyword : PrintMode → String
  | .value => "print_value"
  | .line => "print_line"

mutual

inductive Statement where
  | assign (assignment : Assignment)
  | print (mode : PrintMode) (value : Expr) (span : Span)
  | block (body : Block)
  | conditional (arms : Arms) (span : Span)
  | whileLoop (condition : Expr) (body : Block) (span : Span)
  | forLoop (init : Option Assignment) (condition update : Expr) (body : Block) (span : Span)
  | expression (value : Expr) (span : Span)

/-- Statements in braces. -/
inductive Block where
  | mk (statements : List Statement) (span : Span)

/-- The arms of a conditional, tried in order. -/
inductive Arms where
  | done
  | otherwise (body : Block)
  | arm (condition : Expr) (body : Block) (span : Span) (rest : Arms)

end

instance : Inhabited Block := ⟨.mk [] default⟩

instance : Inhabited Statement := ⟨.block default⟩

instance : Inhabited Arms := ⟨.done⟩

def Block.statements : Block → List Statement
  | .mk statements _ => statements

def Block.span : Block → Span
  | .mk _ span => span

def Statement.span : Statement → Span
  | .assign assignment => assignment.span
  | .print _ _ span => span
  | .block body => body.span
  | .conditional _ span => span
  | .whileLoop _ _ span => span
  | .forLoop _ _ _ _ span => span
  | .expression _ span => span

structure Program where
  statements : List Statement
  /-- Where the text came from, if it has a name. -/
  sourceFile : Option String
  span : Span
  deriving Inhabited

end BlockScript
