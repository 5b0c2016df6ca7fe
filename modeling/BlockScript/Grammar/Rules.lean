import BlockScript.Grammar.Rule
import BlockScript.Peg.Match

/-!
# The grammar of programs

A program is a list of statements, each optionally closed by a semicolon.  An expression is a flat
sequence of operands and operators; how tightly they bind is settled when the tree is built.  Tokens
admit no layout inside; between the tokens of a phrase there may be blanks and comments.
-/

namespace BlockScript.Grammar

open Peg (Pattern)
open Peg.Pattern

def isBlank (c : Char) : Bool :=
  c = ' ' || c = '\t' || c = '\r' || c = '\n'

/-- A comment ends before one of these. -/
def isLineEnd (c : Char) : Bool :=
  c = '\n' || c = '\r'

mutual

/-- The number of characters of layout, blanks and comments, that a text begins with. -/
def layoutLength : List Char → Nat
  | [] => 0
  | c :: s =>
    if isBlank c then layoutLength s + 1
    else if c = '#' then commentLength s + 1
    else 0

/-- The same for a text that begins inside a comment. -/
def commentLength : List Char → Nat
  | [] => 0
  | c :: s => if isLineEnd c then layoutLength s + 1 else commentLength s + 1

end

/-- A character that may follow in a word. -/
def isWordChar (c : Char) : Bool :=
  c.isAlphanum || c = '_'

/-- A character that a word may begin with. -/
def isWordStart (c : Char) : Bool :=
  c.isAlpha || c = '_'

/-- The words that are no identifiers. -/
def keywords : List String :=
  ["if", "elif", "else", "while", "for", "true", "false", "nil", "not", "and", "or",
    "print_value", "print_line"]

/-- No character of a word follows. -/
def wordEnd : Pattern Rule :=
  .absent (.char isWordChar)

/-- A whole word, not the beginning of a longer one. -/
def wholeWord (s : String) : Pattern Rule :=
  tight [word s, wordEnd]

/-- One operator, unless one of `others` makes it the beginning of another one. -/
def operator (s : String) (others : List String) : Pattern Rule :=
  tight (word s :: others.map fun other => .absent (word other))

def keyword : Pattern Rule :=
  tight [anyOf (keywords.map word), wordEnd]

def identifier : Pattern Rule :=
  tight [.absent keyword, .char isWordStart, .star (.char isWordChar)]

def digit : Pattern Rule :=
  .char Char.isDigit

def exponent : Pattern Rule :=
  tight [.char fun c => c = 'e' || c = 'E', .opt (.char fun c => c = '+' || c = '-'),
    oneOrMore digit]

def float : Pattern Rule :=
  anyOf
    [tight [oneOrMore digit, word ".", .star digit, .opt exponent],
      tight [word ".", oneOrMore digit, .opt exponent],
      tight [oneOrMore digit, exponent]]

/-- A character of a string that stands for itself. -/
def isPlain (c : Char) : Bool :=
  !(c = '"' || c = '\n' || c = '\r')

/-- A string is closed by the first quote that does not stand twice. -/
def string : Pattern Rule :=
  tight [word "\"", .star (.alt (word "\"\"") (.char isPlain)), word "\""]

def compoundOperator : Pattern Rule :=
  anyOf [.rule .addAssign, .rule .subtractAssign, .rule .multiplyAssign, .rule .divideAssign,
    .rule .moduloAssign]

def leadingOperator : Pattern Rule :=
  anyOf [.rule .notOperator, .rule .negateOperator]

def binaryOperator : Pattern Rule :=
  anyOf [.rule .orOperator, .rule .andOperator, .rule .equalOperator, .rule .notEqualOperator,
    .rule .lessEqualOperator, .rule .greaterEqualOperator, .rule .lessOperator,
    .rule .greaterOperator, .rule .addOperator, .rule .subtractOperator, .rule .multiplyOperator,
    .rule .divideOperator, .rule .moduloOperator]

def primary : Pattern Rule :=
  anyOf [.rule .compoundAssignment, .rule .preIncrement, .rule .preDecrement,
    .rule .postIncrement, .rule .postDecrement, .rule .float, .rule .integer, .rule .string,
    .rule .boolean, .rule .nilWord, .rule .identifier, .rule .parenthesized]

/-- An operand with the operators before it. -/
def operand : List (Pattern Rule) :=
  [many leadingOperator, primary]

def statement : Pattern Rule :=
  phrase
    [anyOf [.rule .block, .rule .ifStatement, .rule .whileStatement, .rule .forStatement,
        .rule .printStatement, .rule .assignment, .rule .expressionStatement],
      .opt (word ";")]

def pattern : Rule → Pattern Rule
  | .endOfInput => .finish
  | .blank => .char isBlank
  | .comment => tight [word "#", .star (.char fun c => !isLineEnd c)]
  | .program => tight [.layout, phrase [many statement, .rule .endOfInput]]
  | .soleExpression => tight [.layout, phrase [.rule .expression, .rule .endOfInput]]
  | .statement => statement
  | .block => phrase [word "\x7b", many statement, word "\x7d"]
  | .ifStatement => phrase [.rule .ifClause, many (.rule .elifClause), .opt (.rule .elseClause)]
  | .ifClause => phrase [.rule .ifWord, .rule .expression, .rule .block]
  | .elifClause =>
    phrase
      [.alt (.rule .elifWord) (phrase [.rule .elseWord, .rule .ifWord]), .rule .expression,
        .rule .block]
  | .elseClause => phrase [.rule .elseWord, .rule .block]
  | .whileStatement => phrase [.rule .whileWord, .rule .expression, .rule .block]
  | .forStatement =>
    phrase
      [.rule .forWord, word "(", .opt (.rule .assignment), word ";", .rule .expression, word ";",
        .rule .expression, word ")", .rule .block]
  | .printStatement =>
    phrase
      [.alt (.rule .printLineWord) (.rule .printValueWord), word "(", .rule .expression, word ")"]
  | .assignment => phrase [.rule .identifier, word "=", .absent (word "="), .rule .expression]
  | .expressionStatement => .rule .expression
  | .expression => phrase (operand ++ [many (phrase (binaryOperator :: operand))])
  | .primary => primary
  | .parenthesized => phrase [word "(", .rule .expression, word ")"]
  | .compoundAssignment => phrase [.rule .identifier, compoundOperator, .rule .expression]
  | .preIncrement => phrase [word "++", .rule .identifier]
  | .preDecrement => phrase [word "--", .rule .identifier]
  | .postIncrement => phrase [.rule .identifier, word "++"]
  | .postDecrement => phrase [.rule .identifier, word "--"]
  | .compoundOperator => compoundOperator
  | .addAssign => word "+="
  | .subtractAssign => word "-="
  | .multiplyAssign => word "*="
  | .divideAssign => word "/="
  | .moduloAssign => word "%="
  | .leadingOperator => leadingOperator
  | .notOperator => .alt (operator "!" ["="]) (wholeWord "not")
  | .negateOperator => operator "-" ["-", "="]
  | .binaryOperator => binaryOperator
  | .orOperator => .alt (word "||") (wholeWord "or")
  | .andOperator => .alt (word "&&") (wholeWord "and")
  | .equalOperator => word "=="
  | .notEqualOperator => word "!="
  | .lessEqualOperator => word "<="
  | .greaterEqualOperator => word ">="
  | .lessOperator => word "<"
  | .greaterOperator => word ">"
  | .addOperator => operator "+" ["+", "="]
  | .subtractOperator => operator "-" ["-", "="]
  | .multiplyOperator => operator "*" ["="]
  | .divideOperator => operator "/" ["="]
  | .moduloOperator => operator "%" ["="]
  | .float => float
  | .exponent => exponent
  | .integer => oneOrMore digit
  | .string => string
  | .boolean => .alt (.rule .trueWord) (.rule .falseWord)
  | .trueWord => wholeWord "true"
  | .falseWord => wholeWord "false"
  | .nilWord => wholeWord "nil"
  | .identifier => identifier
  | .identifierCharacter => .char isWordChar
  | .keyword => keyword
  | .ifWord => wholeWord "if"
  | .elifWord => wholeWord "elif"
  | .elseWord => wholeWord "else"
  | .whileWord => wholeWord "while"
  | .forWord => wholeWord "for"
  | .printValueWord => wholeWord "print_value"
  | .printLineWord => wholeWord "print_line"

/-- The rules that only group others, and those for single characters. -/
def hidden : Rule → Bool
  | .blank | .comment | .statement | .primary | .compoundOperator | .leadingOperator
  | .binaryOperator | .exponent | .identifierCharacter => true
  | _ => false

def rules : Peg.Grammar Rule where
  pattern := pattern
  hidden := hidden
  layoutLength := layoutLength
  depth := 100

end BlockScript.Grammar
