/-!
# The rules of the grammar

Every rule has a name and a description for the reader of an error message.  The order of
`Rule.all` is the order in which expectations are reported.
-/

namespace BlockScript

inductive Rule where
  | endOfInput
  | blank
  | comment
  | program
  | soleExpression
  | statement
  | block
  | ifStatement
  | ifClause
  | elifClause
  | elseClause
  | whileStatement
  | forStatement
  | printStatement
  | assignment
  | expressionStatement
  | expression
  | primary
  | parenthesized
  | compoundAssignment
  | preIncrement
  | preDecrement
  | postIncrement
  | postDecrement
  | compoundOperator
  | addAssign
  | subtractAssign
  | multiplyAssign
  | divideAssign
  | moduloAssign
  | leadingOperator
  | notOperator
  | negateOperator
  | binaryOperator
  | orOperator
  | andOperator
  | equalOperator
  | notEqualOperator
  | lessEqualOperator
  | greaterEqualOperator
  | lessOperator
  | greaterOperator
  | addOperator
  | subtractOperator
  | multiplyOperator
  | divideOperator
  | moduloOperator
  | float
  | exponent
  | integer
  | string
  | boolean
  | trueWord
  | falseWord
  | nilWord
  | identifier
  | identifierCharacter
  | keyword
  | ifWord
  | elifWord
  | elseWord
  | whileWord
  | forWord
  | printValueWord
  | printLineWord
  deriving DecidableEq, Repr, Inhabited

namespace Rule

def name : Rule → String
  | .endOfInput => "EOI"
  | .blank => "WHITESPACE"
  | .comment => "COMMENT"
  | .program => "program"
  | .soleExpression => "expression_input"
  | .statement => "statement"
  | .block => "block"
  | .ifStatement => "if_statement"
  | .ifClause => "if_clause"
  | .elifClause => "elif_clause"
  | .elseClause => "else_clause"
  | .whileStatement => "while_statement"
  | .forStatement => "for_statement"
  | .printStatement => "print_statement"
  | .assignment => "assignment"
  | .expressionStatement => "expression_statement"
  | .expression => "expression"
  | .primary => "primary"
  | .parenthesized => "parenthesized"
  | .compoundAssignment => "compound_assignment"
  | .preIncrement => "pre_increment"
  | .preDecrement => "pre_decrement"
  | .postIncrement => "post_increment"
  | .postDecrement => "post_decrement"
  | .compoundOperator => "compound_op"
  | .addAssign => "op_add_assign"
  | .subtractAssign => "op_subtract_assign"
  | .multiplyAssign => "op_multiply_assign"
  | .divideAssign => "op_divide_assign"
  | .moduloAssign => "op_modulo_assign"
  | .leadingOperator => "prefix_op"
  | .notOperator => "op_not"
  | .negateOperator => "op_negate"
  | .binaryOperator => "infix_op"
  | .orOperator => "op_or"
  | .andOperator => "op_and"
  | .equalOperator => "op_equal"
  | .notEqualOperator => "op_not_equal"
  | .lessEqualOperator => "op_less_equal"
  | .greaterEqualOperator => "op_greater_equal"
  | .lessOperator => "op_less"
  | .greaterOperator => "op_greater"
  | .addOperator => "op_add"
  | .subtractOperator => "op_subtract"
  | .multiplyOperator => "op_multiply"
  | .divideOperator => "op_divide"
  | .moduloOperator => "op_modulo"
  | .float => "float"
  | .exponent => "exponent"
  | .integer => "integer"
  | .string => "string"
  | .boolean => "boolean"
  | .trueWord => "boolean_true"
  | .falseWord => "boolean_false"
  | .nilWord => "nil"
  | .identifier => "identifier"
  | .identifierCharacter => "ident_char"
  | .keyword => "keyword"
  | .ifWord => "keyword_if"
  | .elifWord => "keyword_elif"
  | .elseWord => "keyword_else"
  | .whileWord => "keyword_while"
  | .forWord => "keyword_for"
  | .printValueWord => "keyword_print_value"
  | .printLineWord => "keyword_print_line"

/-- The rules in reporting order: the end of the input, then as the grammar lists them. -/
def all : List Rule :=
  [.endOfInput, .blank, .comment, .program, .soleExpression, .statement, .block, .ifStatement,
    .ifClause, .elifClause, .elseClause, .whileStatement, .forStatement, .printStatement,
    .assignment, .expressionStatement, .expression, .primary, .parenthesized,
    .compoundAssignment, .preIncrement, .preDecrement, .postIncrement, .postDecrement,
    .compoundOperator, .addAssign, .subtractAssign, .multiplyAssign, .divideAssign,
    .moduloAssign, .leadingOperator, .notOperator, .negateOperator, .binaryOperator,
    .orOperator, .andOperator, .equalOperator, .notEqualOperator, .lessEqualOperator,
    .greaterEqualOperator, .lessOperator, .greaterOperator, .addOperator, .subtractOperator,
    .multiplyOperator, .divideOperator, .moduloOperator, .float, .exponent, .integer, .string,
    .boolean, .trueWord, .falseWord, .nilWord, .identifier, .identifierCharacter, .keyword,
    .ifWord, .elifWord, .elseWord, .whileWord, .forWord, .printValueWord, .printLineWord]

theorem mem_all (r : Rule) : r ∈ all := by
  cases r <;> simp [all]

/-- The rule of a name. -/
def ofName? (name : String) : Option Rule :=
  all.find? fun r => r.name == name

/-- What an error message calls a rule.  A rule without a phrase of its own is called by its name,
with blanks for the underscores. -/
def description : Rule → String
  | .integer => "a number (like 42)"
  | .float => "a decimal number (like 3.14)"
  | .string => "a string (like \"hello\")"
  | .boolean => "a boolean (true or false)"
  | .nilWord => "nil"
  | .identifier => "an identifier (like variable_name)"
  | .expression => "an expression"
  | .parenthesized => "a parenthesized expression (like (x + y))"
  | .compoundAssignment => "a compound assignment (like x += 1)"
  | .preIncrement | .postIncrement => "an increment (++)"
  | .preDecrement | .postDecrement => "a decrement (--)"
  | .assignment => "an assignment (name = value)"
  | .block => "a block (\x7b ... \x7d)"
  | .ifStatement => "an if statement"
  | .elifClause => "an elif clause"
  | .elseClause => "an else clause"
  | .whileStatement => "a while loop"
  | .forStatement => "a for loop"
  | .printStatement => "print_value(...) or print_line(...)"
  | .endOfInput => "end of input"
  | .orOperator => "a logical OR operator (or, ||)"
  | .andOperator => "a logical AND operator (and, &&)"
  | .notOperator => "a logical NOT operator (not, !)"
  | .equalOperator => "an equality operator (==)"
  | .notEqualOperator => "a not-equal operator (!=)"
  | .lessOperator => "a less-than operator (<)"
  | .lessEqualOperator => "a less-than-or-equal operator (<=)"
  | .greaterOperator => "a greater-than operator (>)"
  | .greaterEqualOperator => "a greater-than-or-equal operator (>=)"
  | .addOperator => "an addition operator (+)"
  | .subtractOperator => "a subtraction operator (-)"
  | .multiplyOperator => "a multiplication operator (*)"
  | .divideOperator => "a division operator (/)"
  | .moduloOperator => "a modulo operator (%)"
  | .negateOperator => "a unary minus (-)"
  | r => String.ofList (r.name.toList.map fun c => if c = '_' then ' ' else c)

end Rule

end BlockScript
