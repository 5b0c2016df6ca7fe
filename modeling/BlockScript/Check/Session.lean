import BlockScript.Run
import BlockScript.Value.Dump

/-!
# Checked sessions

A session runs snippets one after the other on one machine and checks what they compute, print or
fail with.  Bindings and printed text last from one snippet to the next.
-/

namespace BlockScript.Check

/-- Why a snippet did not do what was expected of it. -/
inductive Failure where
  | parse (error : ParseError)
  | fault (fault : Fault)
  /-- The result is shown as `actual` where `expected` was wanted. -/
  | unequal (expected actual : String)
  | wrongKind (expected actual : Kind)
  /-- The last statement has no value. -/
  | noValue (code : String)
  /-- A fault was expected. -/
  | succeeded (code : String)
  | exhausted
  deriving Repr, Inhabited

def Failure.message : Failure → String
  | .parse e => "Parse error: " ++ e.message
  | .fault f => "Runtime error: " ++ f.message
  | .unequal expected actual =>
    "Assertion failed: expected " ++ expected ++ ", but got " ++ actual
  | .wrongKind expected actual =>
    "Type error: expected " ++ expected.name ++ ", got " ++ actual.name
  | .noValue code => "No value: the last statement of `" ++ code ++ "` does not produce one"
  | .succeeded code => "Expected a runtime error, but `" ++ code ++ "` succeeded"
  | .exhausted => "Out of fuel"

/-- A step of a session. -/
abbrev Session := EStateM Failure (Machine Buffer)

/-- The machine that a session starts with. -/
def start : Machine Buffer := Machine.new .unbounded

/-- Runs statements, and has the value of the last one. -/
def lastValue (fuel : Nat) (statements : List Statement) : Execution Buffer (Option Value) :=
  statements.foldlM (fun _ statement => statement.exec fuel) none

/-- Runs all the statements of a snippet, and has the value of the last one. -/
def execute (fuel : Nat) (code : String) : Session (Option Value) := fun m =>
  match Program.parse code none with
  | .error error => .error (.parse error) m
  | .ok program =>
    match lastValue fuel program.statements m with
    | .ok value m => .ok value m
    | .error (.fault fault) m => .error (.fault fault) m
    | .error .exhausted m => .error .exhausted m

def evaluate (fuel : Nat) (code : String) : Session Value := do
  match ← execute fuel code with
  | some value => return value
  | none => throw (.noValue code)

/-- Everything printed since it was last taken. -/
def takeOutput : Session String := fun m =>
  .ok m.output.text { m with output := m.output.clear }

/-- Checks a result that is to be of a kind.  `holds` says whether it is as expected, and both are
shown if it is not. -/
def compare (kind : Kind) (value : Value) (holds : Bool) (expected actual : String) :
    Session Unit :=
  if value.kind ≠ kind then throw (.wrongKind kind value.kind)
  else if holds then pure ()
  else throw (.unequal expected actual)

def checkInteger (fuel : Nat) (code : String) (expected : Int64) : Session Unit := do
  let value ← evaluate fuel code
  compare .integer value (value.same (.integer expected)) (toString expected.toInt) value.render

/-- Floats are compared as the language does it. -/
def checkFloat (fuel : Nat) (code : String) (expected : Float) : Session Unit := do
  let value ← evaluate fuel code
  match value with
  | .floating x =>
    compare .floating value (value.equals (.floating expected))
      (Decimal.Style.plain.text expected) (Decimal.Style.plain.text x)
  | _ => throw (.wrongKind .floating value.kind)

def checkBoolean (fuel : Nat) (code : String) (expected : Bool) : Session Unit := do
  let value ← evaluate fuel code
  compare .boolean value (value.same (.boolean expected)) (Value.boolean expected).render
    value.render

def checkText (fuel : Nat) (code : String) (expected : String) : Session Unit := do
  let value ← evaluate fuel code
  compare .text value (value.same (.text expected)) (Escaped.text expected)
    (Escaped.text value.render)

def checkNil (fuel : Nat) (code : String) : Session Unit := do
  let value ← evaluate fuel code
  compare .nil value true "" ""

/-- Checks for exactly this value, its kind included. -/
def checkValue (fuel : Nat) (code : String) (expected : Value) : Session Unit := do
  let value ← evaluate fuel code
  unless value.same expected do
    throw (.unequal expected.dump value.dump)

/-- Checks what a snippet prints; what was printed before is dropped. -/
def checkOutput (fuel : Nat) (code : String) (expected : String) : Session Unit := do
  discard takeOutput
  discard (execute fuel code)
  let actual ← takeOutput
  unless actual = expected do
    throw (.unequal (Escaped.text expected) (Escaped.text actual))

/-- The fault that a snippet ends with. -/
def expectFault (fuel : Nat) (code : String) : Session Fault := fun m =>
  match execute fuel code m with
  | .error (.fault fault) m => .ok fault m
  | .error failure m => .error failure m
  | .ok _ m => .error (.succeeded code) m

def define (name : String) (value : Value) : Session Unit :=
  modify fun m => { m with environment := m.environment.assign name value }

def variableValue (name : String) : Session Value := do
  match (← get).environment.lookup name with
  | .ok value => return value
  | .error cause => throw (.fault (.operation cause none))

/-- Forgets all bindings and all printed text. -/
def reset : Session Unit :=
  modify fun m => { m with environment := m.environment.reset, output := m.output.clear }

end BlockScript.Check
