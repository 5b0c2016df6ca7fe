import BlockScript.Evaluate
import BlockScript.Output.Writer
import BlockScript.Tree.Statement

/-!
# Running statements

A machine holds an environment, a writer for what is printed, and a count of the statements that
were started.  Running a statement can end with a fault, and then everything that happened before it
remains, except that every block that was entered is closed.  The fuel bounds the rounds of each
loop, so a run that does not exhaust it is the run without a bound.
-/

namespace BlockScript

structure Machine (σ : Type) where
  environment : Environment
  output : σ
  /-- The number of statements that were started. -/
  executed : Nat

/-- More rounds than any loop can make in a lifetime. -/
def amplyFueled : Nat := Nat.pow 10 18

/-- How a run ends early. -/
inductive Halt where
  | fault (fault : Fault)
  /-- A loop went on for more rounds than the fuel allows. -/
  | exhausted
  deriving DecidableEq, Repr, Inhabited

/-- A computation on a machine. -/
abbrev Execution (σ : Type) := EStateM Halt (Machine σ)

def Machine.new {σ : Type} (output : σ) : Machine σ := ⟨.empty, output, 0⟩

namespace Execution

variable {σ α : Type}

/-- Runs an evaluation on the environment of the machine. -/
def evaluating (x : Evaluation α) : Execution σ α := fun m =>
  match x m.environment with
  | .ok a environment => .ok a { m with environment }
  | .error fault environment => .error (.fault fault) { m with environment }

/-- Runs a computation on the writer of the machine. -/
def writing (x : EStateM String σ α) : Execution σ α := fun m =>
  match x m.output with
  | .ok a output => .ok a { m with output }
  | .error message output => .error (.fault (.output message)) { m with output }

/-- Counts a statement. -/
def count : Execution σ Unit :=
  modify fun m => { m with executed := m.executed + 1 }

/-- Runs `x` in a new block, which is closed however `x` ends. -/
def inBlock (x : Execution σ α) : Execution σ α := fun m =>
  match x { m with environment := m.environment.enter } with
  | .ok a m => .ok a { m with environment := m.environment.exit }
  | .error halt m => .error halt { m with environment := m.environment.exit }

/-- The truth of a condition, which has to be a boolean. -/
def condition (e : Expr) : Execution σ Bool := do
  match ← evaluating e.eval with
  | .boolean b => return b
  | value =>
    throw (.fault (.operation (.operandType "condition" [value.kind.name]) (some e.span.region)))

def assigning (a : Assignment) : Execution σ Value := do
  let value ← evaluating a.value.eval
  evaluating (Evaluation.assign a.target.name value)
  return value

/-- Runs `body` as long as `test` holds, for as many rounds as the fuel allows. -/
def repeatWhile (test : Execution σ Bool) (body : Execution σ Unit) : Nat → Execution σ Unit
  | 0 => throw .exhausted
  | fuel + 1 => do
    if ← test then
      body
      repeatWhile test body fuel

/-- An assignment that is made only where its variable is unbound. -/
def initializing : Option Assignment → Execution σ Unit
  | none => pure ()
  | some a => do
    unless (← get).environment.isBound a.target.name do
      discard (assigning a)

variable [Writer σ]

def printing (mode : PrintMode) (e : Expr) : Execution σ Value := do
  let value ← evaluating e.eval
  match mode with
  | .value => writing (Writer.writeText value.render)
  | .line => writing (Writer.writeLine value.render)
  return value

end Execution

open Execution

mutual

/-- Runs a statement.  Assignments, prints and expressions have a value. -/
def Statement.exec {σ : Type} [Writer σ] (fuel : Nat) : Statement → Execution σ (Option Value)
  | .assign a => do
    count
    return some (← assigning a)
  | .print mode value _ => do
    count
    return some (← printing mode value)
  | .block body => do
    count
    body.exec fuel
    return none
  | .conditional arms _ => do
    count
    arms.exec fuel
    return none
  | .whileLoop test body _ => do
    count
    repeatWhile (condition test) (body.exec fuel) fuel
    return none
  | .forLoop init test update body _ => do
    count
    initializing init
    repeatWhile (condition test) (do body.exec fuel; discard (evaluating update.eval)) fuel
    return none
  | .expression value _ => do
    count
    return some (← evaluating value.eval)

def Block.exec {σ : Type} [Writer σ] (fuel : Nat) : Block → Execution σ Unit
  | .mk statements _ => inBlock (Statement.execAll fuel statements)

/-- The first arm whose condition holds is run. -/
def Arms.exec {σ : Type} [Writer σ] (fuel : Nat) : Arms → Execution σ Unit
  | .done => pure ()
  | .otherwise body => body.exec fuel
  | .arm test body _ rest => do
    if ← condition test then body.exec fuel else rest.exec fuel

/-- Runs statements in order up to the first fault. -/
def Statement.execAll {σ : Type} [Writer σ] (fuel : Nat) : List Statement → Execution σ Unit
  | [] => pure ()
  | statement :: rest => do
    discard (statement.exec fuel)
    Statement.execAll fuel rest

end

/-- Runs a whole program. -/
def Program.run {σ : Type} [Writer σ] (fuel : Nat) (program : Program) : Execution σ Unit :=
  Statement.execAll fuel program.statements

end BlockScript
