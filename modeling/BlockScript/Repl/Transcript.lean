import BlockScript.Output.LineTracker
import BlockScript.Repl.Input
import BlockScript.Repl.Session

/-!
# The transcript of a session

Program output and the answers of a session go to one writer.  A line that a program leaves open is
ended before anything else is shown.
-/

namespace BlockScript.Repl

def welcome : List String :=
  ["BlueJay REPL v0.1.0", "Type /help for commands, /quit to exit", ""]

def farewell : String := "Goodbye!"

variable {σ : Type} [Writer σ]

/-- Writes a line past the tracker; a failure of the writer is not reported. -/
def showLine (text : String) (s : Session (LineTracker σ)) : Session (LineTracker σ) :=
  let tracker := s.machine.output
  let inner :=
    match Writer.writeLine text tracker.inner with
    | .ok _ inner => inner
    | .error _ inner => inner
  { s with machine := { s.machine with output := { tracker with inner } } }

/-- Ends an open line; the message is there if that fails. -/
def endLine (s : Session (LineTracker σ)) : Option String × Session (LineTracker σ) :=
  match LineTracker.endLine s.machine.output with
  | .ok _ output => (none, { s with machine := { s.machine with output } })
  | .error message output => (some message, { s with machine := { s.machine with output } })

/-- The session after an input, and whether it goes on. -/
def answer (fuel : Nat) (input : String) (s : Session (LineTracker σ)) :
    Bool × Session (LineTracker σ) :=
  match evaluate fuel input s with
  | .ok .quit s => (false, (endLine s).2)
  | .ok reply s =>
    let s := (endLine s).2
    match s.echo? reply with
    | some text => (true, showLine text s)
    | none => (true, s)
  | .error _ s => (true, (endLine s).2.withError)

end BlockScript.Repl
