import BlockScript.Machine
import BlockScript.Output.Buffer
import BlockScript.Text.Lossy
import BlockScript.Tree.Reader

/-!
# Running the text of a program
-/

namespace BlockScript

/-- Why a program text did not run to its end. -/
inductive RunError where
  | parse (error : ParseError)
  | fault (fault : Fault)
  | exhausted
  deriving Repr, Inhabited

/-- Everything printed to a buffer. -/
def Buffer.text (b : Buffer) : String :=
  Lossy.decode b.bytes.toList

/-- Runs a program text from the start and returns everything it printed. -/
def runSource (fuel : Nat) (source : String) : Except RunError String :=
  match Program.parse source none with
  | .error e => .error (.parse e)
  | .ok program =>
    match program.run fuel (Machine.new Buffer.unbounded) with
    | .ok _ m => .ok m.output.text
    | .error (.fault fault) _ => .error (.fault fault)
    | .error .exhausted _ => .error .exhausted

end BlockScript
