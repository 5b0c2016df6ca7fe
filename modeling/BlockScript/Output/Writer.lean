/-!
# Writers

A writer takes bytes one call at a time.  A call may accept only some of them, or fail.  A call that
was interrupted is made again, and writing a whole text repeats the call until everything is
accepted.  What a writer has accepted it may keep back until it is flushed.
-/

namespace BlockScript

/-- How a call fails. -/
inductive WriteError where
  /-- The call was given up before anything was accepted, and can be made again. -/
  | interrupted
  | failed (message : String)
  deriving DecidableEq, Repr, Inhabited

def WriteError.message : WriteError → String
  | .interrupted => "operation interrupted"
  | .failed message => message

/-- A state that bytes can be written to.  One call accepts some number of the bytes from the front,
or fails.  No call is interrupted for ever. -/
class Writer (σ : Type) where
  write : List UInt8 → EStateM WriteError σ Nat
  /-- Passes on the bytes that were kept back, or fails with a message. -/
  flush : EStateM String σ Unit := pure ()
  /-- The greatest number of times that the next call can be interrupted. -/
  interruptions : σ → Nat := fun _ => 0
  interruptions_lt : ∀ {bytes : List UInt8} {sink later : σ},
    write bytes sink = .error .interrupted later → interruptions later < interruptions sink

namespace Writer

variable {σ : Type} [Writer σ]

/-- Makes a call, and makes it again up to `more` times as long as it is interrupted. -/
def attempt (bytes : List UInt8) : Nat → EStateM WriteError σ Nat
  | 0 => write bytes
  | more + 1 => fun sink =>
    match write bytes sink with
    | .error .interrupted later => attempt bytes more later
    | result => result

/-- Makes a call until it is not interrupted. -/
def persist (bytes : List UInt8) : EStateM String σ Nat := fun sink =>
  match attempt bytes (interruptions sink) sink with
  | .ok count later => .ok count later
  | .error e later => .error e.message later

/-- The message where a call accepts none of the bytes that are left. -/
def stalled : String := "failed to write whole buffer"

/-- Writes all the bytes in at most `calls` calls that are not interrupted. -/
def writeWithin : Nat → List UInt8 → EStateM String σ Unit
  | 0, _ => pure ()
  | _ + 1, [] => pure ()
  | calls + 1, byte :: rest => do
    match ← persist (byte :: rest) with
    | 0 => throw stalled
    | accepted + 1 => writeWithin calls (rest.drop accepted)

/-- Writes all the bytes.  Every call but the last takes one byte at least. -/
def writeAll (bytes : List UInt8) : EStateM String σ Unit :=
  writeWithin bytes.length bytes

/-- The bytes of a text. -/
def bytesOf (text : String) : List UInt8 :=
  text.toUTF8.data.toList

def lineFeed : UInt8 := 10

def writeText (text : String) : EStateM String σ Unit :=
  writeAll (bytesOf text)

/-- Writes a text and ends the line. -/
def writeLine (text : String) : EStateM String σ Unit := do
  writeText text
  writeAll [lineFeed]

end Writer

end BlockScript
