import BlockScript.Output.Writer

/-!
# Knowing whether a line is open

A line tracker passes bytes on to another writer and remembers whether the last byte that was
accepted ended a line.
-/

namespace BlockScript

structure LineTracker (σ : Type) where
  inner : σ
  /-- Whether the accepted bytes end inside a line. -/
  midLine : Bool

namespace LineTracker

variable {σ : Type} [Writer σ]

def new (inner : σ) : LineTracker σ := ⟨inner, false⟩

def write (bytes : List UInt8) : EStateM WriteError (LineTracker σ) Nat := fun t =>
  match Writer.write bytes t.inner with
  | .error e inner => .error e { t with inner }
  | .ok count inner =>
    match (bytes.take count).getLast? with
    | none => .ok count { t with inner }
    | some last => .ok count ⟨inner, last ≠ Writer.lineFeed⟩

def flush : EStateM String (LineTracker σ) Unit := fun t =>
  match Writer.flush t.inner with
  | .error message inner => .error message { t with inner }
  | .ok _ inner => .ok () { t with inner }

theorem write_inner_of_error {bytes : List UInt8} {t later : LineTracker σ} {e : WriteError}
    (h : write bytes t = .error e later) : Writer.write bytes t.inner = .error e later.inner := by
  unfold write at h
  split at h
  · rename_i hinner
    cases h
    exact hinner
  · split at h <;> cases h

instance : Writer (LineTracker σ) where
  write := write
  flush := flush
  interruptions t := Writer.interruptions t.inner
  interruptions_lt h := Writer.interruptions_lt (write_inner_of_error h)

/-- Ends the line if one is open, and flushes. -/
def endLine : EStateM String (LineTracker σ) Unit := do
  if (← get).midLine then
    Writer.writeAll [Writer.lineFeed]
  Writer.flush

end LineTracker

end BlockScript
