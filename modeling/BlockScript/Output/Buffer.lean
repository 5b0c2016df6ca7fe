import BlockScript.Output.Writer

/-!
# Buffers

A buffer keeps the bytes it is given, up to a limit if it has one.
-/

namespace BlockScript

/-- What a full buffer does with more bytes. -/
inductive WhenFull where
  /-- The call fails. -/
  | refuse
  /-- The call accepts nothing. -/
  | acceptNone
  deriving DecidableEq, Repr, Inhabited

structure Buffer where
  bytes : Array UInt8
  /-- The greatest number of bytes, if there is one. -/
  limit : Option Nat
  whenFull : WhenFull
  deriving Inhabited

namespace Buffer

def unbounded : Buffer := ⟨#[], none, .refuse⟩

def bounded (limit : Nat) (whenFull : WhenFull) : Buffer := ⟨#[], some limit, whenFull⟩

/-- How many of `count` more bytes fit. -/
def fits (b : Buffer) (count : Nat) : Nat :=
  match b.limit with
  | none => count
  | some limit => min count (limit - b.bytes.size)

/-- The message of a buffer that refuses. -/
def refusal : String := "sink full"

def write (bytes : List UInt8) : EStateM WriteError Buffer Nat := fun b =>
  let count := b.fits bytes.length
  if count = 0 ∧ bytes ≠ [] then
    match b.whenFull with
    | .refuse => .error (.failed refusal) b
    | .acceptNone => .ok 0 b
  else
    .ok count { b with bytes := b.bytes ++ bytes.take count }

theorem write_ne_interrupted (bytes : List UInt8) (b later : Buffer) :
    write bytes b ≠ .error .interrupted later := by
  unfold write
  dsimp only
  split
  · cases b.whenFull <;> nofun
  · nofun

instance : Writer Buffer where
  write := write
  interruptions_lt := fun h => absurd h (write_ne_interrupted _ _ _)

/-- The same buffer without its bytes. -/
def clear (b : Buffer) : Buffer := { b with bytes := #[] }

end Buffer

end BlockScript
