import BlockScript.Fault
import BlockScript.Value.Basic

/-!
# Environments

There is one namespace: a name has at most one value, and an inner block sees and changes the names
of the outer ones.  Every block remembers the names that were first bound while it was the innermost
one, and they are released when it closes.
-/

namespace BlockScript

/-- Names with their values, in ascending order of the names. -/
abbrev Bindings := List (String × Value)

namespace Bindings

def get? (name : String) : Bindings → Option Value
  | [] => none
  | (key, value) :: rest => if key = name then some value else get? name rest

def insert (name : String) (value : Value) : Bindings → Bindings
  | [] => [(name, value)]
  | (key, old) :: rest =>
    if name = key then (name, value) :: rest
    else if name < key then (name, value) :: (key, old) :: rest
    else (key, old) :: insert name value rest

/-- Forgets all of the names. -/
def release (names : List String) (bindings : Bindings) : Bindings :=
  bindings.filter fun (key, _) => !names.contains key

end Bindings

structure Environment where
  bindings : Bindings
  /-- The names first bound outside of all blocks, in that order. -/
  root : List String
  /-- The same for each open block, the innermost first. -/
  blocks : List (List String)
  deriving DecidableEq, Repr, Inhabited

namespace Environment

def empty : Environment := ⟨[], [], []⟩

/-- The number of open blocks. -/
def depth (env : Environment) : Nat :=
  env.blocks.length

def get? (env : Environment) (name : String) : Option Value :=
  env.bindings.get? name

def isBound (env : Environment) (name : String) : Bool :=
  (env.get? name).isSome

def lookup (env : Environment) (name : String) : Except Cause Value :=
  match env.get? name with
  | some value => .ok value
  | none => .error (.undefinedSymbol name)

/-- The number of bound names. -/
def size (env : Environment) : Nat :=
  env.bindings.length

/-- The names first bound at a depth; the root has depth zero. -/
def declaredAt? (env : Environment) (depth : Nat) : Option (List String) :=
  (env.root :: env.blocks.reverse)[depth]?

/-- Opens a block. -/
def enter (env : Environment) : Environment :=
  { env with blocks := [] :: env.blocks }

/-- Closes the innermost block and releases its names.  The root is never closed. -/
def exit (env : Environment) : Environment :=
  match env.blocks with
  | [] => env
  | names :: outer => { env with bindings := env.bindings.release names, blocks := outer }

/-- Remembers a name in the innermost block. -/
def declare (env : Environment) (name : String) : Environment :=
  match env.blocks with
  | [] => { env with root := env.root ++ [name] }
  | names :: outer => { env with blocks := (names ++ [name]) :: outer }

/-- Gives a name a value.  A name that was unbound belongs to the innermost block from now on. -/
def assign (env : Environment) (name : String) (value : Value) : Environment :=
  let bound := { env with bindings := env.bindings.insert name value }
  if env.isBound name then bound else bound.declare name

/-- Forgets everything. -/
def reset (_ : Environment) : Environment := empty

end Environment

end BlockScript
