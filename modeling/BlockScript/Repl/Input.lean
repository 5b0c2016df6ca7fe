import BlockScript.Text.Blank

/-!
# Inputs of several lines

An input goes on over more lines until its braces and parentheses are balanced outside of strings
and comments.  Lines become inputs one after the other; those at the end that need more lines are
dropped.
-/

namespace BlockScript.Repl

/-- What has been seen of an input. -/
structure Scan where
  braces : Int
  parentheses : Int
  inString : Bool
  inComment : Bool
  deriving DecidableEq, Repr, Inhabited

def Scan.start : Scan := ⟨0, 0, false, false⟩

/-- A doubled quote in a string closes it and opens it again. -/
def Scan.next (s : Scan) (c : Char) : Scan :=
  if s.inComment then { s with inComment := c ≠ '\n' }
  else if c = '"' then { s with inString := !s.inString }
  else if s.inString then s
  else if c = '#' then { s with inComment := true }
  else if c = '\x7b' then { s with braces := s.braces + 1 }
  else if c = '\x7d' then { s with braces := s.braces - 1 }
  else if c = '(' then { s with parentheses := s.parentheses + 1 }
  else if c = ')' then { s with parentheses := s.parentheses - 1 }
  else s

/-- Whether an input needs no more lines. -/
def isComplete (input : String) : Bool :=
  let s := input.toList.foldl Scan.next .start
  decide (s.braces ≤ 0) && decide (s.parentheses ≤ 0) && !s.inString

/-- What a line makes of the lines before it. -/
inductive Reading where
  /-- More lines are needed after these. -/
  | pending (text : String)
  | input (text : String)
  deriving DecidableEq, Repr, Inhabited

/-- Adds a line to the pending ones, of which there are none at a fresh prompt.  A blank line there
is an empty input. -/
def feed (pending line : String) : Reading :=
  if pending.isEmpty && (trimmed line.toList).isEmpty then .input ""
  else
    let text := if pending.isEmpty then line else pending ++ "\n" ++ line
    if isComplete text then .input text else .pending text

/-- Reads lines until an input is complete, behind some that are pending.  Gives the input and the
lines that are left, unless the lines end before. -/
def readInput (pending : String) : List String → Option (String × List String)
  | [] => none
  | line :: rest =>
    match feed pending line with
    | .pending text => readInput text rest
    | .input text => some (text, rest)

theorem length_lt_of_readInput {pending input : String} {lines rest : List String}
    (h : readInput pending lines = some (input, rest)) : rest.length < lines.length := by
  induction lines generalizing pending with
  | nil => cases h
  | cons line lines ih =>
    rw [readInput] at h
    split at h
    · have := ih h
      rw [List.length_cons]
      omega
    · cases h
      simp

/-- All the inputs that lines make, in order. -/
def inputs (lines : List String) : List String :=
  match _h : readInput "" lines with
  | none => []
  | some (input, rest) => input :: inputs rest
termination_by lines.length
decreasing_by exact length_lt_of_readInput _h

end BlockScript.Repl
