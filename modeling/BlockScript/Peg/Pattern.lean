/-!
# Parsing expression grammars

A pattern is a parsing expression over characters: choice is ordered, repetition is greedy and
never gives characters back, and a failed sequence consumes nothing.  Layout, the text between the
tokens of a phrase, is skipped only where a pattern says so.  A grammar gives every rule its
pattern, and a match is a tree that holds every character it consumed.
-/

namespace BlockScript.Peg

inductive Pattern (ρ : Type) where
  /-- Exactly these characters. -/
  | text (chars : List Char)
  /-- One character of a class. -/
  | char (test : Char → Bool)
  /-- As much layout as there is, possibly none. -/
  | layout
  /-- The end of the text. -/
  | finish
  | seq (first second : Pattern ρ)
  /-- The second pattern is tried only where the first one fails. -/
  | alt (first second : Pattern ρ)
  | star (body : Pattern ρ)
  | opt (body : Pattern ρ)
  /-- Consumes nothing, and matches where `body` fails. -/
  | absent (body : Pattern ρ)
  | rule (name : ρ)
  deriving Inhabited

namespace Pattern

variable {ρ : Type}

/-- The patterns one after the other, with nothing between them. -/
def tight : List (Pattern ρ) → Pattern ρ
  | [] => .text []
  | [p] => p
  | p :: ps => .seq p (tight ps)

/-- The patterns one after the other, with layout between each two of them. -/
def phrase : List (Pattern ρ) → Pattern ρ
  | [] => .text []
  | [p] => p
  | p :: ps => .seq p (.seq .layout (phrase ps))

/-- The first of the patterns that matches. -/
def anyOf : List (Pattern ρ) → Pattern ρ
  | [] => .absent (.text [])
  | [p] => p
  | p :: ps => .alt p (anyOf ps)

/-- Any number of repetitions with layout between them; the layout after the last one is left. -/
def many (body : Pattern ρ) : Pattern ρ :=
  .opt (.seq body (.star (.seq .layout body)))

/-- One repetition at least, with nothing between them. -/
def oneOrMore (body : Pattern ρ) : Pattern ρ :=
  .seq body (.star body)

/-- The characters of a string. -/
def word (s : String) : Pattern ρ :=
  .text s.toList

end Pattern

/-- What every rule stands for.  A hidden rule leaves no node in a match and is never reported as
an expectation. -/
structure Grammar (ρ : Type) where
  pattern : ρ → Pattern ρ
  hidden : ρ → Bool
  /-- The number of characters of layout that a text begins with. -/
  layoutLength : List Char → Nat
  /-- Matching goes at most this many patterns deep between two consumed characters. -/
  depth : Nat

/-- A match.  Its characters in order are exactly the text that was consumed. -/
inductive Tree (ρ : Type) where
  | leaf (text : List Char)
  /-- Layout between two tokens. -/
  | gap (text : List Char)
  | node (rule : ρ) (parts : List (Tree ρ))
  deriving Inhabited

mutual

/-- All the characters of a match. -/
def Tree.text {ρ : Type} : Tree ρ → List Char
  | .leaf text => text
  | .gap text => text
  | .node _ parts => Tree.textOf parts

/-- All the characters of a list of matches. -/
def Tree.textOf {ρ : Type} : List (Tree ρ) → List Char
  | [] => []
  | tree :: rest => tree.text ++ Tree.textOf rest

end

mutual

/-- The characters of a match in front of `rest`.  This takes one pass over the match. -/
def Tree.textBefore {ρ : Type} (rest : List Char) : Tree ρ → List Char
  | .leaf text => text ++ rest
  | .gap text => text ++ rest
  | .node _ parts => Tree.textsBefore rest parts

/-- The same for a list of matches. -/
def Tree.textsBefore {ρ : Type} (rest : List Char) : List (Tree ρ) → List Char
  | [] => rest
  | tree :: trees => tree.textBefore (Tree.textsBefore rest trees)

end

mutual

theorem Tree.textBefore_eq {ρ : Type} (rest : List Char) :
    ∀ tree : Tree ρ, tree.textBefore rest = tree.text ++ rest
  | .leaf _ => rfl
  | .gap _ => rfl
  | .node _ parts => Tree.textsBefore_eq rest parts

theorem Tree.textsBefore_eq {ρ : Type} (rest : List Char) :
    ∀ trees : List (Tree ρ), Tree.textsBefore rest trees = Tree.textOf trees ++ rest
  | [] => rfl
  | tree :: trees => by
    rw [Tree.textsBefore, Tree.textBefore_eq, Tree.textsBefore_eq, Tree.textOf, List.append_assoc]

end

theorem Tree.textOf_append {ρ : Type} (front back : List (Tree ρ)) :
    Tree.textOf (front ++ back) = Tree.textOf front ++ Tree.textOf back := by
  induction front with
  | nil => simp [Tree.textOf]
  | cons tree front ih => simp [Tree.textOf, ih]

end BlockScript.Peg
