import BlockScript.Text.Position
import BlockScript.Peg.Pattern

/-!
# Matches with their positions

`Tree.place` walks over a match from a start position and keeps its rule nodes, each with the
positions where its text starts and stops.
-/

namespace BlockScript.Peg

inductive Node (ρ : Type) where
  | mk (rule : ρ) (start stop : Position) (text : List Char) (children : List (Node ρ))
  deriving Inhabited

namespace Node

variable {ρ : Type}

def rule : Node ρ → ρ
  | .mk rule _ _ _ _ => rule

def start : Node ρ → Position
  | .mk _ start _ _ _ => start

def stop : Node ρ → Position
  | .mk _ _ stop _ _ => stop

/-- The characters that the node was made from. -/
def text : Node ρ → List Char
  | .mk _ _ _ text _ => text

end Node

mutual

/-- The node of a match, if it is one of a rule, and the position after it. -/
def Tree.place {ρ : Type} (p : Position) : Tree ρ → List (Node ρ) × Position
  | .leaf text => ([], p.afterAll text)
  | .gap text => ([], p.afterAll text)
  | .node rule parts =>
    let (children, stop) := Tree.placeAll p parts
    ([.mk rule p stop (Tree.textsBefore [] parts) children], stop)

/-- The nodes of matches that follow one another, and the position after the last. -/
def Tree.placeAll {ρ : Type} (p : Position) : List (Tree ρ) → List (Node ρ) × Position
  | [] => ([], p)
  | tree :: rest =>
    let (front, q) := tree.place p
    let (back, stop) := Tree.placeAll q rest
    (front ++ back, stop)

end

end BlockScript.Peg
