import BlockScript.Peg.Pattern

/-!
# Matching a pattern

`Grammar.run` tries a pattern at the beginning of a text.  The fuel bounds how deep patterns are
entered; `Grammar.parse` gives a text the fuel that its length needs.
-/

namespace BlockScript.Peg

inductive Outcome (ρ : Type) where
  /-- The trees of what was consumed, and the text that is left. -/
  | matched (trees : List (Tree ρ)) (rest : List Char)
  | failed
  /-- The fuel did not suffice. -/
  | exhausted
  deriving Inhabited

/-- Layout becomes a tree unless there is none. -/
def gapOf {ρ : Type} (text : List Char) : List (Tree ρ) :=
  if text.isEmpty then [] else [.gap text]

@[simp] theorem textOf_gapOf {ρ : Type} (text : List Char) :
    Tree.textOf (gapOf text : List (Tree ρ)) = text := by
  cases text <;> simp [gapOf, Tree.textOf, Tree.text]

namespace Grammar

variable {ρ : Type}

/-- What a rule makes of the trees of its pattern. -/
def wrap (g : Grammar ρ) (r : ρ) (trees : List (Tree ρ)) : List (Tree ρ) :=
  if g.hidden r then trees else [.node r trees]

@[simp] theorem textOf_wrap (g : Grammar ρ) (r : ρ) (trees : List (Tree ρ)) :
    Tree.textOf (g.wrap r trees) = Tree.textOf trees := by
  unfold wrap
  split <;> simp [Tree.textOf, Tree.text]

def run (g : Grammar ρ) : Nat → Pattern ρ → List Char → Outcome ρ
  | 0, _, _ => .exhausted
  | _ + 1, .text chars, s =>
    if chars.isPrefixOf s then .matched [.leaf chars] (s.drop chars.length) else .failed
  | _ + 1, .char test, s =>
    match s with
    | [] => .failed
    | c :: rest => if test c then .matched [.leaf [c]] rest else .failed
  | _ + 1, .layout, s =>
    .matched (gapOf (s.take (g.layoutLength s))) (s.drop (g.layoutLength s))
  | _ + 1, .finish, s => if s.isEmpty then .matched [] s else .failed
  | fuel + 1, .seq first second, s =>
    match g.run fuel first s with
    | .matched front s' =>
      match g.run fuel second s' with
      | .matched back rest => .matched (front ++ back) rest
      | .failed => .failed
      | .exhausted => .exhausted
    | .failed => .failed
    | .exhausted => .exhausted
  | fuel + 1, .alt first second, s =>
    match g.run fuel first s with
    | .matched trees rest => .matched trees rest
    | .failed => g.run fuel second s
    | .exhausted => .exhausted
  | fuel + 1, .star body, s =>
    match g.run fuel body s with
    | .matched front s' =>
      match g.run fuel (.star body) s' with
      | .matched back rest => .matched (front ++ back) rest
      | .failed => .failed
      | .exhausted => .exhausted
    | .failed => .matched [] s
    | .exhausted => .exhausted
  | fuel + 1, .opt body, s =>
    match g.run fuel body s with
    | .matched trees rest => .matched trees rest
    | .failed => .matched [] s
    | .exhausted => .exhausted
  | fuel + 1, .absent body, s =>
    match g.run fuel body s with
    | .matched _ _ => .failed
    | .failed => .matched [] s
    | .exhausted => .exhausted
  | fuel + 1, .rule r, s =>
    match g.run fuel (g.pattern r) s with
    | .matched trees rest => .matched (g.wrap r trees) rest
    | .failed => .failed
    | .exhausted => .exhausted

/-- Enough fuel for a text, since every character is consumed within `depth` patterns. -/
def fuelFor (g : Grammar ρ) (s : List Char) : Nat :=
  g.depth * (s.length + 2)

/-- Matches a rule at the beginning of a text. -/
def parse (g : Grammar ρ) (r : ρ) (s : List Char) : Outcome ρ :=
  g.run (g.fuelFor s) (.rule r) s

end Grammar

end BlockScript.Peg
