import BlockScript.Proofs.Grammar.Separators
import BlockScript.Proofs.Peg.Placement
import BlockScript.Tree.Statement

/-!
# Spans of a syntax tree

What a syntax tree says about the text it was read from is a tree of spans.  Such a tree is sound if
every span lies in the text, the spans of the parts lie one behind the other in the span of the
whole, and a block leaves out nothing but separators between its braces.
-/

namespace BlockScript

open Grammar (Interleaved IsLayout)

/-- A span, whether it is the one of a block, and the parts in the order of the text. -/
inductive SpanTree where
  | mk (span : Span) (braced : Bool) (parts : List SpanTree)

namespace SpanTree

def span : SpanTree → Span
  | .mk span _ _ => span

def braced : SpanTree → Bool
  | .mk _ braced _ => braced

def parts : SpanTree → List SpanTree
  | .mk _ _ parts => parts

/-- The second tree is the first one, or a part of it at any depth. -/
inductive Holds : SpanTree → SpanTree → Prop
  | refl (tree : SpanTree) : Holds tree tree
  | part {tree part found : SpanTree} (hpart : part ∈ tree.parts) (hfound : part.Holds found) :
      Holds tree found

/-- The span covers a pair of braces, with the spans `inside` and separators between them. -/
def Braces (text : List Char) (span : Span) (inside : List Span) : Prop :=
  ∃ before inner behind, text = before ++ ('\x7b' :: (inner ++ ['\x7d']) ++ behind) ∧
    span.start = byteLength before ∧
    span.stop = span.start + byteLength ('\x7b' :: (inner ++ ['\x7d'])) ∧
    Interleaved IsLayout (span.start + 1) inside inner

/-- Where the span of a tree lies in a text, and where its parts lie in it. -/
structure Placed (text : List Char) (tree : SpanTree) : Prop where
  start_le_stop : tree.span.start ≤ tree.span.stop
  start : IsBoundary text tree.span.start
  stop : IsBoundary text tree.span.stop
  inside : ∀ part ∈ tree.parts,
    tree.span.start ≤ part.span.start ∧ part.span.stop ≤ tree.span.stop
  ordered : tree.parts.Pairwise fun part next => part.span.stop ≤ next.span.start
  braces : tree.braced = true → Braces text tree.span (tree.parts.map span)

/-- All parts of the tree lie where they should. -/
def Sound (text : List Char) (tree : SpanTree) : Prop :=
  ∀ part, tree.Holds part → part.Placed text

/-- Sound trees that lie one behind the other between two offsets. -/
def InOrder (text : List Char) : Nat → List SpanTree → Nat → Prop
  | first, [], last => first ≤ last
  | first, tree :: rest, last =>
    first ≤ tree.span.start ∧ tree.Sound text ∧ InOrder text tree.span.stop rest last

variable {text : List Char} {first last : Nat} {tree : SpanTree} {trees : List SpanTree}

theorem Holds.trans {part found : SpanTree} (h : tree.Holds part) (hfound : part.Holds found) :
    tree.Holds found := by
  induction h with
  | refl tree => exact hfound
  | part hpart _ ih => exact .part hpart (ih hfound)

theorem Sound.placed (h : tree.Sound text) : tree.Placed text :=
  h tree (.refl tree)

theorem Sound.within {found : SpanTree} (h : tree.Sound text) (hfound : tree.Holds found) :
    tree.span.start ≤ found.span.start ∧ found.span.stop ≤ tree.span.stop := by
  induction hfound with
  | refl tree => exact ⟨Nat.le_refl _, Nat.le_refl _⟩
  | part hpart _ ih =>
    obtain ⟨hstart, hstop⟩ := h.placed.inside _ hpart
    obtain ⟨hstart', hstop'⟩ := ih fun part hheld => h part (.part hpart hheld)
    exact ⟨Nat.le_trans hstart hstart', Nat.le_trans hstop' hstop⟩

theorem InOrder.mono {first' : Nat} (h : InOrder text first trees last) (hle : first' ≤ first) :
    InOrder text first' trees last := by
  cases trees with
  | nil => exact Nat.le_trans hle h
  | cons tree rest => exact ⟨Nat.le_trans hle h.1, h.2⟩

theorem InOrder.sound (h : InOrder text first trees last) : ∀ tree ∈ trees, tree.Sound text := by
  induction trees generalizing first with
  | nil => simp
  | cons tree rest ih => exact List.forall_mem_cons.2 ⟨h.2.1, ih h.2.2⟩

theorem InOrder.inside (h : InOrder text first trees last) :
    first ≤ last ∧ ∀ tree ∈ trees, first ≤ tree.span.start ∧ tree.span.stop ≤ last := by
  induction trees generalizing first with
  | nil => exact ⟨h, by simp⟩
  | cons tree rest ih =>
    obtain ⟨hfirst, hsound, hrest⟩ := h
    obtain ⟨hlast, hinside⟩ := ih hrest
    have hle := hsound.placed.start_le_stop
    refine ⟨by omega, List.forall_mem_cons.2 ⟨⟨hfirst, hlast⟩, fun next hnext => ?_⟩⟩
    obtain ⟨hstart, hstop⟩ := hinside next hnext
    exact ⟨by omega, hstop⟩

theorem InOrder.ordered (h : InOrder text first trees last) :
    trees.Pairwise fun tree next => tree.span.stop ≤ next.span.start := by
  induction trees generalizing first with
  | nil => exact .nil
  | cons tree rest ih =>
    exact .cons (fun next hnext => (h.2.2.inside.2 next hnext).1) (ih h.2.2)

/-- Parts in order make a sound tree. -/
theorem InOrder.whole {span : Span} {braced : Bool}
    (h : InOrder text span.start trees span.stop) (hstart : IsBoundary text span.start)
    (hstop : IsBoundary text span.stop)
    (hbraces : braced = true → Braces text span (trees.map SpanTree.span)) :
    (mk span braced trees).Sound text := by
  intro part hpart
  cases hpart with
  | refl => exact ⟨h.inside.1, hstart, hstop, h.inside.2, h.ordered, hbraces⟩
  | part hmem hheld => exact h.sound _ hmem part hheld

end SpanTree

open SpanTree

/-! ## The spans of expressions and statements -/

def Expr.spans : Expr → SpanTree
  | .group inner span => .mk span false [inner.spans]
  | .unary _ operand span => .mk span false [operand.spans]
  | .binary _ left right span => .mk span false [left.spans, right.spans]
  | .step _ _ target span => .mk span false [.mk target.span false []]
  | .update _ target value span => .mk span false [.mk target.span false [], value.spans]
  | e => .mk e.span false []

@[simp] theorem Expr.span_spans (e : Expr) : e.spans.span = e.span := by
  cases e <;> rfl

def Assignment.spans (a : Assignment) : SpanTree :=
  .mk a.span false [.mk a.target.span false [], a.value.spans]

mutual

def Statement.spans : Statement → SpanTree
  | .assign a => a.spans
  | .print _ value span => .mk span false [value.spans]
  | .block body => body.spans
  | .conditional arms span => .mk span false arms.spans
  | .whileLoop condition body span => .mk span false [condition.spans, body.spans]
  | .forLoop init condition update body span =>
    .mk span false ((init.map Assignment.spans).toList ++
      [condition.spans, update.spans, body.spans])
  | .expression value span => .mk span false [value.spans]

def Statement.spansAll : List Statement → List SpanTree
  | [] => []
  | statement :: rest => statement.spans :: Statement.spansAll rest

def Block.spans : Block → SpanTree
  | .mk statements span => .mk span true (Statement.spansAll statements)

/-- An arm is its condition and its body; the last arm can be a body alone. -/
def Arms.spans : Arms → List SpanTree
  | .done => []
  | .otherwise body => [body.spans]
  | .arm condition body span rest => .mk span false [condition.spans, body.spans] :: rest.spans

end

def Program.spans (p : Program) : SpanTree :=
  .mk p.span false (Statement.spansAll p.statements)

@[simp] theorem Block.span_spans (b : Block) : b.spans.span = b.span := by
  cases b
  rw [Block.spans]
  rfl

@[simp] theorem Statement.span_spans (s : Statement) : s.spans.span = s.span := by
  cases s <;> rw [Statement.spans] <;> first | rfl | exact Block.span_spans _

theorem Statement.spansAll_eq_map (statements : List Statement) :
    Statement.spansAll statements = statements.map Statement.spans := by
  induction statements with
  | nil => rfl
  | cons statement rest ih => rw [Statement.spansAll, List.map_cons, ih]

theorem Statement.map_span_spansAll (statements : List Statement) :
    (Statement.spansAll statements).map SpanTree.span = statements.map Statement.span := by
  simp [Statement.spansAll_eq_map]

end BlockScript
