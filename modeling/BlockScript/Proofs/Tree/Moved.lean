import BlockScript.Proofs.Grammar.Brackets
import BlockScript.Proofs.Tree.Soundness

/-!
# Trees at other places

A text that is read at another place, or with other layout, gives the same tree with other spans.  A
`Move` says what becomes of the places in a tree.  Nodes resemble each other if they have the same
rules and the same tokens; what is read from such nodes differs by moves only.

The reader looks at places only where it joins a minus sign with the digits of the least integer.  So
`AllResemble` also says which nodes touch each other.
-/

namespace BlockScript

open Grammar (isToken)
open Peg (Node)

/-- What becomes of the offsets in a tree, and of lines and columns. -/
structure Move where
  offset : Nat → Nat
  ends : Option (LineColumn × LineColumn) → Option (LineColumn × LineColumn)
  ends_none : ends none = none

namespace Move

def span (m : Move) (s : Span) : Span :=
  ⟨m.offset s.start, m.offset s.stop, m.ends s.ends⟩

/-- All places are forgotten. -/
def erasing : Move :=
  ⟨fun _ => 0, fun _ => none, rfl⟩

/-- All places stay. -/
def still : Move :=
  ⟨id, id, rfl⟩

end Move

section

variable (m : Move)

def Identifier.moved (id : Identifier) : Identifier :=
  ⟨id.name, m.span id.span⟩

def Expr.moved : Expr → Expr
  | .integer value span => .integer value (m.span span)
  | .float value span => .float value (m.span span)
  | .string token span => .string token (m.span span)
  | .boolean value span => .boolean value (m.span span)
  | .nil span => .nil (m.span span)
  | .name id => .name (id.moved m)
  | .group inner span => .group inner.moved (m.span span)
  | .unary op operand span => .unary op operand.moved (m.span span)
  | .binary op left right span => .binary op left.moved right.moved (m.span span)
  | .step direction fixity target span => .step direction fixity (target.moved m) (m.span span)
  | .update op target value span => .update op (target.moved m) value.moved (m.span span)

def Item.moved : Item → Item
  | .leading op start => .leading op (m.offset start)
  | .operand value => .operand (value.moved m)
  | .infixed op => .infixed op

def Assignment.moved (a : Assignment) : Assignment :=
  ⟨a.target.moved m, a.value.moved m, m.span a.span⟩

mutual

def Statement.moved : Statement → Statement
  | .assign assignment => .assign (assignment.moved m)
  | .print mode value span => .print mode (value.moved m) (m.span span)
  | .block body => .block body.moved
  | .conditional arms span => .conditional arms.moved (m.span span)
  | .whileLoop condition body span => .whileLoop (condition.moved m) body.moved (m.span span)
  | .forLoop init condition update body span =>
    .forLoop (init.map (Assignment.moved m)) (condition.moved m) (update.moved m) body.moved
      (m.span span)
  | .expression value span => .expression (value.moved m) (m.span span)

def Statement.movedAll : List Statement → List Statement
  | [] => []
  | statement :: rest => statement.moved :: Statement.movedAll rest

def Block.moved : Block → Block
  | .mk statements span => .mk (Statement.movedAll statements) (m.span span)

def Arms.moved : Arms → Arms
  | .done => .done
  | .otherwise body => .otherwise body.moved
  | .arm condition body span rest =>
    .arm (condition.moved m) body.moved (m.span span) rest.moved

end

end

/-! ## Trees with their places erased or kept -/

theorem Expr.moved_erasing (e : Expr) : e.moved .erasing = e.erase := by
  induction e with
  | integer | float | string | boolean | nil | name | step => rfl
  | group inner span ih => rw [moved, erase, ih]; rfl
  | unary op operand span ih => rw [moved, erase, ih]; rfl
  | binary op left right span ihl ihr => rw [moved, erase, ihl, ihr]; rfl
  | update op target value span ih => rw [moved, erase, ih]; rfl

theorem Expr.moved_still (e : Expr) : e.moved .still = e := by
  induction e with
  | integer | float | string | boolean | nil | name | step => rfl
  | group inner span ih => rw [moved, ih]; rfl
  | unary op operand span ih => rw [moved, ih]; rfl
  | binary op left right span ihl ihr => rw [moved, ihl, ihr]; rfl
  | update op target value span ih => rw [moved, ih]; rfl

theorem Assignment.moved_erasing (a : Assignment) : a.moved .erasing = a.erase := by
  rw [moved, erase, Expr.moved_erasing]
  rfl

theorem Assignment.moved_still (a : Assignment) : a.moved .still = a := by
  rw [moved, Expr.moved_still]
  rfl

mutual

theorem Statement.moved_erasing : ∀ s : Statement, s.moved .erasing = s.erase
  | .assign a => by rw [Statement.moved, Statement.erase, a.moved_erasing]
  | .print _ e _ => by rw [Statement.moved, Statement.erase, e.moved_erasing]; rfl
  | .block b => by rw [Statement.moved, Statement.erase, Block.moved_erasing b]
  | .conditional arms _ => by rw [Statement.moved, Statement.erase, Arms.moved_erasing arms]; rfl
  | .whileLoop e b _ => by
    rw [Statement.moved, Statement.erase, e.moved_erasing, Block.moved_erasing b]
    rfl
  | .forLoop init e e' b _ => by
    rw [Statement.moved, Statement.erase, e.moved_erasing, e'.moved_erasing, Block.moved_erasing b,
      funext Assignment.moved_erasing]
    rfl
  | .expression e _ => by rw [Statement.moved, Statement.erase, e.moved_erasing]; rfl

theorem Statement.movedAll_erasing :
    ∀ statements, Statement.movedAll .erasing statements = Statement.eraseAll statements
  | [] => rfl
  | s :: rest => by
    rw [Statement.movedAll, Statement.eraseAll, Statement.moved_erasing s,
      Statement.movedAll_erasing rest]

theorem Block.moved_erasing : ∀ b : Block, b.moved .erasing = b.erase
  | .mk statements _ => by
    rw [Block.moved, Block.erase, Statement.movedAll_erasing statements]
    rfl

theorem Arms.moved_erasing : ∀ arms : Arms, arms.moved .erasing = arms.erase
  | .done => rfl
  | .otherwise b => by rw [Arms.moved, Arms.erase, Block.moved_erasing b]
  | .arm e b _ rest => by
    rw [Arms.moved, Arms.erase, e.moved_erasing, Block.moved_erasing b, Arms.moved_erasing rest]
    rfl

end

mutual

theorem Statement.moved_still : ∀ s : Statement, s.moved .still = s
  | .assign a => by rw [Statement.moved, a.moved_still]
  | .print _ e _ => by rw [Statement.moved, e.moved_still]; rfl
  | .block b => by rw [Statement.moved, Block.moved_still b]
  | .conditional arms _ => by rw [Statement.moved, Arms.moved_still arms]; rfl
  | .whileLoop e b _ => by rw [Statement.moved, e.moved_still, Block.moved_still b]; rfl
  | .forLoop init e e' b _ => by
    rw [Statement.moved, e.moved_still, e'.moved_still, Block.moved_still b,
      funext Assignment.moved_still, Option.map_id']
    rfl
  | .expression e _ => by rw [Statement.moved, e.moved_still]; rfl

theorem Statement.movedAll_still : ∀ statements, Statement.movedAll .still statements = statements
  | [] => rfl
  | s :: rest => by
    rw [Statement.movedAll, Statement.moved_still s, Statement.movedAll_still rest]

theorem Block.moved_still : ∀ b : Block, b.moved .still = b
  | .mk statements _ => by rw [Block.moved, Statement.movedAll_still statements]; rfl

theorem Arms.moved_still : ∀ arms : Arms, arms.moved .still = arms
  | .done => rfl
  | .otherwise b => by rw [Arms.moved, Block.moved_still b]
  | .arm e b _ rest => by
    rw [Arms.moved, e.moved_still, Block.moved_still b, Arms.moved_still rest]
    rfl

end

/-! ## Chains -/

namespace Expr

variable (m : Move)

theorem span_moved (e : Expr) : (e.moved m).span = m.span e.span := by
  cases e <;> rfl

theorem moved_joined (op : BinaryOp) (left right : Expr) :
    (joined op left right).moved m = joined op (left.moved m) (right.moved m) := by
  rw [joined, joined, moved, span_moved, span_moved]
  simp only [Move.span, m.ends_none]

theorem moved_extend (left : Expr) (op : BinaryOp) (right : Expr) :
    (left.extend op right).moved m = (left.moved m).extend op (right.moved m) := by
  induction left with
  | binary last a b span _ ih =>
    rw [extend, moved, extend]
    split
    · rw [moved_joined, ih]
    · rw [moved_joined, moved]
  | integer | float | string | boolean | nil | name | group | unary | step | update =>
    exact moved_joined m op _ right

theorem moved_applied (leading : List (UnaryOp × Nat)) (value : Expr) :
    (applied leading value).moved m =
      applied (leading.map fun (op, start) => (op, m.offset start)) (value.moved m) := by
  induction leading generalizing value with
  | nil => rfl
  | cons first leading ih =>
    obtain ⟨op, start⟩ := first
    have hfirst : (Expr.unary op value ⟨start, value.span.stop, none⟩).moved m =
        .unary op (value.moved m) ⟨m.offset start, (value.moved m).span.stop, none⟩ := by
      rw [moved, span_moved]
      simp only [Move.span, m.ends_none]
    have hrest := ih (.unary op value ⟨start, value.span.stop, none⟩)
    rw [hfirst] at hrest
    exact hrest

theorem moved_attach (left : Option (Expr × BinaryOp)) (right : Expr) :
    (attach left right).moved m =
      attach (left.map fun (e, op) => (e.moved m, op)) (right.moved m) := by
  cases left with
  | none => rfl
  | some pair => exact moved_extend m pair.1 pair.2 right

theorem moved_ofItemsFrom (left : Option (Expr × BinaryOp)) (leading : List (UnaryOp × Nat))
    (items : List Item) :
    (ofItemsFrom left leading items).map (moved m) =
      ofItemsFrom (left.map fun (e, op) => (e.moved m, op))
        (leading.map fun (op, start) => (op, m.offset start)) (items.map (Item.moved m)) := by
  fun_induction ofItemsFrom left leading items with
  | case1 left leading op start rest ih => exact ih
  | case2 left leading value =>
    simp only [Option.map_some, List.map_cons, List.map_nil, Item.moved, ofItemsFrom, moved_attach,
      moved_applied]
  | case3 left leading value op rest ih =>
    simp only [Option.map_some, List.map_nil, moved_attach, moved_applied] at ih
    simp only [List.map_cons, Item.moved, ofItemsFrom, ih]
  | case4 items left leading hleading hlast hmore =>
    rcases items with _ | ⟨_ | value | op, rest⟩
    · rfl
    · exact absurd rfl (hleading _ _ _)
    · rcases rest with _ | ⟨_ | next | op, rest⟩
      · exact absurd rfl (hlast _)
      · rfl
      · rfl
      · exact absurd rfl (hmore _ _ _)
    · rfl

theorem moved_ofItems? (items : List Item) :
    (ofItems? items).map (moved m) = ofItems? (items.map (Item.moved m)) :=
  moved_ofItemsFrom m none [] items

end Expr

/-! ## Nodes that resemble each other -/

namespace Reader

/-- The first of the nodes starts at the given position. -/
def Touches (p : Position) (nodes : List (Node Rule)) : Prop :=
  ∃ node ∈ nodes.head?, p.offset = node.start.offset

mutual

/-- The same rules and tokens in both, at related positions. -/
inductive Resembles (At : Position → Position → Prop) : Node Rule → Node Rule → Prop
  | mk {rule : Rule} {start start' stop stop' : Position} {text text' : List Char}
      {children children' : List (Node Rule)} (hstart : At start start') (hstop : At stop stop')
      (htext : isToken rule = true → text' = text) (hchildren : AllResemble At children children') :
      Resembles At (.mk rule start stop text children) (.mk rule start' stop' text' children')

inductive AllResemble (At : Position → Position → Prop) :
    List (Node Rule) → List (Node Rule) → Prop
  | nil : AllResemble At [] []
  | cons {node node' : Node Rule} {nodes nodes' : List (Node Rule)} (hnode : Resembles At node node')
      (htouch : Touches node.stop nodes ↔ Touches node'.stop nodes')
      (hnodes : AllResemble At nodes nodes') : AllResemble At (node :: nodes) (node' :: nodes')

end

/-- Related positions are moved to the same places. -/
structure Meets (At : Position → Position → Prop) (m m' : Move) : Prop where
  offset : ∀ {p p'}, At p p' → m'.offset p'.offset = m.offset p.offset
  span : ∀ {p p' q q'}, At p p' → At q q' → m'.span (.between p' q') = m.span (.between p q)

/-- Where the first result is a tree, so is the second one, and they are moved to the same tree. -/
def Follows {α : Type} (moved : Move → α → α) (m m' : Move) (x y : Except ParseError α) : Prop :=
  ∀ a, x = .ok a → ∃ b, y = .ok b ∧ moved m' b = moved m a

namespace Follows

variable {α β : Type} {movedA : Move → α → α} {movedB : Move → β → β} {m m' : Move}

theorem ok {a b : α} (h : movedA m' b = movedA m a) : Follows movedA m m' (.ok a) (.ok b) := by
  rintro _ ⟨⟩
  exact ⟨b, rfl, h⟩

theorem error (e : ParseError) (y : Except ParseError α) : Follows movedA m m' (.error e) y :=
  nofun

theorem bind {x y : Except ParseError α} {f g : α → Except ParseError β}
    (h : Follows movedA m m' x y)
    (hf : ∀ a b, movedA m' b = movedA m a → Follows movedB m m' (f a) (g b)) :
    Follows movedB m m' (x >>= f) (y >>= g) := by
  intro c hc
  obtain ⟨a, rfl, ha⟩ := bind_eq_ok.1 hc
  obtain ⟨b, rfl, hb⟩ := h a rfl
  exact hf a b hb c ha

end Follows

section

variable {At : Position → Position → Prop} {m m' : Move} {node node' next next' : Node Rule}
  {nodes nodes' : List (Node Rule)}

theorem AllResemble.of_nil (h : AllResemble At [] nodes') : nodes' = [] := by
  cases h
  rfl

theorem AllResemble.of_cons (h : AllResemble At (node :: nodes) nodes') :
    ∃ node' rest, nodes' = node' :: rest ∧ Resembles At node node' ∧ AllResemble At nodes rest := by
  cases h with
  | cons hnode htouch hnodes => exact ⟨_, _, rfl, hnode, hnodes⟩

theorem AllResemble.of_append {back : List (Node Rule)}
    (h : AllResemble At (nodes ++ back) nodes') :
    ∃ front' back', nodes' = front' ++ back' ∧ AllResemble At nodes front' ∧
      AllResemble At back back' := by
  induction nodes generalizing nodes' with
  | nil => exact ⟨[], nodes', rfl, .nil, h⟩
  | cons node nodes ih =>
    cases h with
    | cons hnode htouch hnodes =>
      obtain ⟨front', back', rfl, hfront, hback⟩ := ih hnodes
      refine ⟨_ :: front', back', rfl, .cons hnode ?_ hfront, hback⟩
      -- what is touched is the first of the nodes, if there is one
      cases hfront with
      | nil => simp [Touches]
      | cons _ _ _ => simpa [Touches] using htouch

theorem AllResemble.length_eq (h : AllResemble At nodes nodes') :
    nodes'.length = nodes.length := by
  induction nodes generalizing nodes' with
  | nil => rw [h.of_nil]
  | cons node nodes ih =>
    obtain ⟨node', rest, rfl, -, hrest⟩ := h.of_cons
    exact congrArg (· + 1) (ih hrest)

theorem Resembles.rule_eq (h : Resembles At node node') : node'.rule = node.rule := by
  cases h
  rfl

theorem Resembles.text_eq (h : Resembles At node node') (htoken : isToken node.rule = true) :
    node'.text = node.text := by
  cases h with
  | mk hstart hstop htext hchildren => exact htext htoken

theorem Meets.joined (hmeets : Meets At m m') (hnode : Resembles At node node')
    (hnext : Resembles At next next') :
    m'.span ⟨node'.start.offset, next'.stop.offset, none⟩ =
      m.span ⟨node.start.offset, next.stop.offset, none⟩ := by
  cases hnode with
  | mk hstart _ _ _ =>
    cases hnext with
    | mk _ hstop _ _ =>
      simp only [Move.span, m.ends_none, m'.ends_none]
      exact Span.mk.injEq .. ▸ ⟨hmeets.offset hstart, hmeets.offset hstop, rfl⟩

theorem isMinimum_eq (hnode : Resembles At node node') (hnext : Resembles At next next')
    (htouch : Touches node.stop (next :: nodes) ↔ Touches node'.stop (next' :: nodes')) :
    isMinimum node' next' = isMinimum node next := by
  have hadjacent : node'.stop.offset = next'.start.offset ↔
      node.stop.offset = next.start.offset := by
    simpa [Touches] using htouch.symm
  unfold isMinimum
  rw [hnode.rule_eq, hnext.rule_eq]
  by_cases hrule : next.rule = .integer
  · rw [hnext.text_eq (by rw [hrule]; rfl)]
    simp [hadjacent]
  · simp [hrule]

theorem operatorOf?_moved (hmeets : Meets At m m') (h : Resembles At node node') :
    (operatorOf? node').map (Item.moved m') = (operatorOf? node).map (Item.moved m) := by
  have hoffset : m'.offset node'.start.offset = m.offset node.start.offset := by
    cases h with
    | mk hstart hstop htext hchildren => exact hmeets.offset hstart
  unfold operatorOf?
  rw [h.rule_eq]
  split
  · simp [Item.moved, hoffset]
  · simp [Item.moved, hoffset]
  · simp [Item.moved, Function.comp_def]

theorem readIdentifier_follows (hmeets : Meets At m m') (h : Resembles At node node') :
    Follows Identifier.moved m m' (readIdentifier node) (readIdentifier node') := by
  intro id hid
  obtain ⟨_, _, _, _, rfl, rfl⟩ := readIdentifier_ok hid
  cases h with
  | mk hstart hstop htext hchildren =>
    obtain rfl := htext rfl
    exact ⟨_, rfl, by rw [Identifier.moved, Identifier.moved, hmeets.span hstart hstop]⟩

theorem readUpdateOp_of_resembles (h : Resembles At node node') {op : UpdateOp}
    (hop : readUpdateOp node = .ok op) : readUpdateOp node' = .ok op := by
  unfold readUpdateOp at hop ⊢
  rw [h.rule_eq]
  split at hop
  · exact hop
  · cases hop

theorem readPrintMode_of_resembles (h : Resembles At node node') {mode : PrintMode}
    (hmode : readPrintMode node = .ok mode) : readPrintMode node' = .ok mode := by
  unfold readPrintMode at hmode ⊢
  rw [h.rule_eq]
  split at hmode
  · exact hmode
  · exact hmode
  · cases hmode

theorem readItems_follows (hmeets : Meets At m m') : ∀ {nodes nodes' : List (Node Rule)},
    AllResemble At nodes nodes' →
      (∀ node ∈ nodes, ∀ node', Resembles At node node' →
        Follows Expr.moved m m' (readPrimary node) (readPrimary node')) →
      Follows (fun m => List.map (Item.moved m)) m m' (readItems nodes) (readItems nodes')
  | [], _, .nil, _ => .ok rfl
  | [node], _, .cons hnode _ .nil, hprimary => by
    have hoperator := operatorOf?_moved hmeets hnode
    rw [readItems, readItems]
    cases hop : operatorOf? node with
    | none =>
      rw [hop] at hoperator
      rw [Option.map_eq_none_iff.1 hoperator]
      apply (hprimary node (by simp) _ hnode).bind
      intro e e' he
      exact .ok (by simp [Item.moved, he])
    | some item =>
      rw [hop] at hoperator
      obtain ⟨item', hop', hitem⟩ := Option.map_eq_some_iff.1 hoperator
      rw [hop']
      exact .ok (by simp [hitem])
  | node :: next :: rest, _, .cons hnode htouch (.cons hnext htouch' hrest), hprimary => by
    have hoperator := operatorOf?_moved hmeets hnode
    have hlater := readItems_follows hmeets (.cons hnext htouch' hrest)
      fun node hmem => hprimary node (List.mem_cons_of_mem _ hmem)
    rw [readItems, readItems, isMinimum_eq hnode hnext htouch]
    split
    · have hspan : m'.span ⟨_, _, none⟩ = m.span ⟨node.start.offset, next.stop.offset, none⟩ :=
        hmeets.joined hnode hnext
      have hrest' := readItems_follows hmeets hrest
        fun node hmem => hprimary node (List.mem_cons_of_mem _ (List.mem_cons_of_mem _ hmem))
      apply hrest'.bind
      intro items items' hitems
      exact .ok (by simp [Item.moved, Expr.moved, hspan, hitems])
    · cases hop : operatorOf? node with
      | none =>
        rw [hop] at hoperator
        rw [Option.map_eq_none_iff.1 hoperator]
        apply (hprimary node (by simp) _ hnode).bind
        intro e e' he
        apply hlater.bind
        intro items items' hitems
        exact .ok (by simp [Item.moved, he, hitems])
      | some item =>
        rw [hop] at hoperator
        obtain ⟨item', hop', hitem⟩ := Option.map_eq_some_iff.1 hoperator
        rw [hop']
        apply hlater.bind
        intro items items' hitems
        exact .ok (by simp [hitem, hitems])

/-- Expressions that are read from resembling nodes are moved to the same expression. -/
theorem readExpr_follows (hmeets : Meets At m m') (node : Node Rule) :
    (∀ node', Resembles At node node' →
        Follows Expr.moved m m' (readPrimary node) (readPrimary node')) ∧
      ∀ node', Resembles At node node' →
        Follows Expr.moved m m' (readExpr node) (readExpr node') := by
  induction node using Node.induction with
  | step rule start stop text children ih =>
    refine ⟨fun node' h e he => ?_, fun node' h e he => ?_⟩
    · obtain ⟨hstart, hstop, htext, hchildren⟩ := h
      have hspan := hmeets.span hstart hstop
      cases readPrimary_eq_ok.1 he with
      | integer hrange =>
        obtain rfl := htext rfl
        exact ⟨_, readPrimary_eq_ok.2 (.integer hrange), by rw [Expr.moved, Expr.moved, hspan]⟩
      | float | string =>
        obtain rfl := htext rfl
        exact ⟨_, rfl, by rw [Expr.moved, Expr.moved, hspan]⟩
      | nil => exact ⟨_, rfl, by rw [Expr.moved, Expr.moved, hspan]⟩
      | name =>
        obtain rfl := htext rfl
        exact ⟨_, rfl, by simp only [Expr.moved, Identifier.moved, hspan]⟩
      | boolean hword =>
        obtain ⟨word', _, rfl, hsame, hmore⟩ := hchildren.of_cons
        obtain rfl := hmore.of_nil
        rw [← hsame.rule_eq] at hword
        exact ⟨_, readPrimary_eq_ok.2 (.boolean hword), by rw [Expr.moved, Expr.moved, hspan]⟩
      | @group _ _ _ inner e hinner =>
        obtain ⟨_, _, rfl, hsame, hmore⟩ := hchildren.of_cons
        obtain rfl := hmore.of_nil
        obtain ⟨e', hinner', he⟩ := (ih inner (by simp)).2 _ hsame e hinner
        exact ⟨_, readPrimary_eq_ok.2 (.group hinner'), by rw [Expr.moved, Expr.moved, he, hspan]⟩
      | @update _ _ _ target operator value id op e htarget hop hvalue =>
        obtain ⟨_, _, rfl, hsame, hmore⟩ := hchildren.of_cons
        obtain ⟨_, _, rfl, hsameOp, hmore⟩ := hmore.of_cons
        obtain ⟨_, _, rfl, hsameValue, hmore⟩ := hmore.of_cons
        obtain rfl := hmore.of_nil
        obtain ⟨id', htarget', hid⟩ := readIdentifier_follows hmeets hsame id htarget
        have hop' := readUpdateOp_of_resembles hsameOp hop
        obtain ⟨e', hvalue', he⟩ := (ih value (by simp)).2 _ hsameValue e hvalue
        exact ⟨_, readPrimary_eq_ok.2 (.update htarget' hop' hvalue'),
          by rw [Expr.moved, Expr.moved, hid, he, hspan]⟩
      | @step _ _ _ _ _ _ target id hrule htarget =>
        obtain ⟨_, _, rfl, hsame, hmore⟩ := hchildren.of_cons
        obtain rfl := hmore.of_nil
        obtain ⟨id', htarget', hid⟩ := readIdentifier_follows hmeets hsame id htarget
        exact ⟨_, readPrimary_eq_ok.2 (.step hrule htarget'),
          by rw [Expr.moved, Expr.moved, hid, hspan]⟩
    · obtain ⟨hitems, hchain⟩ := readExpr_eq_ok.1 he
      obtain ⟨hstart, hstop, htext, hchildren⟩ := h
      obtain ⟨items', hitems', hsame⟩ :=
        readItems_follows hmeets hchildren (fun child hchild => (ih child hchild).1) _ hitems
      have hmoved : (Expr.ofItems? items').map (Expr.moved m') = some (e.moved m) := by
        rw [Expr.moved_ofItems?]
        exact (congrArg Expr.ofItems? hsame).trans (by rw [← Expr.moved_ofItems?, hchain]; rfl)
      obtain ⟨e', hchain', he'⟩ := Option.map_eq_some_iff.1 hmoved
      exact ⟨e', readExpr_eq_ok.2 (.mk hitems' hchain'), he'⟩

theorem readAssignment_follows (hmeets : Meets At m m') (h : Resembles At node node') :
    Follows Assignment.moved m m' (readAssignment node) (readAssignment node') := by
  intro a ha
  obtain ⟨htarget, hvalue⟩ := readAssignment_eq_ok.1 ha
  obtain ⟨hstart, hstop, htext, hchildren⟩ := h
  obtain ⟨_, _, rfl, hsame, hmore⟩ := hchildren.of_cons
  obtain ⟨_, _, rfl, hsameValue, hmore⟩ := hmore.of_cons
  obtain rfl := hmore.of_nil
  obtain ⟨id', htarget', hid⟩ := readIdentifier_follows hmeets hsame _ htarget
  obtain ⟨e', hvalue', he⟩ := (readExpr_follows hmeets _).2 _ hsameValue _ hvalue
  exact ⟨_, readAssignment_eq_ok.2 (.mk htarget' hvalue'),
    by simp only [Assignment.moved, hid, he, hmeets.span hstart hstop]⟩

theorem readStatements_follows {nodes nodes' : List (Node Rule)}
    (hnodes : AllResemble At nodes nodes')
    (hstatement : ∀ node ∈ nodes, ∀ node', Resembles At node node' →
      Follows Statement.moved m m' (readStatement node) (readStatement node')) :
    Follows Statement.movedAll m m' (readStatements nodes) (readStatements nodes') := by
  induction nodes generalizing nodes' with
  | nil =>
    obtain rfl := hnodes.of_nil
    exact .ok rfl
  | cons node nodes ih =>
    obtain ⟨_, _, rfl, hnode, hmore⟩ := hnodes.of_cons
    obtain ⟨hfirst, hrest⟩ := List.forall_mem_cons.1 hstatement
    rw [readStatements, readStatements]
    apply (hfirst _ hnode).bind
    intro s s' hs
    apply (ih hmore hrest).bind
    intro rest rest' hmoved
    exact .ok (by rw [Statement.movedAll, Statement.movedAll, hs, hmoved])

/-- The blocks of a clause are moved to the same block. -/
def ClauseFollows (At : Position → Position → Prop) (m m' : Move) : Node Rule → Prop
  | .mk _ _ _ _ children => ∀ child ∈ children, ∀ child', Resembles At child child' →
    Follows Block.moved m m' (readBlock child) (readBlock child')

theorem readArms_follows (hmeets : Meets At m m') {nodes nodes' : List (Node Rule)}
    (hnodes : AllResemble At nodes nodes') (hblock : ∀ node ∈ nodes, ClauseFollows At m m' node) :
    Follows Arms.moved m m' (readArms nodes) (readArms nodes') := by
  induction nodes generalizing nodes' with
  | nil =>
    obtain rfl := hnodes.of_nil
    exact .ok rfl
  | cons node nodes ih =>
    intro arms harms
    obtain ⟨_, _, rfl, hnode, hrest⟩ := hnodes.of_cons
    obtain ⟨hclause, hlater⟩ := List.forall_mem_cons.1 hblock
    cases readArms_eq_ok.1 harms with
    | @otherwise _ _ _ word body _ b hbody =>
      obtain ⟨-, -, -, hchildren⟩ := hnode
      obtain ⟨_, _, rfl, -, hmore⟩ := hchildren.of_cons
      obtain ⟨_, _, rfl, hsame, hmore⟩ := hmore.of_cons
      obtain rfl := hmore.of_nil
      obtain ⟨b', hbody', hb⟩ := hclause body (by simp) _ hsame b hbody
      exact ⟨_, readArms_eq_ok.2 (.otherwise hbody'), by rw [Arms.moved, Arms.moved, hb]⟩
    | @arm _ _ _ _ words _ condition body e b later hwords hcondition hbody hmore =>
      obtain ⟨hstart, hstop, -, hchildren⟩ := hnode
      obtain ⟨words', parts, rfl, hsameWords, hparts⟩ := hchildren.of_append
      obtain ⟨_, _, rfl, hsame, hparts⟩ := hparts.of_cons
      obtain ⟨_, _, rfl, hsameBody, hparts⟩ := hparts.of_cons
      obtain rfl := hparts.of_nil
      obtain ⟨e', hcondition', he⟩ := (readExpr_follows hmeets _).2 _ hsame e hcondition
      obtain ⟨b', hbody', hb⟩ := hclause body (by simp) _ hsameBody b hbody
      obtain ⟨later', hmore', harms⟩ := ih hrest hlater later hmore
      rw [← hsameWords.length_eq] at hwords
      exact ⟨_, readArms_eq_ok.2 (.arm hwords hcondition' hbody' hmore'),
        by rw [Arms.moved, Arms.moved, he, hb, harms, hmeets.span hstart hstop]⟩

/-- Statements that are read from resembling nodes are moved to the same statement. -/
theorem readStatement_follows (hmeets : Meets At m m') (node : Node Rule) :
    (∀ node', Resembles At node node' →
        Follows Statement.moved m m' (readStatement node) (readStatement node')) ∧
      (∀ node', Resembles At node node' →
        Follows Block.moved m m' (readBlock node) (readBlock node')) ∧
      ClauseFollows At m m' node := by
  induction node using Node.induction with
  | step rule start stop text children ih =>
    have hexpr : ∀ child child', Resembles At child child' →
        Follows Expr.moved m m' (readExpr child) (readExpr child') :=
      fun child => (readExpr_follows hmeets child).2
    have hblock : ∀ child ∈ children, ∀ child', Resembles At child child' →
        Follows Block.moved m m' (readBlock child) (readBlock child') :=
      fun child hchild => (ih child hchild).2.1
    have hbody : ∀ node', Resembles At (.mk rule start stop text children) node' →
        Follows Block.moved m m' (readBlock (.mk rule start stop text children))
          (readBlock node') := by
      intro node' h b hb
      obtain ⟨hread⟩ := readBlock_eq_ok.1 hb
      obtain ⟨hstart, hstop, -, hchildren⟩ := h
      obtain ⟨statements', hread', hs⟩ :=
        readStatements_follows hchildren (fun child hchild => (ih child hchild).1) _ hread
      exact ⟨_, readBlock_eq_ok.2 (.mk hread'),
        by rw [Block.moved, Block.moved, hs, hmeets.span hstart hstop]⟩
    refine ⟨fun node' h s hs => ?_, hbody, hblock⟩
    have hnode := h
    obtain ⟨hstart, hstop, -, hchildren⟩ := h
    have hspan := hmeets.span hstart hstop
    cases readStatement_eq_ok.1 hs with
    | assign hread =>
      obtain ⟨a', hread', ha⟩ := readAssignment_follows hmeets hnode _ hread
      exact ⟨_, readStatement_eq_ok.2 (.assign hread'),
        by rw [Statement.moved, Statement.moved, ha]⟩
    | @print _ _ _ word value mode e hmode hvalue =>
      obtain ⟨_, _, rfl, hsame, hmore⟩ := hchildren.of_cons
      obtain ⟨_, _, rfl, hsameValue, hmore⟩ := hmore.of_cons
      obtain rfl := hmore.of_nil
      have hmode' := readPrintMode_of_resembles hsame hmode
      obtain ⟨e', hvalue', he⟩ := hexpr _ _ hsameValue e hvalue
      exact ⟨_, readStatement_eq_ok.2 (.print hmode' hvalue'),
        by rw [Statement.moved, Statement.moved, he, hspan]⟩
    | block hread =>
      obtain ⟨b', hread', hb⟩ := hbody _ hnode _ hread
      exact ⟨_, readStatement_eq_ok.2 (.block hread'),
        by rw [Statement.moved, Statement.moved, hb]⟩
    | conditional hread =>
      obtain ⟨arms', hread', harms⟩ := readArms_follows hmeets hchildren
        (fun child hchild => (ih child hchild).2.2) _ hread
      exact ⟨_, readStatement_eq_ok.2 (.conditional hread'),
        by rw [Statement.moved, Statement.moved, harms, hspan]⟩
    | @whileLoop _ _ _ word condition body e b hcondition hloop =>
      obtain ⟨_, _, rfl, -, hmore⟩ := hchildren.of_cons
      obtain ⟨_, _, rfl, hsame, hmore⟩ := hmore.of_cons
      obtain ⟨_, _, rfl, hsameBody, hmore⟩ := hmore.of_cons
      obtain rfl := hmore.of_nil
      obtain ⟨e', hcondition', he⟩ := hexpr _ _ hsame e hcondition
      obtain ⟨b', hloop', hb⟩ := hblock body (by simp) _ hsameBody b hloop
      exact ⟨_, readStatement_eq_ok.2 (.whileLoop hcondition' hloop'),
        by rw [Statement.moved, Statement.moved, he, hb, hspan]⟩
    | @forLoop _ _ _ word init condition update body a e u b hinit hcondition hupdate hloop =>
      obtain ⟨_, _, rfl, -, hmore⟩ := hchildren.of_cons
      obtain ⟨_, _, rfl, hsameInit, hmore⟩ := hmore.of_cons
      obtain ⟨_, _, rfl, hsame, hmore⟩ := hmore.of_cons
      obtain ⟨_, _, rfl, hsameUpdate, hmore⟩ := hmore.of_cons
      obtain ⟨_, _, rfl, hsameBody, hmore⟩ := hmore.of_cons
      obtain rfl := hmore.of_nil
      obtain ⟨a', hinit', ha⟩ := readAssignment_follows hmeets hsameInit a hinit
      obtain ⟨e', hcondition', he⟩ := hexpr _ _ hsame e hcondition
      obtain ⟨u', hupdate', hu⟩ := hexpr _ _ hsameUpdate u hupdate
      obtain ⟨b', hloop', hb⟩ := hblock body (by simp) _ hsameBody b hloop
      exact ⟨_, readStatement_eq_ok.2 (.forLoop hinit' hcondition' hupdate' hloop'),
        by simp only [Statement.moved, Option.map_some, ha, he, hu, hb, hspan]⟩
    | @bareLoop _ _ _ word condition update body e u b hcondition hupdate hloop =>
      obtain ⟨_, _, rfl, -, hmore⟩ := hchildren.of_cons
      obtain ⟨_, _, rfl, hsame, hmore⟩ := hmore.of_cons
      obtain ⟨_, _, rfl, hsameUpdate, hmore⟩ := hmore.of_cons
      obtain ⟨_, _, rfl, hsameBody, hmore⟩ := hmore.of_cons
      obtain rfl := hmore.of_nil
      obtain ⟨e', hcondition', he⟩ := hexpr _ _ hsame e hcondition
      obtain ⟨u', hupdate', hu⟩ := hexpr _ _ hsameUpdate u hupdate
      obtain ⟨b', hloop', hb⟩ := hblock body (by simp) _ hsameBody b hloop
      exact ⟨_, readStatement_eq_ok.2 (.bareLoop hcondition' hupdate' hloop'),
        by simp only [Statement.moved, Option.map_none, he, hu, hb, hspan]⟩
    | @expression _ _ _ value e hvalue =>
      obtain ⟨_, _, rfl, hsame, hmore⟩ := hchildren.of_cons
      obtain rfl := hmore.of_nil
      obtain ⟨e', hvalue', he⟩ := hexpr _ _ hsame e hvalue
      exact ⟨_, readStatement_eq_ok.2 (.expression hvalue'),
        by rw [Statement.moved, Statement.moved, he, hspan]⟩

end

end Reader

end BlockScript
