import BlockScript.Proofs.Tree.RoundTrip
import BlockScript.Proofs.Tree.SpanTree

/-!
# Spans of what is read

Every tree that is read from a text has sound spans.  The spans of statements and operands are those
of their nodes; the spans of operations are put together from the spans of their operands, which lie
in the order of their chain.
-/

namespace BlockScript

open Grammar
open Peg (Node)
open Peg.Node (Follow Nests)
open SpanTree

/-! ## Chains -/

/-- The links of a chain lie one behind the other between two offsets. -/
def Item.InOrder (text : List Char) : Nat → List Item → Nat → Prop
  | first, [], last => first ≤ last
  | first, .leading _ start :: rest, last =>
    first ≤ start ∧ IsBoundary text start ∧ Item.InOrder text start rest last
  | first, .operand value :: rest, last =>
    first ≤ value.span.start ∧ value.spans.Sound text ∧ Item.InOrder text value.span.stop rest last
  | first, .infixed _ :: rest, last => Item.InOrder text first rest last

theorem Item.InOrder.mono {text : List Char} {first first' last : Nat} {items : List Item}
    (h : Item.InOrder text first items last) (hle : first' ≤ first) :
    Item.InOrder text first' items last := by
  induction items generalizing first first' with
  | nil => exact Nat.le_trans hle h
  | cons item items ih =>
    cases item with
    | leading op start => exact ⟨Nat.le_trans hle h.1, h.2⟩
    | operand value => exact ⟨Nat.le_trans hle h.1, h.2⟩
    | infixed op =>
      have hitems : Item.InOrder text first items last := h
      exact ih hitems hle

theorem Item.InOrder.split {text : List Char} {first last : Nat} {front back : List Item}
    (h : Item.InOrder text first (front ++ back) last) :
    ∃ mid, Item.InOrder text first front mid ∧ Item.InOrder text mid back last := by
  induction front generalizing first with
  | nil => exact ⟨first, Nat.le_refl first, h⟩
  | cons item front ih =>
    cases item with
    | leading op start =>
      obtain ⟨mid, hfront, hback⟩ := ih h.2.2
      exact ⟨mid, ⟨h.1, h.2.1, hfront⟩, hback⟩
    | operand value =>
      obtain ⟨mid, hfront, hback⟩ := ih h.2.2
      exact ⟨mid, ⟨h.1, h.2.1, hfront⟩, hback⟩
    | infixed op =>
      have hfront : Item.InOrder text first (front ++ back) last := h
      exact ih hfront

/-- The tree of a chain is as sound as its operands, and lies where the chain lies. -/
theorem Expr.sound_of_items {text : List Char} {e : Expr} (he : e.respanned = e) :
    ∀ {first last : Nat}, Item.InOrder text first e.items last →
      e.spans.Sound text ∧ first ≤ e.span.start ∧ e.span.stop ≤ last := by
  induction e with
  | unary op operand span ih =>
    intro first last h
    obtain ⟨hoperand, hspan⟩ : operand.respanned = operand ∧
        (⟨span.start, operand.respanned.span.stop, none⟩ : Span) = span := by
      simpa [respanned] using he
    rw [hoperand] at hspan
    obtain ⟨hfirst, hstart, hrest⟩ := h
    obtain ⟨hsound, hle, hlast⟩ := ih hoperand hrest
    rw [← hspan]
    rw [← Expr.span_spans operand] at hle hlast ⊢
    refine ⟨?_, hfirst, hlast⟩
    exact InOrder.whole ⟨hle, hsound, Nat.le_refl _⟩ hstart hsound.placed.stop (by simp)
  | binary op left right span ihLeft ihRight =>
    intro first last h
    obtain ⟨hleft, hright, hspan⟩ : left.respanned = left ∧ right.respanned = right ∧
        (⟨left.respanned.span.start, right.respanned.span.stop, none⟩ : Span) = span := by
      simpa [respanned, joined] using he
    rw [hleft, hright] at hspan
    obtain ⟨mid, hfront, hback⟩ := Item.InOrder.split h
    obtain ⟨hsoundLeft, hfirst, hmid⟩ := ihLeft hleft hfront
    obtain ⟨hsoundRight, hmid', hlast⟩ := ihRight hright hback
    rw [← hspan]
    rw [← Expr.span_spans] at hfirst hmid hmid' hlast
    rw [← Expr.span_spans left, ← Expr.span_spans right]
    refine ⟨?_, hfirst, hlast⟩
    exact InOrder.whole ⟨Nat.le_refl _, hsoundLeft, Nat.le_trans hmid hmid', hsoundRight,
      Nat.le_refl _⟩ hsoundLeft.placed.start hsoundRight.placed.stop (by simp)
  | _ =>
    intro first last h
    exact ⟨h.2.1, h.1, h.2.2⟩

theorem Expr.respanned_of_ofItems? {items : List Item} {e : Expr}
    (hatoms : ∀ v, .operand v ∈ items → v.isAtom = true) (h : ofItems? items = some e) :
    e.respanned = e := by
  have hread := (ofItems?_grouped hatoms h).ofItems?
  rw [ofItems?_items hatoms h, h] at hread
  exact (Option.some.inj hread).symm

namespace Reader

/-! ## Reading expressions -/

variable {text : List Char}

/-- A sound tree that lies in the text of a node. -/
structure Covers (text : List Char) (node : Node Rule) (tree : SpanTree) : Prop where
  sound : tree.Sound text
  start_le : node.start.offset ≤ tree.span.start
  stop_le : tree.span.stop ≤ node.stop.offset

theorem Covers.inOrder {node : Node Rule} {tree : SpanTree} {trees : List SpanTree}
    {first last : Nat} (h : Covers text node tree) (hfirst : first ≤ node.start.offset)
    (hrest : InOrder text node.stop.offset trees last) :
    InOrder text first (tree :: trees) last :=
  ⟨Nat.le_trans hfirst h.start_le, h.sound, hrest.mono h.stop_le⟩

/-- A tree with the span of its node covers the node if its parts lie in order in the node. -/
theorem covers_whole {node : Node Rule} {trees : List SpanTree} (hnode : node.Nests text)
    (h : InOrder text node.start.offset trees node.stop.offset) :
    Covers text node (.mk (spanOf node) false trees) :=
  ⟨InOrder.whole h hnode.isBoundary_start hnode.isBoundary_stop (by simp), Nat.le_refl _,
    Nat.le_refl _⟩

theorem covers_leaf {node : Node Rule} (hnode : node.Nests text) :
    Covers text node (.mk (spanOf node) false []) :=
  covers_whole hnode hnode.start_le_stop

theorem covers_readIdentifier {node : Node Rule} {id : Identifier} (hnode : node.Nests text)
    (h : readIdentifier node = .ok id) : Covers text node (.mk id.span false []) := by
  obtain ⟨_, _, _, _, rfl, rfl⟩ := readIdentifier_ok h
  exact covers_leaf hnode

theorem inOrder_readItems {nodes : List (Node Rule)} {items : List Item}
    (h : readItems nodes = .ok items) (hnests : ∀ node ∈ nodes, node.Nests text)
    (hcovers : ∀ node ∈ nodes, ∀ e, readPrimary node = .ok e → Covers text node e.spans)
    {first last : Nat} (hfollow : Follow first nodes last) :
    Item.InOrder text first items last := by
  revert hnests hcovers first
  refine readItems_induction (motive := fun nodes items => (∀ node ∈ nodes, node.Nests text) →
    (∀ node ∈ nodes, ∀ e, readPrimary node = .ok e → Covers text node e.spans) →
      ∀ {first : Nat}, Follow first nodes last → Item.InOrder text first items last)
    ?_ ?_ ?_ ?_ nodes items h
  · intro _ _ first hfollow
    exact hfollow
  · intro sign digits rest later ih hnests hcovers first hfollow
    obtain ⟨hsign, hrest⟩ := List.forall_mem_cons.1 hnests
    obtain ⟨hdigits, hrest⟩ := List.forall_mem_cons.1 hrest
    obtain ⟨hfirst, hnext, hfollow⟩ := hfollow
    have hle : sign.start.offset ≤ digits.stop.offset :=
      Nat.le_trans hsign.start_le_stop (Nat.le_trans hnext hdigits.start_le_stop)
    refine ⟨hfirst, ?_, ih hrest (fun node hnode => hcovers node (by simp [hnode])) hfollow⟩
    exact InOrder.whole hle hsign.isBoundary_start hdigits.isBoundary_stop (by simp)
  · intro node rest item later hitem ih hnests hcovers first hfollow
    obtain ⟨hnode, hrest⟩ := List.forall_mem_cons.1 hnests
    obtain ⟨hfirst, hfollow⟩ := hfollow
    have hlater := ih hrest (fun node hnode => hcovers node (by simp [hnode])) hfollow
    have hle := hnode.start_le_stop
    obtain ⟨op, rfl⟩ | ⟨op, rfl⟩ := operatorOf?_eq_some hitem
    · exact ⟨hfirst, hnode.isBoundary_start, hlater.mono hle⟩
    · exact hlater.mono (Nat.le_trans hfirst hle)
  · intro node rest e later he ih hnests hcovers first hfollow
    obtain ⟨hnode, hrest⟩ := List.forall_mem_cons.1 hnests
    obtain ⟨hfirst, hfollow⟩ := hfollow
    have hlater := ih hrest (fun node hnode => hcovers node (by simp [hnode])) hfollow
    obtain ⟨hsound, hstart, hstop⟩ := hcovers node (by simp) e he
    rw [Expr.span_spans] at hstart hstop
    exact ⟨Nat.le_trans hfirst hstart, hsound, hlater.mono hstop⟩

theorem covers_of_nests (node : Node Rule) (hnode : node.Nests text) :
    (∀ e, readExpr node = .ok e → Covers text node e.spans) ∧
      ∀ e, readPrimary node = .ok e → Covers text node e.spans := by
  induction node using Peg.Node.induction with
  | step rule start stop w children ih =>
    have hwhole : ∀ trees, InOrder text start.offset trees stop.offset →
        Covers text (.mk rule start stop w children) (.mk (.between start stop) false trees) :=
      fun _ => covers_whole hnode
    have hleaf := covers_leaf hnode
    obtain ⟨-, -, -, hfollow, hchildren⟩ := hnode
    constructor
    · intro e he
      obtain ⟨hitems, hchain⟩ := readExpr_eq_ok.1 he
      have hatoms := forall_operand_of_readItems (P := fun v => v.isAtom = true) (fun _ => rfl)
        hitems fun node _ v hv => (readPrimary_ok hv).1
      have hinOrder := inOrder_readItems hitems hchildren
        (fun child hchild => (ih child hchild (hchildren child hchild)).2) hfollow
      rw [← Expr.ofItems?_items hatoms hchain] at hinOrder
      obtain ⟨hsound, hstart, hstop⟩ :=
        Expr.sound_of_items (Expr.respanned_of_ofItems? hatoms hchain) hinOrder
      rw [← Expr.span_spans] at hstart hstop
      exact ⟨hsound, hstart, hstop⟩
    · intro e he
      cases readPrimary_eq_ok.1 he with
      | @group _ _ _ inner e' hinner =>
        have hcovers := (ih inner (by simp) (hchildren inner (by simp))).1 e' hinner
        exact hwhole _ (hcovers.inOrder hfollow.1 hfollow.2)
      | @update _ _ _ target operator value _ _ e' htarget _ hvalue =>
        obtain ⟨hstart, hoperator, hvalueAt, hstop⟩ := hfollow
        have hcoversTarget := covers_readIdentifier (hchildren target (by simp)) htarget
        have hcoversValue := (ih value (by simp) (hchildren value (by simp))).1 e' hvalue
        have hle := (hchildren operator (by simp)).start_le_stop
        exact hwhole _ (hcoversTarget.inOrder hstart (hcoversValue.inOrder (by omega) hstop))
      | @step _ _ _ _ _ _ target _ _ htarget =>
        have hcovers := covers_readIdentifier (hchildren target (by simp)) htarget
        exact hwhole _ (hcovers.inOrder hfollow.1 hfollow.2)
      | _ => exact hleaf

/-! ## Reading statements -/

theorem readAssignment_covers {node : Node Rule} {a : Assignment} (hnode : node.Nests text)
    (h : readAssignment node = .ok a) : Covers text node a.spans := by
  obtain ⟨htarget, hvalue⟩ := readAssignment_eq_ok.1 h
  refine covers_whole hnode ?_
  obtain ⟨-, -, -, ⟨hstart, hvalueAt, hstop⟩, hchildren⟩ := hnode
  have hcoversTarget := covers_readIdentifier (hchildren _ (by simp)) htarget
  have hcoversValue := (covers_of_nests _ (hchildren _ (by simp))).1 _ hvalue
  exact hcoversTarget.inOrder hstart (hcoversValue.inOrder hvalueAt hstop)

theorem readStatements_inOrder {nodes : List (Node Rule)} {statements : List Statement}
    {first last : Nat} (h : readStatements nodes = .ok statements)
    (hnodes : ∀ node ∈ nodes, ∀ s, readStatement node = .ok s → Covers text node s.spans)
    (hfollow : Follow first nodes last) :
    InOrder text first (Statement.spansAll statements) last := by
  induction nodes generalizing statements first with
  | nil =>
    cases h
    exact hfollow
  | cons node nodes ih =>
    obtain ⟨hnode, hrest⟩ := List.forall_mem_cons.1 hnodes
    obtain ⟨s, rest, hs, hrest', rfl⟩ := readStatements_cons_eq_ok.1 h
    exact (hnode s hs).inOrder hfollow.1 (ih hrest' hrest hfollow.2)

/-- What is read from the parts of a clause covers them. -/
def ClauseCovers (text : List Char) : Node Rule → Prop
  | .mk _ _ _ _ children => ∀ child ∈ children, (∀ e, readExpr child = .ok e →
    Covers text child e.spans) ∧ ∀ b, readBlock child = .ok b → Covers text child b.spans

theorem readArms_inOrder {nodes : List (Node Rule)} {arms : Arms} {first last : Nat}
    (h : readArms nodes = .ok arms)
    (hnodes : ∀ node ∈ nodes, node.Nests text ∧ ClauseCovers text node)
    (hfollow : Follow first nodes last) : InOrder text first arms.spans last := by
  induction nodes generalizing arms first with
  | nil =>
    cases h
    exact hfollow
  | cons node nodes ih =>
    obtain ⟨⟨hnode, hclause⟩, hrest⟩ := List.forall_mem_cons.1 hnodes
    obtain ⟨hfirst, hlater⟩ := hfollow
    have hlast := hlater.le fun node hnode => (hrest node hnode).1
    obtain ⟨rule, start, stop, w, children⟩ := node
    have hwhole : ∀ trees, InOrder text start.offset trees stop.offset →
        Covers text (.mk rule start stop w children) (.mk (.between start stop) false trees) :=
      fun _ => covers_whole hnode
    obtain ⟨-, -, -, hfollow, hchildren⟩ := hnode
    cases readArms_eq_ok.1 h with
    | @otherwise _ _ _ word body _ b hbody =>
      obtain ⟨hstart, hbodyAt, hstop⟩ := hfollow
      have hword := (hchildren word (by simp)).start_le_stop
      have hbound := Nat.le_trans hfirst (Nat.le_trans hstart (Nat.le_trans hword hbodyAt))
      exact ((hclause body (by simp)).2 b hbody).inOrder hbound (Nat.le_trans hstop hlast)
    | @arm _ _ _ _ words _ condition body e b _ _ hcondition hbody hmore =>
      obtain ⟨hconditionAt, hbodyAt, hstop⟩ :=
        hfollow.behind fun word hword => hchildren word (by simp [hword])
      have hcovers := (hclause condition (by simp)).1 e hcondition
      have hcoversBody := (hclause body (by simp)).2 b hbody
      have harm := hwhole [e.spans, b.spans]
        (hcovers.inOrder hconditionAt (hcoversBody.inOrder hbodyAt hstop))
      exact harm.inOrder hfirst (ih hmore hrest hlater)

/-- The statements of a block are all that its braces hold. -/
theorem covers_block {start stop : Position} {w : List Char} {children : List (Node Rule)}
    {statements : List Statement}
    (hproduced : rules.Produced (.mk .block start stop w children))
    (hnode : (Node.mk Rule.block start stop w children).Nests text)
    (hread : readStatements children = .ok statements)
    (hinOrder : InOrder text start.offset (Statement.spansAll statements) stop.offset) :
    Covers text (.mk .block start stop w children)
      (Block.mk statements (.between start stop)).spans := by
  have hbraces : Braces text (.between start stop)
      ((Statement.spansAll statements).map SpanTree.span) := by
    obtain ⟨rest, hmatch⟩ := hproduced
    obtain ⟨inner, rfl, hinner⟩ := interleaved_of_block hmatch
    obtain ⟨htext, hstart, hstop, -, -⟩ := hnode
    rw [Statement.map_span_spansAll, readStatements_spans hread]
    exact ⟨_, inner, _, htext, hstart, hstop, hinner⟩
  exact ⟨InOrder.whole hinOrder hnode.isBoundary_start hnode.isBoundary_stop fun _ => hbraces,
    Nat.le_refl _, Nat.le_refl _⟩

/-- Statements, blocks and the parts of clauses cover the nodes that they are read from. -/
theorem statement_covers (node : Node Rule) (hproduced : rules.Produced node)
    (hnode : node.Nests text) :
    (∀ s, readStatement node = .ok s → Covers text node s.spans) ∧
      (∀ b, readBlock node = .ok b → Covers text node b.spans) ∧ ClauseCovers text node := by
  induction node using Peg.Node.induction with
  | step rule start stop w children ih =>
    have hwhole : ∀ trees, InOrder text start.offset trees stop.offset →
        Covers text (.mk rule start stop w children) (.mk (.between start stop) false trees) :=
      fun _ => covers_whole hnode
    have hbraced := hnode
    obtain ⟨-, -, -, hfollow, hchildren⟩ := hnode
    have hparts := fun child hchild =>
      ih child hchild (hproduced.child child hchild) (hchildren child hchild)
    have hexpr := fun child hchild => (covers_of_nests child (hchildren child hchild)).1
    have hblock := fun child hchild => (hparts child hchild).2.1
    have hle := fun child hchild => (hchildren child hchild).start_le_stop
    have hbody : ∀ b, readBlock (.mk rule start stop w children) = .ok b →
        Covers text (.mk rule start stop w children) b.spans := by
      intro b hb
      obtain ⟨hread⟩ := readBlock_eq_ok.1 hb
      exact covers_block hproduced hbraced hread
        (readStatements_inOrder hread (fun child hchild => (hparts child hchild).1) hfollow)
    refine ⟨fun s hs => ?_, hbody, fun child hchild => ⟨hexpr child hchild, hblock child hchild⟩⟩
    cases readStatement_eq_ok.1 hs with
    | assign ha => exact readAssignment_covers hbraced ha
    | @print _ _ _ word value _ e _ hvalue =>
      obtain ⟨hstart, hvalueAt, hstop⟩ := hfollow
      have hword := hle word (by simp)
      exact hwhole _ ((hexpr value (by simp) e hvalue).inOrder (by omega) hstop)
    | block hb => exact hbody _ hb
    | conditional harms =>
      refine hwhole _ (readArms_inOrder harms (fun child hchild => ?_) hfollow)
      exact ⟨hchildren child hchild, (hparts child hchild).2.2⟩
    | @whileLoop _ _ _ word condition body e b hcondition hloop =>
      obtain ⟨hstart, hconditionAt, hbodyAt, hstop⟩ := hfollow
      have hword := hle word (by simp)
      have hcovers := hexpr condition (by simp) e hcondition
      have hcoversBody := hblock body (by simp) b hloop
      exact hwhole _ (hcovers.inOrder (by omega) (hcoversBody.inOrder hbodyAt hstop))
    | @forLoop _ _ _ word init condition update body a e e' b hinit hcondition hupdate hloop =>
      obtain ⟨hstart, hinitAt, hconditionAt, hupdateAt, hbodyAt, hstop⟩ := hfollow
      have hword := hle word (by simp)
      have hcoversInit := readAssignment_covers (hchildren init (by simp)) hinit
      have hcovers := hexpr condition (by simp) e hcondition
      have hcoversUpdate := hexpr update (by simp) e' hupdate
      have hcoversBody := hblock body (by simp) b hloop
      refine hwhole _ (hcoversInit.inOrder (by omega) ?_)
      exact hcovers.inOrder hconditionAt (hcoversUpdate.inOrder hupdateAt
        (hcoversBody.inOrder hbodyAt hstop))
    | @bareLoop _ _ _ word condition update body e e' b hcondition hupdate hloop =>
      obtain ⟨hstart, hconditionAt, hupdateAt, hbodyAt, hstop⟩ := hfollow
      have hword := hle word (by simp)
      have hcovers := hexpr condition (by simp) e hcondition
      have hcoversUpdate := hexpr update (by simp) e' hupdate
      have hcoversBody := hblock body (by simp) b hloop
      refine hwhole _ (hcovers.inOrder (by omega) ?_)
      exact hcoversUpdate.inOrder hupdateAt (hcoversBody.inOrder hbodyAt hstop)
    | @expression _ _ _ value e hvalue =>
      exact hwhole _ ((hexpr value (by simp) e hvalue).inOrder hfollow.1 hfollow.2)

end Reader

open Reader in
/-- A program covers its whole text, its spans are sound, and only separators are left out. -/
theorem Program.sound_of_parse {source : String} {file : Option String} {p : Program}
    (h : Program.parse source file = .ok p) :
    p.span.start = 0 ∧ p.span.stop = byteLength source.toList ∧ p.spans.Sound source.toList ∧
      Interleaved IsLayout 0 (p.statements.map Statement.span) source.toList := by
  obtain ⟨nodes, last, hread, hstatements, hspan⟩ := Program.reads_of_parse h
  obtain ⟨hfollow, hnests⟩ := hread.nests [] rfl
  rw [List.append_nil, List.nil_append] at hnests
  have hstop : (Position.start.afterAll source.toList).offset = byteLength source.toList := by
    rw [Position.offset_afterAll, Position.start, Nat.zero_add]
  have hcovers : ∀ node ∈ nodes, ∀ s, readStatement node = .ok s →
      Covers source.toList node s.spans := fun node hnode =>
    (statement_covers node (hread.produced node (by simp [hnode]))
      (hnests node (by simp [hnode]))).1
  have hlast : ∀ node ∈ [last], node.Nests source.toList := by
    simpa using hnests last (by simp)
  have hinOrder := readStatements_inOrder hstatements hcovers (hfollow.of_append hlast)
  rw [Position.start, Nat.zero_add, ← hstop] at hinOrder
  refine ⟨by rw [hspan]; rfl, by rw [hspan, ← hstop]; rfl, ?_, ?_⟩
  · rw [Program.spans, hspan]
    exact InOrder.whole hinOrder ⟨[], _, rfl, rfl⟩ ⟨_, [], by simp, hstop⟩ (by simp)
  · rw [readStatements_spans hstatements]
    exact interleaved_of_program hread

end BlockScript
