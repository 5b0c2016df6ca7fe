import BlockScript.Proofs.Tree.Itemized
import BlockScript.Proofs.Tree.Soundness

/-!
# The one tree of a sequence of operators and operands

The nodes of an expression are operands with binary operators between them, each operand behind any
number of operators of its own.  Such a sequence is always read as a tree.  The tree gives the
sequence back when it is read in order, it is grouped by precedence, and no other tree does both.
-/

namespace BlockScript

open Peg (Node)

/-! ## Trees in order -/

/-- What stands at one place of a sequence. -/
inductive Link where
  | leading (op : UnaryOp)
  | operand (value : Expr)
  | infixed (op : BinaryOp)

def Item.link : Item → Link
  | .leading op _ => .leading op
  | .operand value => .operand value
  | .infixed op => .infixed op

/-- The link at the start of the text. -/
def Link.item : Link → Item
  | .leading op => .leading op 0
  | .operand value => .operand value
  | .infixed op => .infixed op

namespace Expr

/-- The links of a tree: an operator before its operand, a binary one between its operands. -/
def inOrder : Expr → List Link
  | .unary op operand _ => .leading op :: operand.inOrder
  | .binary op left right _ => left.inOrder ++ .infixed op :: right.inOrder
  | e => [.operand e]

/-- The tree with the spans of its operations forgotten; those of its operands remain. -/
def skeleton : Expr → Expr
  | .unary op operand _ => .unary op operand.skeleton default
  | .binary op left right _ => .binary op left.skeleton right.skeleton default
  | e => e

theorem map_link_items (e : Expr) : e.items.map Item.link = e.inOrder := by
  induction e with
  | unary op operand span ih => simp [items, inOrder, Item.link, ih]
  | binary op left right span ihl ihr => simp [items, inOrder, Item.link, ihl, ihr]
  | _ => rfl

theorem items_skeleton (e : Expr) : e.skeleton.items = e.inOrder.map Link.item := by
  induction e with
  | unary op operand span ih =>
    rw [skeleton, items, ih]
    rfl
  | binary op left right span ihl ihr =>
    rw [skeleton, items, ihl, ihr, inOrder, List.map_append]
    rfl
  | _ => rfl

theorem isBinary_skeleton (e : Expr) : e.skeleton.isBinary = e.isBinary := by
  cases e <;> rfl

theorem bindsFrom_skeleton (e : Expr) (n : Nat) : e.skeleton.BindsFrom n ↔ e.BindsFrom n := by
  cases e <;> rfl

theorem grouped_skeleton (e : Expr) : e.skeleton.Grouped ↔ e.Grouped := by
  induction e with
  | unary op operand span ih => simp only [skeleton, Grouped, isBinary_skeleton, ih]
  | binary op left right span ihl ihr =>
    simp only [skeleton, Grouped, bindsFrom_skeleton, ihl, ihr]
  | _ => rfl

theorem skeleton_respanned (e : Expr) : e.respanned.skeleton = e.skeleton := by
  induction e with
  | unary op operand span ih => simp only [respanned, skeleton, ih]
  | binary op left right span ihl ihr => simp only [respanned, joined, skeleton, ihl, ihr]
  | _ => rfl

theorem skeleton_skeleton (e : Expr) : e.skeleton.skeleton = e.skeleton := by
  induction e with
  | unary op operand span ih => simp only [skeleton, ih]
  | binary op left right span ihl ihr => simp only [skeleton, ihl, ihr]
  | _ => rfl

/-- A grouped tree is determined by its links. -/
theorem Grouped.skeleton_eq {e e' : Expr} (h : e.Grouped) (h' : e'.Grouped)
    (horder : e'.inOrder = e.inOrder) : e'.skeleton = e.skeleton := by
  have hitems : e'.skeleton.items = e.skeleton.items := by
    rw [items_skeleton, items_skeleton, horder]
  have hread := ((grouped_skeleton e).2 h).ofItems?
  have hread' := ((grouped_skeleton e').2 h').ofItems?
  rw [hitems, hread] at hread'
  have hrespanned : e.skeleton.respanned = e'.skeleton.respanned := Option.some.inj hread'
  calc
    e'.skeleton = e'.skeleton.respanned.skeleton := by
      rw [skeleton_respanned, skeleton_skeleton]
    _ = e.skeleton.respanned.skeleton := by rw [hrespanned]
    _ = e.skeleton := by rw [skeleton_respanned, skeleton_skeleton]

end Expr

/-! ## Sequences of nodes -/

def UnaryOp.rule : UnaryOp → Rule
  | .not => .notOperator
  | .negate => .negateOperator

def BinaryOp.rule : BinaryOp → Rule
  | .or => .orOperator
  | .and => .andOperator
  | .equal => .equalOperator
  | .notEqual => .notEqualOperator
  | .less => .lessOperator
  | .lessEqual => .lessEqualOperator
  | .greater => .greaterOperator
  | .greaterEqual => .greaterEqualOperator
  | .add => .addOperator
  | .subtract => .subtractOperator
  | .multiply => .multiplyOperator
  | .divide => .divideOperator
  | .modulo => .moduloOperator

namespace Reader

/-- The nodes of one operand.  There are two where a minus sign directly before digits makes them
the least integer, which the digits alone do not write. -/
inductive Denotes : List (Node Rule) → Expr → Prop
  | primary {node : Node Rule} {e : Expr} (h : readPrimary node = .ok e) : Denotes [node] e
  | least {sign digits : Node Rule} (hsign : sign.rule = .negateOperator)
      (hdigits : digits.rule = .integer) (htext : digits.text = "9223372036854775808".toList)
      (hadjacent : sign.stop.offset = digits.start.offset) :
      Denotes [sign, digits]
        (.integer Int64.minValue ⟨sign.start.offset, digits.stop.offset, none⟩)

/-- Operands behind any number of operators, with a binary operator between any two of them. -/
inductive Sequence : List (Node Rule) → List Link → Prop
  | leading {op : UnaryOp} {node : Node Rule} {nodes : List (Node Rule)} {links : List Link}
      (hnode : node.rule = op.rule) (hnodes : Sequence nodes links) :
      Sequence (node :: nodes) (.leading op :: links)
  | last {nodes : List (Node Rule)} {e : Expr} (h : Denotes nodes e) :
      Sequence nodes [.operand e]
  | infixed {op : BinaryOp} {front nodes : List (Node Rule)} {node : Node Rule} {e : Expr}
      {links : List Link} (hfront : Denotes front e) (hnode : node.rule = op.rule)
      (hnodes : Sequence nodes links) :
      Sequence (front ++ node :: nodes) (.operand e :: .infixed op :: links)

theorem operatorOf?_leading {node : Node Rule} {op : UnaryOp} (h : node.rule = op.rule) :
    operatorOf? node = some (.leading op node.start.offset) := by
  rw [operatorOf?, h]
  cases op <;> rfl

theorem operatorOf?_infixed {node : Node Rule} {op : BinaryOp} (h : node.rule = op.rule) :
    operatorOf? node = some (.infixed op) := by
  rw [operatorOf?, h]
  cases op <;> rfl

theorem operatorOf?_primary {node : Node Rule} {e : Expr} (h : readPrimary node = .ok e) :
    operatorOf? node = none := by
  cases readPrimary_eq_ok.1 h with
  | @step _ direction fixity _ _ _ _ _ hrule =>
    subst hrule
    cases direction <;> cases fixity <;> rfl
  | _ => rfl

/-- The digits of the least integer are no operand without their sign. -/
theorem readPrimary_minimumDigits {node : Node Rule} (hrule : node.rule = .integer)
    (htext : node.text = minimumDigits) (e : Expr) : readPrimary node ≠ .ok e := by
  obtain ⟨rule, start, stop, text, children⟩ := node
  obtain rfl : rule = .integer := hrule
  obtain rfl : text = minimumDigits := htext
  intro h
  rw [readPrimary] at h
  have hrange := (readInteger_ok h).1
  exact absurd hrange (by decide)

theorem Denotes.isAtom {nodes : List (Node Rule)} {e : Expr} (h : Denotes nodes e) :
    e.isAtom = true := by
  cases h with
  | primary h => exact (readPrimary_ok h).1
  | least => rfl

theorem Denotes.readItems {front nodes : List (Node Rule)} {e : Expr} {items : List Item}
    (h : Denotes front e) (hnodes : readItems nodes = .ok items) :
    Reader.readItems (front ++ nodes) = .ok (.operand e :: items) := by
  cases h with
  | primary h =>
    rw [List.singleton_append]
    exact readItems_cons_operand (operatorOf?_primary h) h hnodes
  | @least sign digits hsign hdigits htext hadjacent =>
    have hminimum : digits.text = minimumDigits := htext
    have hleast : isMinimum sign digits = true := by
      simp [isMinimum, hsign, hdigits, hminimum, hadjacent]
    rw [List.cons_append, List.cons_append, Reader.readItems, if_pos hleast, List.nil_append,
      hnodes]
    rfl

/-- An operand does not begin with the digits of the least integer. -/
theorem Denotes.head {front behind rest : List (Node Rule)} {next : Node Rule} {e : Expr}
    (h : Denotes front e) (hnext : front ++ behind = next :: rest) :
    ¬(next.rule = .integer ∧ next.text = minimumDigits) := by
  rintro ⟨hrule, htext⟩
  cases h with
  | primary h =>
    obtain rfl := (List.cons.inj hnext).1
    exact readPrimary_minimumDigits hrule htext e h
  | least hsign =>
    obtain rfl := (List.cons.inj hnext).1
    rw [hrule] at hsign
    cases hsign

theorem Sequence.head {nodes rest : List (Node Rule)} {links : List Link} {next : Node Rule}
    (h : Sequence nodes links) (hnext : nodes = next :: rest) :
    ¬(next.rule = .integer ∧ next.text = minimumDigits) := by
  cases h with
  | @leading op node nodes links hnode hnodes =>
    rintro ⟨hrule, -⟩
    obtain rfl := (List.cons.inj hnext).1
    rw [hrule] at hnode
    cases op <;> cases hnode
  | last hoperand =>
    rw [← List.append_nil nodes] at hnext
    exact hoperand.head hnext
  | infixed hoperand hnode hnodes => exact hoperand.head hnext

/-- A minus sign before a sequence never makes its first node the least integer. -/
theorem Sequence.isMinimum_eq_false {nodes rest : List (Node Rule)} {links : List Link}
    (h : Sequence nodes links) (sign next : Node Rule) (hnext : nodes = next :: rest) :
    isMinimum sign next = false := by
  have hhead := h.head hnext
  simp only [isMinimum, Bool.and_eq_false_iff, decide_eq_false_iff_not]
  by_cases hrule : next.rule = .integer
  · exact .inl (.inr fun htext => hhead ⟨hrule, htext⟩)
  · exact .inl (.inl (.inr hrule))

/-- The items of a sequence are its links, and they denote a tree behind whatever was read
before. -/
theorem Sequence.readItems {nodes : List (Node Rule)} {links : List Link}
    (h : Sequence nodes links) :
    ∃ items, Reader.readItems nodes = .ok items ∧ items.map Item.link = links ∧
      (∀ v, .operand v ∈ items → v.isAtom = true) ∧
      ∀ left leading, ∃ e, Expr.ofItemsFrom left leading items = some e := by
  induction h with
  | @leading op node nodes links hnode hnodes ih =>
    obtain ⟨items, hread, hlinks, hatoms, htree⟩ := ih
    have hcons := readItems_cons_operator (operatorOf?_leading hnode)
      (fun next _ hnext => hnodes.isMinimum_eq_false node next hnext) hread
    refine ⟨.leading op node.start.offset :: items, hcons, by simp [Item.link, hlinks], ?_, ?_⟩
    · intro v hv
      exact hatoms v (by simpa using hv)
    · intro left leading
      exact htree left _
  | @last nodes e hoperand =>
    have hnothing : Reader.readItems [] = .ok [] := rfl
    have hread := hoperand.readItems hnothing
    rw [List.append_nil] at hread
    refine ⟨[.operand e], hread, rfl, ?_, ?_⟩
    · intro v hv
      obtain rfl : v = e := by simpa using hv
      exact hoperand.isAtom
    · intro left leading
      exact ⟨_, rfl⟩
  | @infixed op front nodes node e links hoperand hnode hnodes ih =>
    obtain ⟨items, hread, hlinks, hatoms, htree⟩ := ih
    have hcons := readItems_cons_operator (operatorOf?_infixed hnode)
      (fun next _ hnext => hnodes.isMinimum_eq_false node next hnext) hread
    refine ⟨.operand e :: .infixed op :: items, hoperand.readItems hcons,
      by simp [Item.link, hlinks], ?_, ?_⟩
    · intro v hv
      rcases List.mem_cons.1 hv with heq | hmem
      · cases heq
        exact hoperand.isAtom
      · exact hatoms v (by simpa using hmem)
    · intro left leading
      exact htree _ _

/-- A sequence of operators and operands is read as a tree.  In order the tree is the sequence, it
is grouped by precedence and to the left, and it is the only such tree up to the spans of its
operations. -/
theorem readExpr_sequence_unique {nodes : List (Node Rule)} {links : List Link}
    (h : Sequence nodes links) (start stop : Position) (text : List Char) :
    ∃ e, readExpr (.mk .expression start stop text nodes) = .ok e ∧
      e.inOrder = links ∧ e.Grouped ∧
      ∀ e' : Expr, e'.inOrder = links → e'.Grouped → e'.skeleton = e.skeleton := by
  obtain ⟨items, hread, hlinks, hatoms, htree⟩ := h.readItems
  obtain ⟨e, hchain⟩ := htree none []
  have hdenotes : Expr.ofItems? items = some e := hchain
  have hgrouped := Expr.ofItems?_grouped hatoms hdenotes
  have horder : e.inOrder = links := by
    rw [← Expr.map_link_items, Expr.ofItems?_items hatoms hdenotes, hlinks]
  refine ⟨e, readExpr_eq_ok.2 (.mk hread hdenotes), horder, hgrouped, ?_⟩
  intro e' horder' hgrouped'
  exact hgrouped.skeleton_eq hgrouped' (horder'.trans horder.symm)

/-- A node of the first line. -/
def nodeAt (rule : Rule) (start stop : Nat) (text : String) : Node Rule :=
  .mk rule ⟨start, 1, start + 1⟩ ⟨stop, 1, stop + 1⟩ text.toList []

/-- The nodes of `c or - -9223372036854775808 * a < not b`. -/
def comparison : List (Node Rule) :=
  [nodeAt .identifier 0 1 "c", nodeAt .orOperator 2 4 "or", nodeAt .negateOperator 5 6 "-",
    nodeAt .negateOperator 7 8 "-", nodeAt .integer 8 27 "9223372036854775808",
    nodeAt .multiplyOperator 28 29 "*", nodeAt .identifier 30 31 "a",
    nodeAt .lessOperator 32 33 "<", nodeAt .notOperator 34 37 "not", nodeAt .identifier 38 39 "b"]

theorem readExpr_sequence_unique_comparison :
    let a : Expr := .name ⟨"a", .between ⟨30, 1, 31⟩ ⟨31, 1, 32⟩⟩
    let b : Expr := .name ⟨"b", .between ⟨38, 1, 39⟩ ⟨39, 1, 40⟩⟩
    let c : Expr := .name ⟨"c", .between ⟨0, 1, 1⟩ ⟨1, 1, 2⟩⟩
    let least : Expr := .integer Int64.minValue ⟨7, 27, none⟩
    let links : List Link := [.operand c, .infixed .or, .leading .negate, .operand least,
      .infixed .multiply, .operand a, .infixed .less, .leading .not, .operand b]
    let tree : Expr :=
      .binary .or c
        (.binary .less
          (.binary .multiply (.unary .negate least default) a default)
          (.unary .not b default) default) default
    Sequence comparison links ∧
      ∃ e, readExpr (.mk .expression ⟨0, 1, 1⟩ ⟨39, 1, 40⟩ [] comparison) = .ok e ∧
        e.skeleton = tree ∧ e.inOrder = links ∧ e.Grouped ∧
        ∀ e' : Expr, e'.inOrder = links → e'.Grouped → e'.skeleton = tree := by
  intro a b c least links tree
  have hidentifier : ∀ start stop text,
      Denotes [nodeAt .identifier start stop text]
        (.name ⟨String.ofList text.toList, .between ⟨start, 1, start + 1⟩ ⟨stop, 1, stop + 1⟩⟩) :=
    fun start stop text => .primary (by rw [nodeAt, readPrimary])
  have hleast : Denotes
      [nodeAt .negateOperator 7 8 "-", nodeAt .integer 8 27 "9223372036854775808"] least :=
    .least rfl rfl rfl rfl
  have hb : Sequence [nodeAt .identifier 38 39 "b"] [.operand b] :=
    .last (hidentifier 38 39 "b")
  have hsequence : Sequence comparison links :=
    .infixed (hidentifier 0 1 "c") rfl
      (.leading rfl (.infixed hleast rfl (.infixed (hidentifier 30 31 "a") rfl (.leading rfl hb))))
  have htree : tree.Grouped := by
    refine ⟨trivial, ?_, trivial, ?_, trivial, ⟨trivial, trivial, ⟨rfl, trivial⟩, trivial⟩,
      rfl, trivial⟩
    · exact (by decide : 2 ≤ 4)
    · exact (by decide : 4 ≤ 6)
  obtain ⟨e, hread, horder, hgrouped, hunique⟩ :=
    readExpr_sequence_unique hsequence ⟨0, 1, 1⟩ ⟨39, 1, 40⟩ []
  have hskeleton : e.skeleton = tree := (hunique tree rfl htree).symm
  refine ⟨hsequence, e, hread, hskeleton, horder, hgrouped, ?_⟩
  intro e' horder' hgrouped'
  exact (hunique e' horder' hgrouped').trans hskeleton

end Reader

end BlockScript
