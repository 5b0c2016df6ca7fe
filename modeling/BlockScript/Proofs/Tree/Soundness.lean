import BlockScript.Proofs.Grammar.Expressions
import BlockScript.Proofs.Tree.Canonical
import BlockScript.Proofs.Tree.Reader

/-!
# Every tree that is read is canonical

The readers follow the nodes of a match.  A node comes from a match of its rule, and so do the nodes
below it; this is all that the canonical form of names, numbers and strings needs.  How operations
are grouped follows from the chain alone, and that an update stands at its end from the grammar.
-/

namespace BlockScript

open Grammar (rules)
open Peg.Grammar

/-! ## Chains with an update at the end -/

def Item.isUpdate : Item → Bool
  | .operand (.update ..) => true
  | _ => false

namespace Expr

theorem exists_isUpdate {e : Expr} (h : e.endsInUpdate = true) :
    ∃ item ∈ e.items, item.isUpdate = true := by
  induction e with
  | unary op operand span ih =>
    obtain ⟨item, hmem, hitem⟩ := ih h
    exact ⟨item, List.mem_cons_of_mem _ hmem, hitem⟩
  | binary op left right span _ ih =>
    obtain ⟨item, hmem, hitem⟩ := ih h
    exact ⟨item, by simp [items, hmem], hitem⟩
  | update op target value span => exact ⟨_, List.mem_singleton.2 rfl, rfl⟩
  | _ => cases h

/-- A grouped tree is canonical if its operands are and no update stands before its last link. -/
theorem canonical_of_items {e : Expr} (hgrouped : e.Grouped)
    (hoperands : ∀ v, .operand v ∈ e.items → v.Canonical)
    (hupdate : e.items.Pairwise fun item _ => item.isUpdate = false) : e.Canonical := by
  induction e with
  | unary op operand span ih =>
    obtain ⟨hbinary, hgrouped⟩ := hgrouped
    exact ⟨hbinary, ih hgrouped (fun v hv => hoperands v (List.mem_cons_of_mem _ hv))
      (List.pairwise_cons.1 hupdate).2⟩
  | binary op left right span ihl ihr =>
    obtain ⟨hl, hr, hlgrouped, hrgrouped⟩ := hgrouped
    obtain ⟨hlupdate, hrupdate, hbetween⟩ := List.pairwise_append.1 hupdate
    have hends : left.endsInUpdate = false := by
      refine Bool.eq_false_iff.2 fun hends => ?_
      obtain ⟨item, hmem, hitem⟩ := exists_isUpdate hends
      simp [hbetween item hmem (.infixed op) (by simp)] at hitem
    exact ⟨hl, hr, hends, ihl hlgrouped (fun v hv => hoperands v (by simp [items, hv])) hlupdate,
      ihr hrgrouped (fun v hv => hoperands v (by simp [items, hv]))
        (List.pairwise_cons.1 hrupdate).2⟩
  | _ => exact hoperands _ (List.mem_singleton.2 rfl)

end Expr

/-! ## Expressions -/

namespace Reader

theorem reads_of_produced {rule : Rule} {start stop : Position} {text : List Char}
    {children : List (Peg.Node Rule)} (h : rules.Produced (.mk rule start stop text children)) :
    ∃ rest nodes, rules.Reads (.rule rule) start text rest nodes := by
  obtain ⟨rest, hread⟩ := h
  exact ⟨rest, _, reads_rule.2 ⟨children, hread, rfl⟩⟩

theorem isIdentifier_of_produced {start stop : Position} {text : List Char}
    {children : List (Peg.Node Rule)}
    (h : rules.Produced (.mk .identifier start stop text children)) :
    Grammar.IsIdentifier text := by
  obtain ⟨rest, nodes, hread⟩ := reads_of_produced h
  exact (Grammar.reads_identifier.1 hread).1.1

theorem readIdentifier_isIdentifier {node : Peg.Node Rule} {id : Identifier}
    (hnode : rules.Produced node) (h : readIdentifier node = .ok id) :
    Grammar.IsIdentifier id.name.toList := by
  obtain ⟨_, _, _, _, rfl, rfl⟩ := readIdentifier_ok h
  simpa using isIdentifier_of_produced hnode

/-- What is read from one node is an operand; it is an update only for a compound assignment. -/
theorem readPrimary_ok {node : Peg.Node Rule} {e : Expr} (h : readPrimary node = .ok e) :
    e.isAtom = true ∧ ((Item.operand e).isUpdate = true → node.rule = .compoundAssignment) := by
  cases readPrimary_eq_ok.1 h with
  | update => exact ⟨rfl, fun _ => rfl⟩
  | _ => exact ⟨rfl, nofun⟩

theorem operatorOf?_eq_some {node : Peg.Node Rule} {item : Item}
    (h : operatorOf? node = some item) :
    (∃ op, item = .leading op node.start.offset) ∨ ∃ op, item = .infixed op := by
  unfold operatorOf? at h
  split at h
  · cases h
    exact .inl ⟨_, rfl⟩
  · cases h
    exact .inl ⟨_, rfl⟩
  · obtain ⟨op, -, rfl⟩ := Option.map_eq_some_iff.1 h
    exact .inr ⟨op, rfl⟩

theorem operatorOf?_ok {node : Peg.Node Rule} {item : Item} (h : operatorOf? node = some item) :
    (∀ v, item ≠ .operand v) ∧ item.isUpdate = false := by
  obtain ⟨op, rfl⟩ | ⟨op, rfl⟩ := operatorOf?_eq_some h <;> exact ⟨nofun, rfl⟩

/-- One link after the other is the least integer, an operator or an operand. -/
theorem readItems_induction {motive : List (Peg.Node Rule) → List Item → Prop} (nil : motive [] [])
    (least : ∀ sign digits rest later, motive rest later →
      motive (sign :: digits :: rest) (.operand (.integer Int64.minValue
        ⟨sign.start.offset, digits.stop.offset, none⟩) :: later))
    (operator : ∀ node rest item later, operatorOf? node = some item → motive rest later →
      motive (node :: rest) (item :: later))
    (operand : ∀ node rest e later, readPrimary node = .ok e → motive rest later →
      motive (node :: rest) (.operand e :: later)) :
    ∀ (nodes : List (Peg.Node Rule)) (items : List Item), readItems nodes = .ok items →
      motive nodes items
  | [], items, h => by
    cases h
    exact nil
  | [node], items, h => by
    rw [readItems] at h
    split at h
    · rename_i item hitem
      cases h
      exact operator node [] item [] hitem nil
    · simp only [bind_eq_ok, pure_eq_ok] at h
      obtain ⟨e, he, rfl⟩ := h
      exact operand node [] e [] he nil
  | node :: next :: rest, items, h => by
    have ih := readItems_induction nil least operator operand rest
    have ih' := readItems_induction nil least operator operand (next :: rest)
    rw [readItems] at h
    split at h
    · simp only [bind_eq_ok, pure_eq_ok] at h
      obtain ⟨later, hlater, rfl⟩ := h
      exact least node next rest later (ih later hlater)
    · split at h
      · rename_i item hitem
        simp only [bind_eq_ok, pure_eq_ok] at h
        obtain ⟨later, hlater, rfl⟩ := h
        exact operator node _ item later hitem (ih' later hlater)
      · simp only [bind_eq_ok, pure_eq_ok] at h
        obtain ⟨e, he, later, hlater, rfl⟩ := h
        exact operand node _ e later he (ih' later hlater)

/-- What holds of the operands of all nodes holds of all operands of the chain. -/
theorem forall_operand_of_readItems {P : Expr → Prop} {nodes : List (Peg.Node Rule)}
    {items : List Item} (hleast : ∀ span, P (.integer Int64.minValue span))
    (h : readItems nodes = .ok items)
    (hnodes : ∀ node ∈ nodes, ∀ e, readPrimary node = .ok e → P e) :
    ∀ v, .operand v ∈ items → P v := by
  revert hnodes
  refine readItems_induction (motive := fun nodes items =>
    (∀ node ∈ nodes, ∀ e, readPrimary node = .ok e → P e) → ∀ v, .operand v ∈ items → P v)
    (by simp) ?_ ?_ ?_ nodes items h
  · intro sign digits rest later ih hnodes v hv
    rcases List.mem_cons.1 hv with heq | hv
    · cases heq
      exact hleast _
    · exact ih (fun node hnode => hnodes node (by simp [hnode])) v hv
  · intro node rest item later hitem ih hnodes v hv
    rcases List.mem_cons.1 hv with heq | hv
    · exact absurd heq.symm ((operatorOf?_ok hitem).1 v)
    · exact ih (fun node hnode => hnodes node (by simp [hnode])) v hv
  · intro node rest e later he ih hnodes v hv
    rcases List.mem_cons.1 hv with heq | hv
    · cases heq
      exact hnodes node (by simp) _ he
    · exact ih (fun node hnode => hnodes node (by simp [hnode])) v hv

/-- In the chain of an expression only the last link can be an update. -/
theorem pairwise_of_readItems {nodes : List (Peg.Node Rule)} {items : List Item}
    (h : readItems nodes = .ok items) (hnodes : nodes.Pairwise Grammar.Precedes) :
    items.Pairwise fun item _ => item.isUpdate = false := by
  have hchain : (nodes = [] → items = []) ∧
      (nodes.Pairwise Grammar.Precedes → items.Pairwise fun item _ => item.isUpdate = false) := by
    refine readItems_induction (motive := fun nodes items => (nodes = [] → items = []) ∧
      (nodes.Pairwise Grammar.Precedes → items.Pairwise fun item _ => item.isUpdate = false))
      (by simp) ?_ ?_ ?_ nodes items h
    · rintro sign digits rest later ⟨-, ih⟩
      refine ⟨nofun, fun hnodes => List.pairwise_cons.2 ⟨fun _ _ => rfl, ih ?_⟩⟩
      exact (List.pairwise_cons.1 (List.pairwise_cons.1 hnodes).2).2
    · rintro node rest item later hitem ⟨-, ih⟩
      refine ⟨nofun, fun hnodes => ?_⟩
      refine List.pairwise_cons.2 ⟨fun _ _ => (operatorOf?_ok hitem).2, ih ?_⟩
      exact (List.pairwise_cons.1 hnodes).2
    · rintro node rest e later he ⟨hempty, ih⟩
      refine ⟨nofun, fun hnodes => ?_⟩
      obtain ⟨hnode, hrest⟩ := List.pairwise_cons.1 hnodes
      cases rest with
      | nil => simp [hempty rfl]
      | cons next rest =>
        refine List.pairwise_cons.2 ⟨fun _ _ => Bool.eq_false_iff.2 fun hupdate => ?_, ih hrest⟩
        exact hnode next (by simp) ((readPrimary_ok he).2 hupdate)
  exact hchain.2 hnodes

theorem toInt_ofNat_nonneg {n : Nat} (h : n < Nat.pow 2 63) : 0 ≤ (Int64.ofNat n).toInt := by
  rw [Int64.toInt_ofNat_of_lt h]
  omega

theorem canonical_of_produced (node : Peg.Node Rule) (hnode : rules.Produced node) :
    (∀ e, readExpr node = .ok e → e.Canonical) ∧ ∀ e, readPrimary node = .ok e → e.Canonical := by
  induction node using Peg.Node.induction with
  | step rule start stop text children ih =>
    have hchildren := hnode.child
    constructor
    · intro e he
      obtain ⟨hitems, hchain⟩ := readExpr_eq_ok.1 he
      have hatoms := forall_operand_of_readItems (P := fun v => v.isAtom = true) (fun _ => rfl)
        hitems fun node _ v hv => (readPrimary_ok hv).1
      have hcanonical := forall_operand_of_readItems (fun _ => .inr rfl) hitems
        fun child hchild => (ih child hchild (hchildren child hchild)).2
      have hlinks := Expr.ofItems?_items hatoms hchain
      obtain ⟨rest, hread⟩ := hnode
      have hupdate := pairwise_of_readItems hitems (Grammar.precedes_of_expression hread)
      exact Expr.canonical_of_items (Expr.ofItems?_grouped hatoms hchain)
        (by rwa [hlinks]) (by rwa [hlinks])
    · intro e he
      cases readPrimary_eq_ok.1 he with
      | integer hrange => exact .inl (toInt_ofNat_nonneg hrange)
      | float =>
        obtain ⟨rest, nodes, hread⟩ := reads_of_produced hnode
        exact ⟨text, Grammar.isToken_float.2 (Grammar.isFloat_of_reads hread), rfl⟩
      | string =>
        obtain ⟨rest, nodes, hread⟩ := reads_of_produced hnode
        have htoken := Grammar.isToken_string.2 (Grammar.reads_string.1 hread).1.1
        simpa [Expr.Canonical] using htoken
      | boolean | nil => trivial
      | name => simpa [Expr.Canonical] using isIdentifier_of_produced hnode
      | @group _ _ _ inner e' hinner =>
        exact (ih inner (by simp) (hchildren inner (by simp))).1 e' hinner
      | @update _ _ _ target _ value _ _ e' htarget _ hvalue =>
        exact ⟨readIdentifier_isIdentifier (hchildren target (by simp)) htarget,
          (ih value (by simp) (hchildren value (by simp))).1 e' hvalue⟩
      | @step _ _ _ _ _ _ target _ _ htarget =>
        exact readIdentifier_isIdentifier (hchildren target (by simp)) htarget

/-! ## Statements -/

theorem readAssignment_canonical {node : Peg.Node Rule} {a : Assignment}
    (hnode : rules.Produced node) (h : readAssignment node = .ok a) : a.Canonical := by
  obtain ⟨htarget, hvalue⟩ := readAssignment_eq_ok.1 h
  exact ⟨readIdentifier_isIdentifier (hnode.child _ (by simp)) htarget,
    (canonical_of_produced _ (hnode.child _ (by simp))).1 _ hvalue⟩

theorem readStatements_canonical {nodes : List (Peg.Node Rule)} {statements : List Statement}
    (hnodes : ∀ node ∈ nodes, ∀ s, readStatement node = .ok s → s.Canonical)
    (h : readStatements nodes = .ok statements) : Statement.AllCanonical statements := by
  induction nodes generalizing statements with
  | nil =>
    cases h
    trivial
  | cons node nodes ih =>
    obtain ⟨hnode, hrest⟩ := List.forall_mem_cons.1 hnodes
    obtain ⟨s, rest, hs, hrest', rfl⟩ := readStatements_cons_eq_ok.1 h
    exact ⟨hnode s hs, ih hrest hrest'⟩

/-- The nodes of a clause are canonical once they are read. -/
def ClauseCanonical : Peg.Node Rule → Prop
  | .mk _ _ _ _ children => ∀ child ∈ children,
    (∀ e, readExpr child = .ok e → e.Canonical) ∧ ∀ b, readBlock child = .ok b → b.Canonical

theorem readArms_canonical {nodes : List (Peg.Node Rule)} {arms : Arms}
    (hnodes : ∀ node ∈ nodes, ClauseCanonical node) (h : readArms nodes = .ok arms) :
    arms.Canonical := by
  induction nodes generalizing arms with
  | nil =>
    cases h
    trivial
  | cons node nodes ih =>
    obtain ⟨hnode, hrest⟩ := List.forall_mem_cons.1 hnodes
    cases readArms_eq_ok.1 h with
    | otherwise hbody => exact (hnode _ (by simp)).2 _ hbody
    | arm _ hcondition hbody hlater =>
      exact ⟨(hnode _ (by simp)).1 _ hcondition, (hnode _ (by simp)).2 _ hbody, ih hrest hlater⟩

/-- The first clause of a conditional has a condition. -/
theorem hasBranch_of_readArms {start stop : Position} {text : List Char}
    {children : List (Peg.Node Rule)} {arms : Arms}
    (hnode : rules.Produced (.mk .ifStatement start stop text children))
    (h : readArms children = .ok arms) : arms.HasBranch := by
  obtain ⟨rest, hread⟩ := hnode
  obtain ⟨_, _, _, others, rfl, rfl, hclause, -⟩ := reads_seq.1 hread
  obtain ⟨parts, hparts, rfl⟩ := hclause.node rfl
  obtain ⟨_, _, _, _, rfl, rfl, hword, hread⟩ := reads_seq.1 hparts
  obtain ⟨_, _, _, _, rfl, rfl, hlayout, hread⟩ := reads_seq.1 hread
  obtain ⟨_, _, _, _, rfl, rfl, hcondition, hread⟩ := reads_seq.1 hread
  obtain ⟨_, _, _, _, rfl, rfl, hlayout', hbody⟩ := reads_seq.1 hread
  obtain ⟨_, -, rfl⟩ := hword.node rfl
  obtain ⟨-, rfl⟩ := reads_layout.1 hlayout
  obtain ⟨_, -, rfl⟩ := hcondition.node rfl
  obtain ⟨-, rfl⟩ := reads_layout.1 hlayout'
  obtain ⟨_, -, rfl⟩ := hbody.node rfl
  simp only [List.cons_append, List.nil_append, readArms, bind_eq_ok, pure_eq_ok] at h
  obtain ⟨_, -, _, -, _, -, rfl⟩ := h
  trivial

/-- Statements, blocks and clauses that are read from a match are canonical. -/
theorem statement_of_produced (node : Peg.Node Rule) (hnode : rules.Produced node) :
    (∀ s, readStatement node = .ok s → s.Canonical) ∧
      (∀ b, readBlock node = .ok b → b.Canonical) ∧ ClauseCanonical node := by
  induction node using Peg.Node.induction with
  | step rule start stop text children ih =>
    have hchildren := hnode.child
    have hexpr : ∀ child ∈ children, ∀ e, readExpr child = .ok e → e.Canonical :=
      fun child hchild => (canonical_of_produced child (hchildren child hchild)).1
    have hblock : ∀ child ∈ children, ∀ b, readBlock child = .ok b → b.Canonical :=
      fun child hchild => (ih child hchild (hchildren child hchild)).2.1
    have hstatements : ∀ child ∈ children, ∀ s, readStatement child = .ok s → s.Canonical :=
      fun child hchild => (ih child hchild (hchildren child hchild)).1
    have hbody : ∀ b, readBlock (.mk rule start stop text children) = .ok b → b.Canonical := by
      intro b hb
      obtain ⟨hs⟩ := readBlock_eq_ok.1 hb
      exact readStatements_canonical hstatements hs
    refine ⟨fun s hs => ?_, hbody, fun child hchild => ⟨hexpr child hchild, hblock child hchild⟩⟩
    cases readStatement_eq_ok.1 hs with
    | assign ha => exact readAssignment_canonical hnode ha
    | print _ hvalue => exact hexpr _ (by simp) _ hvalue
    | block hblock => exact hbody _ hblock
    | conditional harms =>
      exact ⟨hasBranch_of_readArms hnode harms, readArms_canonical
        (fun child hchild => (ih child hchild (hchildren child hchild)).2.2) harms⟩
    | whileLoop hcondition hloop =>
      exact ⟨hexpr _ (by simp) _ hcondition, hblock _ (by simp) _ hloop⟩
    | @forLoop _ _ _ _ init _ _ _ _ _ _ _ hinit hcondition hupdate hloop =>
      refine ⟨?_, hexpr _ (by simp) _ hcondition, hexpr _ (by simp) _ hupdate,
        hblock _ (by simp) _ hloop⟩
      rintro _ ⟨⟩
      exact readAssignment_canonical (hchildren init (by simp)) hinit
    | bareLoop hcondition hupdate hloop =>
      exact ⟨nofun, hexpr _ (by simp) _ hcondition, hexpr _ (by simp) _ hupdate,
        hblock _ (by simp) _ hloop⟩
    | expression hvalue => exact hexpr _ (by simp) _ hvalue

theorem produced_of_nodeOf {rule : Rule} {text : List Char} {node : Peg.Node Rule}
    (h : nodeOf rule text = .ok node) : rules.Produced node := by
  unfold nodeOf at h
  split at h
  · rename_i trees rest hparse
    split at h
    · rename_i node' hplace
      cases h
      exact (reads_of_run .start hparse).produced node (by simp [hplace])
    · cases h
  · cases h

end Reader

theorem Program.canonical_of_parse {source : String} {file : Option String} {p : Program}
    (h : Program.parse source file = .ok p) : p.Canonical := by
  unfold Program.parse at h
  obtain ⟨⟨rule, start, stop, text, children⟩, hnode, hread⟩ := Reader.bind_eq_ok.1 h
  simp only [Reader.bind_eq_ok, Reader.pure_eq_ok] at hread
  obtain ⟨statements, hstatements, rfl⟩ := hread
  refine Reader.readStatements_canonical (fun child hchild => ?_) hstatements
  have hproduced := (Reader.produced_of_nodeOf hnode).child child
    ((List.takeWhile_sublist _).subset hchild)
  exact (Reader.statement_of_produced child hproduced).1

end BlockScript
