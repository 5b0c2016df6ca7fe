import BlockScript.Proofs.Tree.Canonical
import BlockScript.Proofs.Tree.Reader

/-!
# Chains up to spans

The links that are read from a rendered chain have spans of their own.  Nodes are itemized if they
are read as given links up to spans, whatever nodes follow; this is preserved when nodes are put in
a row, and the nodes of a whole chain then denote the tree whose links they are.
-/

namespace BlockScript

/-! ## Erased links -/

def Item.erase : Item → Item
  | .leading op _ => .leading op 0
  | .operand value => .operand value.erase
  | .infixed op => .infixed op

namespace Expr

theorem isBinary_erase (e : Expr) : e.erase.isBinary = e.isBinary := by
  cases e <;> rfl

theorem isAtom_erase (e : Expr) : e.erase.isAtom = e.isAtom := by
  cases e <;> rfl

theorem bindsFrom_erase (e : Expr) (n : Nat) : e.erase.BindsFrom n ↔ e.BindsFrom n := by
  cases e <;> rfl

theorem grouped_erase (e : Expr) : e.erase.Grouped ↔ e.Grouped := by
  induction e with
  | unary op operand span ih => simp only [erase, Grouped, isBinary_erase, ih]
  | binary op left right span ihl ihr => simp only [erase, Grouped, bindsFrom_erase, ihl, ihr]
  | _ => rfl

theorem erase_respanned (e : Expr) : e.respanned.erase = e.erase := by
  induction e with
  | unary op operand span ih => simp only [respanned, erase, ih]
  | binary op left right span ihl ihr => simp only [respanned, joined, erase, ihl, ihr]
  | _ => rfl

theorem Canonical.grouped {e : Expr} (h : e.Canonical) : e.Grouped := by
  induction e with
  | unary op operand span ih => exact ⟨h.1, ih h.2⟩
  | binary op left right span ihl ihr =>
    obtain ⟨hl, hr, -, hleft, hright⟩ := h
    exact ⟨hl, hr, ihl hleft, ihr hright⟩
  | _ => trivial

theorem exists_items_of_isAtom {e : Expr} (he : e.isAtom = true) {items : List Item}
    (h : items.map Item.erase = e.items.map Item.erase) :
    ∃ e' : Expr, e'.items = items ∧ e'.erase = e.erase := by
  rw [items_of_isAtom he] at h
  obtain ⟨item, rfl, hitem⟩ := List.map_eq_singleton_iff.1 h
  cases item with
  | operand value =>
    injection hitem with hvalue
    refine ⟨value, items_of_isAtom ?_, hvalue⟩
    rw [← isAtom_erase, hvalue, isAtom_erase, he]
  | _ => cases hitem

/-- Links that agree with those of a tree up to spans are those of a tree that agrees with it. -/
theorem exists_items (e : Expr) {items : List Item}
    (h : items.map Item.erase = e.items.map Item.erase) :
    ∃ e' : Expr, e'.items = items ∧ e'.erase = e.erase := by
  induction e generalizing items with
  | unary op operand span ih =>
    obtain ⟨item, rest, rfl, hitem, hrest⟩ := List.map_eq_cons_iff.1 h
    obtain ⟨operand', rfl, hoperand⟩ := ih hrest
    cases item with
    | leading op' start =>
      cases hitem
      exact ⟨.unary op operand' ⟨start, 0, none⟩, rfl, by rw [erase, erase, hoperand]⟩
    | _ => cases hitem
  | binary op left right span ihl ihr =>
    rw [Expr.items, List.map_append] at h
    obtain ⟨front, back, rfl, hfront, hback⟩ := List.map_eq_append_iff.1 h
    obtain ⟨item, rest, rfl, hitem, hrest⟩ := List.map_eq_cons_iff.1 hback
    obtain ⟨left', rfl, hleft⟩ := ihl hfront
    obtain ⟨right', rfl, hright⟩ := ihr hrest
    cases item with
    | infixed op' =>
      cases hitem
      exact ⟨.binary op left' right' default, rfl, by rw [erase, erase, hleft, hright]⟩
    | _ => cases hitem
  | _ => exact exists_items_of_isAtom rfl h

/-- Links that agree with those of a grouped tree denote a tree that agrees with it. -/
theorem Grouped.ofItems?_of_erase {e : Expr} (h : e.Grouped) {items : List Item}
    (hitems : items.map Item.erase = e.items.map Item.erase) :
    ∃ e' : Expr, Expr.ofItems? items = some e' ∧ e'.erase = e.erase := by
  obtain ⟨e', rfl, he⟩ := exists_items e hitems
  have hgrouped : e'.Grouped := by
    rw [← grouped_erase, he, grouped_erase]
    exact h
  exact ⟨e'.respanned, hgrouped.ofItems?, by rw [erase_respanned, he]⟩

end Expr

/-! ## Reading nodes in a row -/

namespace Reader

theorem isMinimum_eq_false {sign digits : Peg.Node Rule} (h : sign.rule ≠ .negateOperator) :
    isMinimum sign digits = false := by
  simp [isMinimum, h]

theorem readItems_operator {node : Peg.Node Rule} {nodes : List (Peg.Node Rule)} {item : Item}
    (hitem : operatorOf? node = some item)
    (hnodes : ∀ next rest, nodes = next :: rest → isMinimum node next = false) :
    readItems (node :: nodes) = (do return item :: (← readItems nodes)) := by
  cases nodes with
  | nil =>
    have hread : readItems [node] = .ok [item] := by rw [readItems, hitem]
    exact hread
  | cons next rest => rw [readItems, if_neg (by simp [hnodes next rest rfl]), hitem]

theorem readItems_operand {node : Peg.Node Rule} {nodes : List (Peg.Node Rule)}
    (hoperator : operatorOf? node = none) :
    readItems (node :: nodes) = (do
      let operand ← readPrimary node
      return .operand operand :: (← readItems nodes)) := by
  have hrule : node.rule ≠ .negateOperator := by
    intro hrule
    simp [operatorOf?, hrule] at hoperator
  cases nodes with
  | nil =>
    have hread : readItems [node] = (do return [.operand (← readPrimary node)]) := by
      rw [readItems, hoperator]
    exact hread
  | cons next rest =>
    rw [readItems, if_neg (by simp [isMinimum_eq_false hrule]), hoperator]

theorem readItems_cons_operator {node : Peg.Node Rule} {nodes : List (Peg.Node Rule)} {item : Item}
    {items : List Item} (hitem : operatorOf? node = some item)
    (hnodes : ∀ next rest, nodes = next :: rest → isMinimum node next = false)
    (h : readItems nodes = .ok items) : readItems (node :: nodes) = .ok (item :: items) := by
  rw [readItems_operator hitem hnodes, h]
  rfl

theorem readItems_cons_operand {node : Peg.Node Rule} {nodes : List (Peg.Node Rule)} {e : Expr}
    {items : List Item} (hoperator : operatorOf? node = none) (he : readPrimary node = .ok e)
    (h : readItems nodes = .ok items) : readItems (node :: nodes) = .ok (.operand e :: items) := by
  rw [readItems_operand hoperator, he, h]
  rfl

/-- The nodes are read as these links up to spans, whatever follows, and do not begin with digits
that a minus sign before them could make the least integer. -/
structure Itemized (items : List Item) (nodes : List (Peg.Node Rule)) : Prop where
  head : ∀ digits rest, nodes = digits :: rest →
    ¬ (digits.rule = .integer ∧ digits.text = minimumDigits)
  reads : ∀ more later, readItems more = .ok later →
    ∃ items', readItems (nodes ++ more) = .ok (items' ++ later) ∧
      items'.map Item.erase = items.map Item.erase

theorem Itemized.append {items items' : List Item} {nodes nodes' : List (Peg.Node Rule)}
    (h : Itemized items nodes) (h' : Itemized items' nodes') :
    Itemized (items ++ items') (nodes ++ nodes') := by
  constructor
  · intro digits rest heq
    cases nodes with
    | nil => exact h'.head digits rest heq
    | cons node nodes =>
      obtain ⟨rfl, -⟩ := List.cons.inj heq
      exact h.head node nodes rfl
  · intro more later hmore
    obtain ⟨back, hback, heraseBack⟩ := h'.reads more later hmore
    obtain ⟨front, hfront, heraseFront⟩ := h.reads _ _ hback
    exact ⟨front ++ back, by simp [hfront], by simp [heraseFront, heraseBack]⟩

theorem itemized_nil : Itemized [] [] :=
  ⟨nofun, fun _ _ hmore => ⟨[], hmore, rfl⟩⟩

theorem itemized_operand {node : Peg.Node Rule} {e e' : Expr} (hoperator : operatorOf? node = none)
    (hdigits : ¬ (node.rule = .integer ∧ node.text = minimumDigits))
    (he : readPrimary node = .ok e') (herase : e'.erase = e.erase) :
    Itemized [.operand e] [node] := by
  constructor
  · rintro digits rest ⟨⟩
    exact hdigits
  · intro more later hmore
    exact ⟨[.operand e'], readItems_cons_operand hoperator he hmore, by simp [Item.erase, herase]⟩

theorem itemized_infixed {node : Peg.Node Rule} {op : BinaryOp}
    (h : operatorOf? node = some (.infixed op)) (hrule : node.rule ≠ .negateOperator)
    (hinteger : node.rule ≠ .integer) : Itemized [.infixed op] [node] := by
  constructor
  · rintro digits rest ⟨⟩ ⟨hrule, -⟩
    exact hinteger hrule
  · intro more later hmore
    refine ⟨[.infixed op], readItems_cons_operator h (fun _ _ _ => ?_) hmore, rfl⟩
    exact isMinimum_eq_false hrule

theorem Itemized.ne_nil {items : List Item} {nodes : List (Peg.Node Rule)}
    (h : Itemized items nodes) (hitems : items ≠ []) : nodes ≠ [] := by
  rintro rfl
  obtain ⟨items', hread, herase⟩ := h.reads [] [] rfl
  injection hread with hnil
  rw [List.append_nil] at hnil
  rw [← hnil] at herase
  exact hitems (List.map_eq_nil_iff.1 herase.symm)

theorem Itemized.leading {node : Peg.Node Rule} {nodes : List (Peg.Node Rule)} {op : UnaryOp}
    {start start' : Nat} {items : List Item} (h : operatorOf? node = some (.leading op start))
    (hinteger : node.rule ≠ .integer) (hnodes : Itemized items nodes) (hitems : items ≠ []) :
    Itemized (.leading op start' :: items) (node :: nodes) := by
  constructor
  · rintro digits rest ⟨⟩ ⟨hrule, -⟩
    exact hinteger hrule
  · intro more later hmore
    obtain ⟨items', hread, herase⟩ := hnodes.reads more later hmore
    refine ⟨.leading op start :: items', ?_, by simp [Item.erase, herase]⟩
    refine readItems_cons_operator h ?_ hread
    intro next rest heq
    cases nodes with
    | nil => exact absurd rfl (hnodes.ne_nil hitems)
    | cons digits nodes =>
      obtain ⟨rfl, -⟩ := List.cons.inj heq
      have hdigits := hnodes.head digits nodes rfl
      simp only [isMinimum, Bool.and_eq_false_iff, decide_eq_false_iff_not]
      by_cases hrule : digits.rule = .integer
      · exact .inl (.inr fun htext => hdigits ⟨hrule, htext⟩)
      · exact .inl (.inl (.inr hrule))

/-- A minus sign and the digits that directly follow it are the least integer. -/
theorem itemized_least {sign digits : Peg.Node Rule} {span : Span}
    (h : isMinimum sign digits = true) :
    Itemized [.operand (.integer Int64.minValue span)] [sign, digits] := by
  constructor
  · rintro node rest ⟨⟩ ⟨hrule, -⟩
    simp [isMinimum, hrule] at h
  · intro more later hmore
    refine ⟨[.operand (.integer Int64.minValue ⟨sign.start.offset, digits.stop.offset, none⟩)], ?_,
      rfl⟩
    rw [List.cons_append, List.cons_append, readItems, if_pos h, List.nil_append, hmore]
    rfl

/-- A node whose children are itemized as the links of a grouped tree is read as that tree. -/
theorem readExpr_of_itemized {e : Expr} (he : e.Grouped) {start stop : Position}
    {text : List Char} {children : List (Peg.Node Rule)} (h : Itemized e.items children) :
    ∃ e', readExpr (.mk .expression start stop text children) = .ok e' ∧ e'.erase = e.erase := by
  obtain ⟨items, hread, hitems⟩ := h.reads [] [] rfl
  rw [List.append_nil, List.append_nil] at hread
  obtain ⟨e', hchain, herase⟩ := he.ofItems?_of_erase hitems
  exact ⟨e', readExpr_eq_ok.2 (.mk hread hchain), herase⟩

end Reader

end BlockScript
