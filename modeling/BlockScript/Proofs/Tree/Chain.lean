import BlockScript.Tree.Chain

/-!
# Chains and the trees they denote

The links of a tree in order are a chain.  The tree that a chain denotes has exactly the links of
the chain and is grouped: operators of one level lean to the left, tighter ones stand below looser
ones, and no operator before an operand reaches over a binary one.  Conversely a grouped tree is
the one that its chain denotes, up to the spans of its operations.
-/

namespace BlockScript.Expr

def isBinary : Expr → Bool
  | .binary .. => true
  | _ => false

/-- Whether an expression is an operand of a chain. -/
def isAtom : Expr → Bool
  | .unary .. | .binary .. => false
  | _ => true

/-- The links of an expression from left to right. -/
def items : Expr → List Item
  | .unary op operand span => .leading op span.start :: operand.items
  | .binary op left right _ => left.items ++ .infixed op :: right.items
  | e => [.operand e]

/-- A binary operation at the top binds at least as tightly as `n`. -/
def BindsFrom (n : Nat) : Expr → Prop
  | .binary op _ _ _ => n ≤ op.precedence
  | _ => True

/-- The operations are grouped as their precedence says, down to the operands. -/
def Grouped : Expr → Prop
  | .unary _ operand _ => operand.isBinary = false ∧ operand.Grouped
  | .binary op left right _ =>
    left.BindsFrom op.precedence ∧ right.BindsFrom (op.precedence + 1) ∧
      left.Grouped ∧ right.Grouped
  | _ => True

theorem items_of_isAtom {e : Expr} (h : e.isAtom = true) : e.items = [.operand e] := by
  cases e <;> first | rfl | cases h

theorem grouped_of_isAtom {e : Expr} (h : e.isAtom = true) : e.Grouped := by
  cases e <;> trivial

theorem isBinary_of_isAtom {e : Expr} (h : e.isAtom = true) : e.isBinary = false := by
  cases e <;> first | rfl | cases h

theorem bindsFrom_of_not_isBinary {e : Expr} (h : e.isBinary = false) (n : Nat) :
    e.BindsFrom n := by
  cases e <;> trivial

theorem BindsFrom.mono {e : Expr} {m n : Nat} (h : e.BindsFrom n) (hle : m ≤ n) :
    e.BindsFrom m := by
  cases e with
  | binary op left right span => exact Nat.le_trans hle h
  | _ => trivial

/-! ## Extending a tree -/

theorem extend_of_bindsFrom {a b : Expr} {op : BinaryOp} (h : a.BindsFrom op.precedence) :
    a.extend op b = joined op a b := by
  cases a with
  | binary last x y span =>
    have hle : op.precedence ≤ last.precedence := h
    rw [extend, if_neg (by omega)]
  | _ => rfl

theorem items_extend (a b : Expr) (op : BinaryOp) :
    (a.extend op b).items = a.items ++ .infixed op :: b.items := by
  induction a with
  | binary last x y span _ ih =>
    rw [extend]
    split
    · simp [joined, items, ih]
    · rfl
  | _ => rfl

theorem BindsFrom.extend {a b : Expr} {op : BinaryOp} {n : Nat} (ha : a.BindsFrom n)
    (hop : n ≤ op.precedence) : (a.extend op b).BindsFrom n := by
  cases a with
  | binary last x y span =>
    rw [Expr.extend]
    split
    · exact ha
    · exact hop
  | _ => exact hop

theorem Grouped.extend {a b : Expr} {op : BinaryOp} (ha : a.Grouped) (hb : b.Grouped)
    (hbinary : b.isBinary = false) : (a.extend op b).Grouped := by
  induction a with
  | binary last x y span _ ih =>
    obtain ⟨hx, hy, hxgrouped, hygrouped⟩ := ha
    rw [Expr.extend]
    split
    · rename_i hlt
      exact ⟨hx, hy.extend hlt, hxgrouped, ih hygrouped⟩
    · rename_i hlt
      exact ⟨Nat.le_of_not_lt hlt, bindsFrom_of_not_isBinary hbinary _,
        ⟨hx, hy, hxgrouped, hygrouped⟩, hb⟩
  | _ => exact ⟨trivial, bindsFrom_of_not_isBinary hbinary _, ha, hb⟩

/-- A tighter operation can be joined before the tree is extended with it. -/
theorem extend_extend {l a b : Expr} {opl op : BinaryOp} (hlt : opl.precedence < op.precedence)
    (ha : a.BindsFrom op.precedence) :
    (l.extend opl a).extend op b = l.extend opl (joined op a b) := by
  have hjoined : ∀ x, (joined opl x a).extend op b = joined opl x (joined op a b) := by
    intro x
    rw [joined, extend, if_pos hlt, extend_of_bindsFrom ha]
  induction l with
  | binary last x y span _ ih =>
    by_cases hlast : last.precedence < opl.precedence
    · have hlast' : last.precedence < op.precedence := by omega
      simp only [extend, hlast, if_true, joined, hlast'] at ih ⊢
      rw [ih]
    · simpa only [extend, hlast, if_false] using hjoined _
  | _ => exact hjoined _

/-! ## Operators before an operand -/

theorem items_applied (leading : List (UnaryOp × Nat)) (e : Expr) :
    (applied leading e).items =
      leading.reverse.map (fun link => Item.leading link.1 link.2) ++ e.items := by
  induction leading generalizing e with
  | nil => rfl
  | cons link leading ih =>
    have happlied : applied (link :: leading) e =
        applied leading (.unary link.1 e ⟨link.2, e.span.stop, none⟩) := rfl
    rw [happlied, ih]
    simp [items]

theorem applied_grouped (leading : List (UnaryOp × Nat)) {e : Expr} (h : e.Grouped)
    (hbinary : e.isBinary = false) :
    (applied leading e).Grouped ∧ (applied leading e).isBinary = false := by
  induction leading generalizing e with
  | nil => exact ⟨h, hbinary⟩
  | cons link leading ih => exact ih (e := .unary link.1 e _) ⟨hbinary, h⟩ rfl

/-! ## The tree of a chain -/

/-- The links that have been read before an operand. -/
def itemsBefore (left : Option (Expr × BinaryOp)) (leading : List (UnaryOp × Nat)) : List Item :=
  (match left with
    | none => []
    | some (l, op) => l.items ++ [.infixed op]) ++
  leading.reverse.map fun link => Item.leading link.1 link.2

theorem items_attach (left : Option (Expr × BinaryOp)) (leading : List (UnaryOp × Nat)) (e : Expr) :
    (attach left (applied leading e)).items = itemsBefore left leading ++ e.items := by
  cases left with
  | none => simp [attach, itemsBefore, items_applied]
  | some left => simp [attach, itemsBefore, items_applied, items_extend]

theorem attach_grouped {left : Option (Expr × BinaryOp)} (leading : List (UnaryOp × Nat))
    {e : Expr} (hleft : ∀ l op, left = some (l, op) → l.Grouped) (hatom : e.isAtom = true) :
    (attach left (applied leading e)).Grouped := by
  obtain ⟨hgrouped, hbinary⟩ :=
    applied_grouped leading (grouped_of_isAtom hatom) (isBinary_of_isAtom hatom)
  cases left with
  | none => exact hgrouped
  | some left => exact (hleft left.1 left.2 rfl).extend hgrouped hbinary

theorem ofItemsFrom_items {left : Option (Expr × BinaryOp)} {leading : List (UnaryOp × Nat)}
    {items : List Item} {e : Expr} (hatoms : ∀ v, .operand v ∈ items → v.isAtom = true)
    (h : ofItemsFrom left leading items = some e) :
    e.items = itemsBefore left leading ++ items := by
  induction left, leading, items using ofItemsFrom.induct with
  | case1 left leading op start rest ih =>
    rw [ofItemsFrom] at h
    rw [ih (fun v hv => hatoms v (List.mem_cons_of_mem _ hv)) h]
    simp [itemsBefore]
  | case2 left leading value =>
    cases h
    rw [items_attach, items_of_isAtom (hatoms value (by simp))]
  | case3 left leading value op rest ih =>
    rw [ofItemsFrom] at h
    rw [ih (fun v hv => hatoms v (by simp [hv])) h]
    simp [itemsBefore, items_attach, items_of_isAtom (hatoms value (by simp))]
  | case4 => simp [ofItemsFrom] at h

theorem ofItemsFrom_grouped {left : Option (Expr × BinaryOp)} {leading : List (UnaryOp × Nat)}
    {items : List Item} {e : Expr} (hatoms : ∀ v, .operand v ∈ items → v.isAtom = true)
    (hleft : ∀ l op, left = some (l, op) → l.Grouped)
    (h : ofItemsFrom left leading items = some e) : e.Grouped := by
  induction left, leading, items using ofItemsFrom.induct with
  | case1 left leading op start rest ih =>
    rw [ofItemsFrom] at h
    exact ih (fun v hv => hatoms v (List.mem_cons_of_mem _ hv)) hleft h
  | case2 left leading value =>
    cases h
    exact attach_grouped leading hleft (hatoms value (by simp))
  | case3 left leading value op rest ih =>
    rw [ofItemsFrom] at h
    refine ih (fun v hv => hatoms v (by simp [hv])) ?_ h
    intro l op' heq
    cases heq
    exact attach_grouped leading hleft (hatoms value (by simp))
  | case4 => simp [ofItemsFrom] at h

theorem ofItems?_items {items : List Item} {e : Expr}
    (hatoms : ∀ v, .operand v ∈ items → v.isAtom = true) (h : ofItems? items = some e) :
    e.items = items := by
  simpa [itemsBefore] using ofItemsFrom_items hatoms h

theorem ofItems?_grouped {items : List Item} {e : Expr}
    (hatoms : ∀ v, .operand v ∈ items → v.isAtom = true) (h : ofItems? items = some e) :
    e.Grouped :=
  ofItemsFrom_grouped hatoms (by simp) h

/-! ## The chain of a tree -/

/-- The same tree with the spans that its operations get from their operands. -/
def respanned : Expr → Expr
  | .unary op operand span =>
    .unary op operand.respanned ⟨span.start, operand.respanned.span.stop, none⟩
  | .binary op left right _ => joined op left.respanned right.respanned
  | e => e

theorem BindsFrom.respanned {e : Expr} {n : Nat} (h : e.BindsFrom n) : e.respanned.BindsFrom n := by
  cases e <;> exact h

/-- Reads the links after a complete operand. -/
def resume (e : Expr) : List Item → Option Expr
  | [] => some e
  | .infixed op :: rest => ofItemsFrom (some (e, op)) [] rest
  | _ => none

theorem ofItemsFrom_operand (left : Option (Expr × BinaryOp)) (leading : List (UnaryOp × Nat))
    (value : Expr) (rest : List Item) :
    ofItemsFrom left leading (.operand value :: rest) =
      resume (attach left (applied leading value)) rest := by
  cases rest with
  | nil => rfl
  | cons item rest => cases item <;> simp [ofItemsFrom, resume]

/-- Reading the links of a grouped tree attaches the tree. -/
theorem Grouped.ofItemsFrom {e : Expr} (h : e.Grouped) (left : Option (Expr × BinaryOp))
    (leading : List (UnaryOp × Nat)) (rest : List Item)
    (hleading : e.isBinary = true → leading = [])
    (hleft : ∀ l op, left = some (l, op) → e.BindsFrom (op.precedence + 1)) :
    ofItemsFrom left leading (e.items ++ rest) =
      resume (attach left (applied leading e.respanned)) rest := by
  induction e generalizing left leading rest with
  | unary op operand span ih =>
    obtain ⟨hbinary, hgrouped⟩ := h
    rw [items, List.cons_append, Expr.ofItemsFrom,
      ih hgrouped _ _ _ (by simp [hbinary]) (fun _ _ _ => bindsFrom_of_not_isBinary hbinary _)]
    rfl
  | binary op a b span iha ihb =>
    obtain ⟨ha, hb, hagrouped, hbgrouped⟩ := h
    cases hleading rfl
    have hafits : ∀ l opl, left = some (l, opl) → a.BindsFrom (opl.precedence + 1) := by
      intro l opl heq
      exact ha.mono (hleft l opl heq)
    have hattach : (attach left a.respanned).extend op b.respanned =
        attach left (joined op a.respanned b.respanned) := by
      cases left with
      | none => exact extend_of_bindsFrom ha.respanned
      | some left => exact extend_extend (hleft left.1 left.2 rfl) ha.respanned
    calc
      Expr.ofItemsFrom left [] ((Expr.binary op a b span).items ++ rest) =
          Expr.ofItemsFrom left [] (a.items ++ .infixed op :: (b.items ++ rest)) := by
            simp [items]
      _ = Expr.ofItemsFrom (some (attach left a.respanned, op)) [] (b.items ++ rest) :=
            iha hagrouped left [] _ (fun _ => rfl) hafits
      _ = resume ((attach left a.respanned).extend op b.respanned) rest := by
            refine ihb hbgrouped _ [] rest (fun _ => rfl) ?_
            rintro l opl ⟨⟩
            exact hb
      _ = resume (attach left (joined op a.respanned b.respanned)) rest := by rw [hattach]
  | _ => exact ofItemsFrom_operand left leading _ rest

/-- A grouped tree is the one that its chain denotes. -/
theorem Grouped.ofItems? {e : Expr} (h : e.Grouped) : ofItems? e.items = some e.respanned := by
  have hread := h.ofItemsFrom none [] [] (fun _ => rfl) (by simp)
  rwa [List.append_nil] at hread

end BlockScript.Expr
