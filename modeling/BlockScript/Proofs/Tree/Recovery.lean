import BlockScript.Proofs.Grammar.Ranking
import BlockScript.Proofs.Peg.Placement
import BlockScript.Proofs.Tree.Climbing
import BlockScript.Proofs.Tree.Overflow

/-!
# The least integer recovered from an error

The digits of the least integer are out of range alone.  They can be accepted in two ways: by a look
at the sign and the digits before either is read, as `readItems` does, or by the action for a
leading operator, which gets the error of its operand and makes the integer from it.

The second way only sees where an error lies and which digits it names.  It is the first way all the
same: an error that lies directly behind the sign is one of an operand that starts there, and
parentheses or the target of an update would put the digits further behind.  So climbing over the
nodes of an expression, with errors for operands, gives what `readExpr` gives.
-/

namespace BlockScript

open Grammar
open Peg (Node)

namespace Reader

variable {node : Node Rule} {w : List Char}

/-! ## Where nodes lie -/

theorem text_ne_nil (hnode : rules.Produced node) (hrule : consuming node.rule = true) :
    node.text ≠ [] := by
  obtain ⟨rule, start, stop, text, children⟩ := node
  obtain ⟨rest, hread⟩ := hnode
  exact ranking.ne_nil_of_reads hread (ranking.consumes rule hrule)

theorem start_lt_of_parenthesized {start stop : Position} {text : List Char} {inner : Node Rule}
    (hnode : rules.Produced (.mk .parenthesized start stop text [inner])) :
    start.offset < inner.start.offset := by
  obtain ⟨rest, hread⟩ := hnode
  obtain ⟨front, back, before, behind, rfl, hnodes, hopen, hinner⟩ :=
    Peg.Grammar.reads_seq.1 hread
  obtain ⟨rfl, rfl⟩ := Peg.Grammar.reads_text.1 hopen
  obtain ⟨_, hfollow, -⟩ := hinner.exists_nests
  rw [List.nil_append] at hnodes
  subst hnodes
  rw [Position.offset_afterAll] at hfollow
  exact hfollow.1

theorem start_lt_of_compoundAssignment {start stop : Position} {text : List Char}
    {target op value : Node Rule}
    (hnode : rules.Produced (.mk .compoundAssignment start stop text [target, op, value]))
    (htarget : target.rule = .identifier) : start.offset < value.start.offset := by
  have htext : target.text ≠ [] := text_ne_nil (hnode.child target (by simp)) (by rw [htarget]; rfl)
  obtain ⟨rest, hread⟩ := hnode
  obtain ⟨w, ⟨hstart, hop, hvalue, -⟩, hnests⟩ := hread.exists_nests
  have htargetStop := (hnests target (by simp)).start_lt_stop htext
  have hopStop := (hnests op (by simp)).start_le_stop
  omega

/-! ## Where errors lie -/

variable {region : Region} {found : String} {err : ParseError}

theorem readItems_error :
    ∀ {nodes : List (Node Rule)}, readItems nodes = .error err →
      ∃ node ∈ nodes, readPrimary node = .error err
  | [], h => by cases h
  | [node], h => by
    rw [readItems] at h
    split at h
    · cases h
    · exact ⟨node, List.mem_singleton_self node, map_eq_error.1 h⟩
  | node :: next :: rest, h => by
    rw [readItems] at h
    split at h
    · obtain ⟨inner, hinner, herror⟩ := readItems_error (map_eq_error.1 h)
      exact ⟨inner, by simp [hinner], herror⟩
    split at h
    · obtain ⟨inner, hinner, herror⟩ := readItems_error (map_eq_error.1 h)
      exact ⟨inner, List.mem_cons_of_mem _ hinner, herror⟩
    · obtain herror | ⟨e, -, h⟩ := bind_eq_error.1 h
      · exact ⟨node, List.mem_cons_self, herror⟩
      · obtain ⟨inner, hinner, herror⟩ := readItems_error (map_eq_error.1 h)
        exact ⟨inner, List.mem_cons_of_mem _ hinner, herror⟩

theorem readExpr_error (h : readExpr node = .error (.integerRange region found)) :
    ∃ start stop text children child, node = .mk .expression start stop text children ∧
      child ∈ children ∧ readPrimary child = .error (.integerRange region found) := by
  unfold readExpr at h
  split at h
  · obtain h | ⟨items, -, h⟩ := bind_eq_error.1 h
    · obtain ⟨child, hchild, herror⟩ := readItems_error h
      exact ⟨_, _, _, _, child, rfl, hchild, herror⟩
    · split at h <;> cases h
  · cases h

theorem readIdentifier_ne_range : readIdentifier node ≠ .error (.integerRange region found) := by
  unfold readIdentifier
  split <;> nofun

theorem readUpdateOp_ne_range : readUpdateOp node ≠ .error (.integerRange region found) := by
  unfold readUpdateOp
  split <;> nofun

/-- The operands that can report an integer: the integer itself, and those that hold an
expression. -/
inductive RangeErrorOf (region : Region) (found : String) : Node Rule → Prop
  | integer {start stop : Position} {text : List Char} {children : List (Node Rule)}
      (hregion : region = (Span.between start stop).region) (hfound : found = String.ofList text) :
      RangeErrorOf region found (.mk .integer start stop text children)
  | group {start stop : Position} {text : List Char} {inner : Node Rule}
      (hinner : readExpr inner = .error (.integerRange region found)) :
      RangeErrorOf region found (.mk .parenthesized start stop text [inner])
  | update {start stop : Position} {text : List Char} {target op value : Node Rule}
      (htarget : target.rule = .identifier)
      (hvalue : readExpr value = .error (.integerRange region found)) :
      RangeErrorOf region found (.mk .compoundAssignment start stop text [target, op, value])

theorem readPrimary_error (h : readPrimary node = .error (.integerRange region found)) :
    RangeErrorOf region found node := by
  obtain ⟨rule, start, stop, text, children⟩ := node
  unfold readPrimary at h
  split at h
  · rw [readInteger] at h
    split at h <;> cases h
    exact .integer rfl rfl
  iterate 6 · cases h
  · exact .group (map_eq_error.1 h)
  · obtain htarget | ⟨id, hid, hrest⟩ := bind_eq_error.1 h
    · exact absurd htarget readIdentifier_ne_range
    obtain hop | ⟨op, -, hvalue⟩ := bind_eq_error.1 hrest
    · exact absurd hop readUpdateOp_ne_range
    obtain ⟨_, _, _, _, rfl, -⟩ := readIdentifier_ok hid
    exact .update rfl (map_eq_error.1 hvalue)
  iterate 4 · exact absurd (map_eq_error.1 h) readIdentifier_ne_range
  · cases h

/-- An error lies in the node that it was found in. -/
theorem start_le_of_error (hnests : node.Nests w) :
    (readExpr node = .error (.integerRange region found) → node.start.offset ≤ region.offset) ∧
      (readPrimary node = .error (.integerRange region found) →
        node.start.offset ≤ region.offset) := by
  induction node using Peg.Node.induction with
  | step rule start stop text children ih =>
    obtain ⟨-, -, -, hfollow, hchildren⟩ := hnests
    have hstart := hfollow.start_le hchildren
    constructor
    · intro h
      obtain ⟨_, _, _, _, child, ⟨⟩, hchild, herror⟩ := readExpr_error h
      exact Nat.le_trans (hstart child hchild) ((ih child hchild (hchildren child hchild)).2 herror)
    · intro h
      cases readPrimary_error h with
      | integer hregion =>
        rw [hregion]
        exact Nat.le_refl _
      | @group _ _ _ inner hinner =>
        have herror := (ih inner (by simp) (hchildren inner (by simp))).1 hinner
        exact Nat.le_trans (hstart inner (by simp)) herror
      | @update _ _ _ _ _ value _ hvalue =>
        have herror := (ih value (by simp) (hchildren value (by simp))).1 hvalue
        exact Nat.le_trans (hstart value (by simp)) herror

/-- Only an integer starts where an error in it lies. -/
theorem readPrimary_error_cases (hnode : rules.Produced node) (hnests : node.Nests w)
    (h : readPrimary node = .error (.integerRange region found)) :
    node.start.offset < region.offset ∨
      node.rule = .integer ∧ region.offset = node.start.offset ∧
        found = String.ofList node.text := by
  obtain ⟨-, -, -, -, hchildren⟩ := id hnests
  cases readPrimary_error h with
  | integer hregion hfound => exact .inr ⟨rfl, by rw [hregion]; rfl, hfound⟩
  | @group _ _ _ inner hinner =>
    have herror := (start_le_of_error (hchildren inner (by simp))).1 hinner
    exact .inl (Nat.lt_of_lt_of_le (start_lt_of_parenthesized hnode) herror)
  | @update _ _ _ _ _ value htarget hvalue =>
    have herror := (start_le_of_error (hchildren value (by simp))).1 hvalue
    exact .inl (Nat.lt_of_lt_of_le (start_lt_of_compoundAssignment hnode htarget) herror)

/-! ## The actions -/

/-- The least integer, from the error that its digits alone are out of range. -/
def leastOf? (sign : Node Rule) : Except ParseError Expr → Option Expr
  | .error (.integerRange region found) =>
    if sign.rule = .negateOperator ∧ region.offset = sign.stop.offset ∧
        found = String.ofList minimumDigits then
      some (.integer Int64.minValue ⟨sign.start.offset, region.offset + region.length, none⟩)
    else none
  | _ => none

def unaryOpOf? : Rule → Option UnaryOp
  | .notOperator => some .not
  | .negateOperator => some .negate
  | _ => none

/-- Makes expressions of the nodes of a chain, or the error that was found first. -/
def nodeActions : Actions (Node Rule) (Except ParseError Expr) where
  declared node := declared? node.rule
  primary := readPrimary
  leading sign operand :=
    match leastOf? sign operand with
    | some least => .ok least
    | none => do
      let operand ← operand
      match unaryOpOf? sign.rule with
      | some op => .ok (.unary op operand ⟨sign.start.offset, operand.span.stop, none⟩)
      | none => .error (misplaced "prefix operator" sign)
  infixed left node right := do
    let left ← left
    let right ← right
    match binaryOpOf? node.rule with
    | some op => .ok (Expr.joined op left right)
    | none => .error (misplaced "binary operator" node)

/-! ## Operators by their rules -/

theorem declared?_eq (rule : Rule) :
    declared? rule =
      match unaryOpOf? rule, binaryOpOf? rule with
      | some _, _ => some (.leading, 7)
      | none, some op => some (.infixed .left, op.precedence)
      | none, none => none := by
  cases rule <;> rfl

theorem operatorOf?_eq (node : Node Rule) :
    operatorOf? node =
      match unaryOpOf? node.rule with
      | some op => some (.leading op node.start.offset)
      | none => (binaryOpOf? node.rule).map .infixed := by
  rw [operatorOf?]
  cases node.rule <;> rfl

theorem operatorOf?_of_declared?_none (h : declared? node.rule = none) :
    operatorOf? node = none := by
  rw [declared?_eq] at h
  split at h
  · cases h
  · cases h
  · rename_i hunary hbinary
    rw [operatorOf?_eq, hunary, hbinary]
    rfl

theorem unaryOpOf?_of_declared? {level : Nat} (h : declared? node.rule = some (.leading, level)) :
    ∃ op, unaryOpOf? node.rule = some op ∧
      operatorOf? node = some (.leading op node.start.offset) := by
  rw [declared?_eq] at h
  split at h
  · rename_i op hunary
    exact ⟨op, hunary, by rw [operatorOf?_eq, hunary]⟩
  · cases h
  · cases h

theorem binaryOpOf?_of_declared? {level : Nat}
    (h : declared? node.rule = some (.infixed .left, level)) :
    ∃ op, binaryOpOf? node.rule = some op ∧ level = op.precedence ∧
      operatorOf? node = some (.infixed op) := by
  rw [declared?_eq] at h
  split at h
  · cases h
  · rename_i op hunary hbinary
    cases h
    refine ⟨op, hbinary, rfl, ?_⟩
    rw [operatorOf?_eq, hunary, hbinary]
    rfl
  · cases h

mutual

theorem Chained.chain {nodes : List (Node Rule)} (h : Chained nodes) : nodeActions.Chain nodes := by
  cases h with
  | @leading node rest op hnode hrest =>
    have hdeclared : nodeActions.declared node = some (.leading, 7) := by
      rw [← declared?_unary op, ← hnode]
      rfl
    exact .leading hdeclared hrest.chain
  | @operand node rest hnode hrest =>
    have hall : ∀ rule ∈ operandRules, declared? rule = none := by decide
    exact .operand (hall node.rule hnode) hrest.chainBehind
termination_by nodes.length

theorem Trailing.chainBehind {nodes : List (Node Rule)} (h : Trailing nodes) :
    nodeActions.ChainBehind nodes := by
  cases h with
  | nil => exact .nil
  | @infixed node rest op hnode hrest =>
    have hdeclared : nodeActions.declared node = some (.infixed .left, op.precedence) := by
      rw [← declared?_binary op, ← hnode]
      rfl
    obtain ⟨hpos, hlevel⟩ := op.precedence_bounds
    exact .infixed hdeclared hpos hlevel hrest.chain
termination_by nodes.length

end

/-! ## Recovery is the look ahead -/

theorem isMinimum_iff {sign digits : Node Rule} :
    isMinimum sign digits = true ↔ sign.rule = .negateOperator ∧ digits.rule = .integer ∧
      digits.text = minimumDigits ∧ sign.stop.offset = digits.start.offset := by
  simp only [isMinimum, Bool.and_eq_true, decide_eq_true_eq, and_assoc]

theorem leastOf?_of_isMinimum {sign digits : Node Rule} (hnests : digits.Nests w)
    (h : isMinimum sign digits = true) :
    leastOf? sign (readPrimary digits) =
      some (.integer Int64.minValue ⟨sign.start.offset, digits.stop.offset, none⟩) := by
  obtain ⟨hsign, hrule, htext, hadjacent⟩ := isMinimum_iff.1 h
  have hle := hnests.start_le_stop
  obtain ⟨rule, start, stop, text, children⟩ := digits
  obtain rfl : rule = .integer := hrule
  obtain rfl : text = minimumDigits := htext
  have hread : readPrimary (.mk .integer start stop minimumDigits children) =
      .error (.integerRange (Span.between start stop).region (String.ofList minimumDigits)) := by
    rw [readPrimary, readInteger, if_neg (by decide)]
  have hstop : start.offset + (stop.offset - start.offset) = stop.offset := Nat.add_sub_of_le hle
  rw [hread, leastOf?, if_pos ⟨hsign, hadjacent.symm, rfl⟩]
  simp only [Span.region, Span.between, Span.length, hstop, Node.stop]

theorem leading_error {sign : Node Rule} {operand : Except ParseError Expr}
    (h : nodeActions.leading sign operand = .error (.integerRange region found)) :
    operand = .error (.integerRange region found) := by
  simp only [nodeActions] at h
  split at h
  · cases h
  · obtain herror | ⟨e, -, h⟩ := bind_eq_error.1 h
    · exact herror
    · split at h <;> cases h

/-- An error of an operand behind its operators lies behind its start, unless the operand is an
integer. -/
theorem eval_error {t : OperatorTree (Node Rule)} (hgrouped : t.Grouped nodeActions)
    (hinfixed : t.isInfixed = false)
    (hnodes : ∀ node ∈ t.tokens, rules.Produced node ∧ node.Nests w) {first last : Nat}
    (hfollow : Node.Follow first t.tokens last)
    (h : t.eval nodeActions = .error (.integerRange region found)) :
    first < region.offset ∨ ∃ digits, t = .operand digits ∧ digits.rule = .integer ∧
      region.offset = digits.start.offset ∧ found = String.ofList digits.text := by
  induction t generalizing first with
  | operand node =>
    obtain ⟨hproduced, hnests⟩ := hnodes node (List.mem_singleton_self node)
    obtain hlt | hinteger := readPrimary_error_cases hproduced hnests h
    · exact .inl (Nat.lt_of_le_of_lt hfollow.1 hlt)
    · exact .inr ⟨node, rfl, hinteger⟩
  | leading sign inner ih =>
    obtain ⟨hdeclared, hinner, hgrouped⟩ := hgrouped
    obtain ⟨⟨hproduced, hnests⟩, hrest⟩ := List.forall_mem_cons.1 hnodes
    have hconsuming : consuming sign.rule = true := by
      obtain ⟨op, hop, -⟩ := unaryOpOf?_of_declared? hdeclared
      revert hop
      cases sign.rule <;> first | exact fun _ => rfl | exact nofun
    have hsign := hnests.start_lt_stop (text_ne_nil hproduced hconsuming)
    have hfirst : first ≤ sign.start.offset := hfollow.1
    obtain hlt | ⟨digits, rfl, -, hregion, -⟩ :=
      ih hgrouped hinner hrest hfollow.2 (leading_error h)
    · exact .inl (by omega)
    · have hdigits : sign.stop.offset ≤ digits.start.offset := hfollow.2.1
      exact .inl (by omega)
  | infixed => cases hinfixed

theorem leastOf?_eq_none {sign : Node Rule} {t : OperatorTree (Node Rule)}
    (hgrouped : t.Grouped nodeActions) (hinfixed : t.isInfixed = false)
    (hnodes : ∀ node ∈ t.tokens, rules.Produced node ∧ node.Nests w) {last : Nat}
    (hfollow : Node.Follow sign.stop.offset t.tokens last)
    (h : ∀ digits, t = .operand digits → isMinimum sign digits = false) :
    leastOf? sign (t.eval nodeActions) = none := by
  unfold leastOf?
  split
  · rename_i region found herror
    refine if_neg ?_
    rintro ⟨hsign, hadjacent, hfound⟩
    obtain hlt | ⟨digits, rfl, hrule, hregion, hdigits⟩ :=
      eval_error hgrouped hinfixed hnodes hfollow herror
    · omega
    · have htext : digits.text = minimumDigits := String.ofList_injective (hdigits ▸ hfound)
      have hleast := isMinimum_iff.2 ⟨hsign, hrule, htext, hadjacent.symm.trans hregion⟩
      rw [h digits rfl] at hleast
      cases hleast
  · rfl

/-! ## Agreement -/

/-- Reading stops and starts anew in front of a node that is no integer. -/
theorem readItems_append {rest : List (Node Rule)} (hrule : node.rule ≠ .integer) :
    ∀ front, readItems (front ++ node :: rest) = (do
      let items ← readItems front
      let later ← readItems (node :: rest)
      return items ++ later)
  | [] => (bind_pure _).symm
  | [first] => by
    have hleast : isMinimum first node = false := by simp [isMinimum, hrule]
    cases hitem : operatorOf? first with
    | some item =>
      rw [List.singleton_append, readItems_operator hitem (by rintro _ _ ⟨⟩; exact hleast),
        readItems_operator hitem (by rintro _ _ ⟨⟩)]
      rfl
    | none =>
      rw [List.singleton_append, readItems_operand hitem, readItems_operand hitem]
      cases readPrimary first <;> rfl
  | first :: next :: later => by
    rw [List.cons_append, List.cons_append]
    by_cases hleast : isMinimum first next = true
    · rw [readItems, if_pos hleast, readItems, if_pos hleast, readItems_append hrule later]
      simp only [bind_assoc, pure_bind, List.cons_append]
    have hnext : isMinimum first next = false := Bool.eq_false_iff.2 hleast
    have ih : readItems (next :: later ++ node :: rest) = _ := readItems_append hrule (next :: later)
    rw [List.cons_append] at ih
    cases hitem : operatorOf? first with
    | some item =>
      rw [readItems_operator hitem (by rintro _ _ ⟨⟩; exact hnext),
        readItems_operator hitem (by rintro _ _ ⟨⟩; exact hnext), ih]
      simp only [bind_assoc, pure_bind, List.cons_append]
    | none =>
      rw [readItems_operand hitem, readItems_operand hitem, ih]
      simp only [bind_assoc, pure_bind, List.cons_append]

/-- The tree was evaluated to the expression of the links that were read, or both gave the same
error. -/
inductive Agree (t : OperatorTree (Node Rule)) :
    Except ParseError Expr → Except ParseError (List Item) → Prop
  | ok {e : Expr} {items : List Item} (h : e.Mirrors items t) : Agree t (.ok e) (.ok items)
  | error (err : ParseError) : Agree t (.error err) (.error err)

theorem Agree.leading {t : OperatorTree (Node Rule)} {result : Except ParseError Expr}
    {read : Except ParseError (List Item)} (h : Agree t result read) (ht : t.isInfixed = false)
    (op : UnaryOp) (start : Nat) (token : Node Rule) :
    Agree (.leading token t) (do
      let e ← result
      .ok (.unary op e ⟨start, e.span.stop, none⟩)) (do return .leading op start :: (← read)) := by
  cases h with
  | ok hmirrors => exact .ok (hmirrors.leading ht op start token)
  | error err => exact .error err

theorem Agree.infixed {l r : OperatorTree (Node Rule)} {left right : Except ParseError Expr}
    {front back : Except ParseError (List Item)} (hleft : Agree l left front)
    (hright : Agree r right back) {op : BinaryOp} (hl : l.BindsFrom op.precedence)
    (hr : r.BindsFrom (op.precedence + 1)) (token : Node Rule) :
    Agree (.infixed op.precedence l token r) (do
      let left ← left
      let right ← right
      .ok (Expr.joined op left right)) (do
      let front ← front
      let back ← back
      return front ++ .infixed op :: back) := by
  cases hleft with
  | error err => exact .error err
  | ok hmirrorsLeft =>
    cases hright with
    | error err => exact .error err
    | ok hmirrorsRight => exact .ok (hmirrorsLeft.infixed hmirrorsRight hl hr token)

theorem leading_of_isMinimum {sign digits : Node Rule} (hnests : digits.Nests w)
    (h : isMinimum sign digits = true) :
    nodeActions.leading sign (nodeActions.primary digits) =
      .ok (.integer Int64.minValue ⟨sign.start.offset, digits.stop.offset, none⟩) := by
  simp only [nodeActions, leastOf?_of_isMinimum hnests h]

theorem leading_of_none {sign : Node Rule} {operand : Except ParseError Expr} {op : UnaryOp}
    (hleast : leastOf? sign operand = none) (hop : unaryOpOf? sign.rule = some op) :
    nodeActions.leading sign operand = (do
      let e ← operand
      .ok (.unary op e ⟨sign.start.offset, e.span.stop, none⟩)) := by
  simp only [nodeActions, hleast, hop]

theorem infixed_eq {left right : Except ParseError Expr} {op : BinaryOp}
    (hop : binaryOpOf? node.rule = some op) :
    nodeActions.infixed left node right = (do
      let left ← left
      let right ← right
      .ok (Expr.joined op left right)) := by
  simp only [nodeActions, hop]

theorem readItems_infixed {op : BinaryOp} {front rest : List (Node Rule)}
    (hitem : operatorOf? node = some (.infixed op)) :
    readItems (front ++ node :: rest) = (do
      let items ← readItems front
      let later ← readItems rest
      return items ++ .infixed op :: later) := by
  have hrules : node.rule ≠ .integer ∧ node.rule ≠ .negateOperator := by
    constructor <;> intro hrule <;> simp [operatorOf?, hrule, binaryOpOf?] at hitem
  rw [readItems_append hrules.1,
    readItems_operator hitem fun _ _ _ => isMinimum_eq_false hrules.2]
  simp only [bind_assoc, pure_bind]

theorem isMinimum_head {sign next : Node Rule} {t : OperatorTree (Node Rule)}
    (hgrouped : t.Grouped nodeActions) (hinfixed : t.isInfixed = false)
    (h : ∀ digits, t = .operand digits → isMinimum sign digits = false) {rest : List (Node Rule)}
    (htokens : t.tokens = next :: rest) : isMinimum sign next = false := by
  cases t with
  | operand digits =>
    obtain rfl := (List.cons.inj htokens).1
    exact h digits rfl
  | leading token inner =>
    obtain rfl := (List.cons.inj htokens).1
    refine Bool.eq_false_iff.2 fun hleast => ?_
    have hdeclared : declared? token.rule = some (.leading, 7) := hgrouped.1
    rw [(isMinimum_iff.1 hleast).2.1] at hdeclared
    cases hdeclared
  | infixed => cases hinfixed

theorem agree_eval {t : OperatorTree (Node Rule)} (hgrouped : t.Grouped nodeActions)
    (hnodes : ∀ node ∈ t.tokens, rules.Produced node ∧ node.Nests w) {first last : Nat}
    (hfollow : Node.Follow first t.tokens last) :
    Agree t (t.eval nodeActions) (readItems t.tokens) := by
  induction t generalizing first with
  | operand node =>
    change Agree _ (readPrimary node) (readItems [node])
    rw [readItems_operand (operatorOf?_of_declared?_none hgrouped)]
    cases hread : readPrimary node with
    | ok e => exact .ok (.of_isAtom (readPrimary_ok hread).1 rfl)
    | error err => exact .error err
  | leading sign inner ih =>
    obtain ⟨hdeclared, hinner, hgrouped⟩ := hgrouped
    obtain ⟨op, hop, hitem⟩ := unaryOpOf?_of_declared? hdeclared
    obtain ⟨-, hrest⟩ := List.forall_mem_cons.1 hnodes
    rw [OperatorTree.eval, OperatorTree.tokens]
    by_cases hleast : ∃ digits, inner = .operand digits ∧ isMinimum sign digits = true
    · obtain ⟨digits, rfl, hleast⟩ := hleast
      obtain ⟨-, hnests⟩ := hrest digits (List.mem_singleton_self digits)
      rw [OperatorTree.eval, OperatorTree.tokens, leading_of_isMinimum hnests hleast, readItems,
        if_pos hleast]
      exact .ok (.of_isAtom rfl rfl)
    · -- no error of the operand can be taken for one of digits behind the sign
      have hnone : ∀ digits, inner = .operand digits → isMinimum sign digits = false :=
        fun digits hdigits => Bool.eq_false_iff.2 fun h => hleast ⟨digits, hdigits, h⟩
      rw [readItems_operator hitem fun _ _ => isMinimum_head hgrouped hinner hnone,
        leading_of_none (leastOf?_eq_none hgrouped hinner hrest hfollow.2 hnone) hop]
      exact (ih hgrouped hrest hfollow.2).leading hinner op sign.start.offset sign
  | infixed level left node right ihl ihr =>
    obtain ⟨hdeclared, -, hleft, hright, hgroupedLeft, hgroupedRight⟩ := hgrouped
    obtain ⟨op, hop, rfl, hitem⟩ := binaryOpOf?_of_declared? hdeclared
    obtain ⟨hnodesLeft, hrest⟩ := List.forall_mem_append.1 hnodes
    obtain ⟨-, hnodesRight⟩ := List.forall_mem_cons.1 hrest
    have hfollowLeft := Node.Follow.of_append hfollow fun node hnode => (hrest node hnode).2
    have hfollowRight := Node.Follow.behind hfollow fun node hnode => (hnodesLeft node hnode).2
    rw [OperatorTree.eval, OperatorTree.tokens, infixed_eq hop, readItems_infixed hitem]
    exact (ihl hgroupedLeft hnodesLeft hfollowLeft).infixed
      (ihr hgroupedRight hnodesRight hfollowRight.2) hleft hright node

/-- Climbing over the nodes of an expression gives what is read from it, be it an expression or an
error. -/
theorem readExpr_climbs {start stop : Position} {text : List Char} {children : List (Node Rule)}
    (hnode : rules.Produced (.mk .expression start stop text children)) {calls : Nat}
    (hcalls : children.length ≤ calls) :
    nodeActions.climb calls 0 children =
      some (readExpr (.mk .expression start stop text children), []) := by
  obtain ⟨t, hclimb, rfl, hgrouped⟩ := Actions.climb_chain (chained_of_produced hnode).chain hcalls
  have hproduced := hnode.child
  obtain ⟨rest, hread⟩ := hnode
  obtain ⟨w, hfollow, hnests⟩ := hread.exists_nests
  have hagree := agree_eval hgrouped (fun node hnode => ⟨hproduced node hnode, hnests node hnode⟩)
    hfollow
  rw [hclimb, readExpr]
  revert hagree
  generalize t.eval nodeActions = result, readItems t.tokens = read
  rintro (hmirrors | err)
  · have hdenotes := hmirrors.ofItems?
    simp only [bind, Except.bind, hdenotes]
  · rfl

end Reader

end BlockScript
