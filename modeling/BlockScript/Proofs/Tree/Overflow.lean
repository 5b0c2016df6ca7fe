import BlockScript.Proofs.Grammar.Shapes
import BlockScript.Proofs.Tree.Precedence

/-!
# Integers that are out of range

A match is read without error unless one of its integers does not fit in 64 bits.  The readers go
over the nodes of a match in the order of the text, so the error names the first such integer.
-/

namespace BlockScript

open Grammar
open Peg (Node)

namespace Peg.Node

variable {ρ : Type}

mutual

/-- The node and all nodes below it in the order of the text, each before its children. -/
def preorder : Node ρ → List (Node ρ)
  | .mk rule start stop text children => .mk rule start stop text children :: preorderAll children

def preorderAll : List (Node ρ) → List (Node ρ)
  | [] => []
  | node :: rest => node.preorder ++ preorderAll rest

end

theorem head?_preorder (node : Node ρ) : node.preorder.head? = some node := by
  cases node
  rfl

end Peg.Node

namespace Reader

/-- The node is an integer above the greatest one of 64 bits with a sign.  The one value that a
minus sign brings into range is excepted where it is written without further zeros and directly
behind a leading minus sign, the node before it. -/
def Overflows (previous : Option (Node Rule)) (token : Node Rule) : Prop :=
  token.rule = .integer ∧ Nat.pow 2 63 - 1 < Decimal.natOfDigits token.text ∧
    ¬(token.text = minimumDigits ∧
      ∃ sign ∈ previous, sign.rule = .negateOperator ∧ sign.stop.offset = token.start.offset)

instance (previous : Option (Node Rule)) (token : Node Rule) :
    Decidable (Overflows previous token) :=
  inferInstanceAs (Decidable (_ ∧ _ ∧ ¬(_ ∧ ∃ sign ∈ previous, _ ∧ _)))

/-- The first of the nodes that overflows, behind the node `previous`. -/
def firstOverflow? (previous : Option (Node Rule)) : List (Node Rule) → Option (Node Rule)
  | [] => none
  | token :: rest =>
    if Overflows previous token then some token else firstOverflow? (some token) rest

/-- The first overflow in a node whose own rule is no integer. -/
def overflow? (node : Node Rule) : Option (Node Rule) :=
  firstOverflow? none node.preorder

theorem overflows_iff {previous : Option (Node Rule)} {token : Node Rule} :
    Overflows previous token ↔ token.rule = .integer ∧
      ¬ Decimal.natOfDigits token.text < Nat.pow 2 63 ∧
        ∀ sign ∈ previous, isMinimum sign token = false := by
  have hpow : 0 < Nat.pow 2 63 := Nat.pow_pos (by decide)
  unfold Overflows isMinimum
  constructor
  · rintro ⟨hrule, hlarge, hexcept⟩
    refine ⟨hrule, by omega, fun sign hsign => ?_⟩
    by_cases htext : token.text = minimumDigits
    · have hsign := fun h => hexcept ⟨htext, sign, hsign, h⟩
      simpa [hrule, htext] using hsign
    · simp [htext]
  · rintro ⟨hrule, hlarge, hexcept⟩
    refine ⟨hrule, by omega, ?_⟩
    rintro ⟨htext, sign, hsign, hnegate, hadjacent⟩
    simpa [hrule, htext, hnegate, hadjacent] using hexcept sign hsign

theorem not_overflows {previous : Option (Node Rule)} {token : Node Rule}
    (h : token.rule ≠ .integer) : ¬Overflows previous token :=
  fun hoverflows => h hoverflows.1

theorem firstOverflow?_cons {previous : Option (Node Rule)} {token : Node Rule}
    {rest : List (Node Rule)} (h : ¬Overflows previous token) :
    firstOverflow? previous (token :: rest) = firstOverflow? (some token) rest := by
  rw [firstOverflow?, if_neg h]

/-- What comes before matters only where an integer follows. -/
theorem firstOverflow?_eq {tokens : List (Node Rule)}
    (h : ∀ token ∈ tokens.head?, token.rule ≠ .integer) (previous previous' : Option (Node Rule)) :
    firstOverflow? previous tokens = firstOverflow? previous' tokens := by
  cases tokens with
  | nil => rfl
  | cons token tokens =>
    have hrule := h token rfl
    rw [firstOverflow?_cons (not_overflows hrule), firstOverflow?_cons (not_overflows hrule)]

theorem firstOverflow?_append {front back : List (Node Rule)}
    (h : ∀ token ∈ back.head?, token.rule ≠ .integer) (previous : Option (Node Rule)) :
    firstOverflow? previous (front ++ back) =
      (firstOverflow? previous front).or (firstOverflow? none back) := by
  induction front generalizing previous with
  | nil => exact firstOverflow?_eq h previous none
  | cons token front ih =>
    rw [List.cons_append, firstOverflow?, firstOverflow?]
    split
    · rfl
    · exact ih (some token)

theorem head?_preorderAll (nodes : List (Node Rule)) :
    (Node.preorderAll nodes).head? = nodes.head? := by
  cases nodes with
  | nil => rfl
  | cons node nodes => rw [Node.preorderAll, List.head?_append, node.head?_preorder]; rfl

theorem firstOverflow?_preorderAll_eq {nodes : List (Node Rule)}
    (h : ∀ next ∈ nodes.head?, next.rule ≠ .integer) (previous previous' : Option (Node Rule)) :
    firstOverflow? previous (Node.preorderAll nodes) =
      firstOverflow? previous' (Node.preorderAll nodes) := by
  rw [← head?_preorderAll] at h
  exact firstOverflow?_eq h previous previous'

theorem firstOverflow?_preorder (node : Node Rule) (h : node.rule ≠ .integer)
    (previous : Option (Node Rule)) : firstOverflow? previous node.preorder = overflow? node := by
  refine firstOverflow?_eq (fun token htoken => ?_) previous none
  rw [node.head?_preorder] at htoken
  cases htoken
  exact h

theorem firstOverflow?_preorderAll_cons {node : Node Rule} {nodes : List (Node Rule)}
    (h : ∀ next ∈ nodes.head?, next.rule ≠ .integer) (previous : Option (Node Rule)) :
    firstOverflow? previous (Node.preorderAll (node :: nodes)) =
      (firstOverflow? previous node.preorder).or
        (firstOverflow? none (Node.preorderAll nodes)) := by
  rw [← head?_preorderAll] at h
  exact firstOverflow?_append h previous

theorem findSome?_cons_eq_or {α β : Type} (f : α → Option β) (a : α) (as : List α) :
    (a :: as).findSome? f = (f a).or (as.findSome? f) := by
  rw [List.findSome?_cons]
  cases f a <;> rfl

/-- Among nodes that are no integers, the first overflow is the one in the first node that has
any. -/
theorem firstOverflow?_preorderAll {nodes : List (Node Rule)}
    (h : ∀ node ∈ nodes, node.rule ≠ .integer) (previous : Option (Node Rule)) :
    firstOverflow? previous (Node.preorderAll nodes) = nodes.findSome? overflow? := by
  induction nodes generalizing previous with
  | nil => rfl
  | cons node nodes ih =>
    obtain ⟨hnode, hnodes⟩ := List.forall_mem_cons.1 h
    have hhead : ∀ next ∈ nodes.head?, next.rule ≠ .integer :=
      fun next hnext => hnodes next (List.mem_of_mem_head? hnext)
    rw [firstOverflow?_preorderAll_cons hhead, firstOverflow?_preorder node hnode, ih hnodes,
      findSome?_cons_eq_or]

theorem overflow?_mk {rule : Rule} {start stop : Position} {text : List Char}
    {children : List (Node Rule)} (hrule : rule ≠ .integer)
    (hchildren : ∀ child ∈ children, child.rule ≠ .integer) :
    overflow? (.mk rule start stop text children) = children.findSome? overflow? := by
  have hnode : ¬Overflows none (.mk rule start stop text children) := not_overflows hrule
  rw [overflow?, Node.preorder, firstOverflow?_cons hnode, firstOverflow?_preorderAll hchildren]

/-! ## Results that report an overflow -/

variable {α β : Type}

def rangeError (token : Node Rule) : ParseError :=
  .integerRange (Span.between token.start token.stop).region (String.ofList token.text)

/-- The result is an error if and only if an overflow was found, and then the error for it. -/
def Reports (found : Option (Node Rule)) (r : Except ParseError α) : Prop :=
  ∀ e, r = .error e ↔ ∃ token ∈ found, e = rangeError token

theorem reports_ok (a : α) : Reports none (.ok a) := by
  simp [Reports]

theorem reports_error (token : Node Rule) :
    Reports (some token) (.error (rangeError token) : Except ParseError α) := by
  simp [Reports, eq_comm]

theorem Reports.bind {found later : Option (Node Rule)} {x : Except ParseError α}
    {f : α → Except ParseError β} (hx : Reports found x)
    (hf : ∀ a, x = .ok a → Reports later (f a)) : Reports (found.or later) (x >>= f) := by
  cases x with
  | ok a =>
    cases found with
    | none => exact hf a rfl
    | some token => cases (hx _).2 ⟨token, rfl, rfl⟩
  | error e =>
    obtain ⟨token, htoken, rfl⟩ := (hx e).1 rfl
    cases htoken
    exact reports_error token

theorem Reports.bind_ok {found : Option (Node Rule)} {x : Except ParseError α}
    {f : α → Except ParseError β} (hx : Reports found x)
    (hf : ∀ a, x = .ok a → ∃ b, f a = .ok b) : Reports found (x >>= f) := by
  rw [← Option.or_none (o := found)]
  refine hx.bind fun a ha => ?_
  obtain ⟨b, hb⟩ := hf a ha
  rw [hb]
  exact reports_ok b

theorem Reports.map {found : Option (Node Rule)} {x : Except ParseError α} (hx : Reports found x)
    (f : α → β) : Reports found (x >>= fun a => pure (f a)) :=
  hx.bind_ok fun a _ => ⟨f a, rfl⟩

/-! ## Tokens -/

theorem overflow?_of_produced {rule : Rule} {start stop : Position} {text : List Char}
    {children : List (Node Rule)} (hnode : rules.Produced (.mk rule start stop text children))
    (hinteger : rule ≠ .integer) (hnames : .integer ∉ (pattern rule).names) :
    overflow? (.mk rule start stop text children) = children.findSome? overflow? := by
  refine overflow?_mk hinteger fun child hchild hrule => hnames ?_
  rw [← hrule]
  exact rule_mem_names hnode child hchild

theorem children_of_token {rule : Rule} {start stop : Position} {text : List Char}
    {children : List (Node Rule)} (hnode : rules.Produced (.mk rule start stop text children))
    (hnames : (pattern rule).names = []) : children = [] := by
  have hchildren := rule_mem_names hnode
  simpa [hnames, ← List.eq_nil_iff_forall_not_mem] using hchildren

theorem overflow?_token {node : Node Rule} {rule : Rule} (hnode : rules.Produced node)
    (hrule : node.rule = rule) (hnames : (pattern rule).names = []) (hinteger : rule ≠ .integer) :
    overflow? node = none := by
  obtain ⟨_, start, stop, text, children⟩ := node
  obtain rfl := hrule
  obtain rfl := children_of_token hnode hnames
  exact overflow?_mk hinteger (by simp)

theorem preorder_token {node : Node Rule} {rule : Rule} (hnode : rules.Produced node)
    (hrule : node.rule = rule) (hnames : (pattern rule).names = []) : node.preorder = [node] := by
  obtain ⟨_, start, stop, text, children⟩ := node
  obtain rfl := hrule
  obtain rfl := children_of_token hnode hnames
  rfl

/-! ## Chains -/

mutual

/-- Operands behind any number of operators, with a binary operator between any two of them. -/
inductive Chained : List (Node Rule) → Prop
  | leading {node : Node Rule} {nodes : List (Node Rule)} (op : UnaryOp)
      (hnode : node.rule = op.rule) (hnodes : Chained nodes) : Chained (node :: nodes)
  | operand {node : Node Rule} {nodes : List (Node Rule)} (hnode : node.rule ∈ operandRules)
      (hnodes : Trailing nodes) : Chained (node :: nodes)

/-- What can follow an operand. -/
inductive Trailing : List (Node Rule) → Prop
  | nil : Trailing []
  | infixed {node : Node Rule} {nodes : List (Node Rule)} (op : BinaryOp)
      (hnode : node.rule = op.rule) (hnodes : Chained nodes) : Trailing (node :: nodes)

end

theorem yields_leadingOperator {word : List Rule} (h : rules.Yields leadingOperator word) :
    ∃ op : UnaryOp, word = [op.rule] := by
  rcases h with h | h <;> rcases h with h | rfl
  · cases h
  · exact ⟨.not, rfl⟩
  · cases h
  · exact ⟨.negate, rfl⟩

theorem yields_binaryOperator {word : List Rule} (h : rules.Yields binaryOperator word) :
    ∃ op : BinaryOp, word = [op.rule] := by
  have hword : ∃ rule ∈ ([.or, .and, .equal, .notEqual, .lessEqual, .greaterEqual, .less, .greater,
      .add, .subtract, .multiply, .divide, .modulo] : List BinaryOp), word = [rule.rule] := by
    simpa [binaryOperator, Peg.Pattern.anyOf, Peg.Grammar.Yields, rules, Grammar.hidden,
      BinaryOp.rule] using h
  obtain ⟨op, -, hop⟩ := hword
  exact ⟨op, hop⟩

theorem yields_leading {word : List Rule}
    (h : rules.Yields (.many leadingOperator) word) :
    ∃ leading : List UnaryOp, word = leading.map UnaryOp.rule := by
  replace h := h.rounds
  obtain ⟨parts, hparts, rfl⟩ := h
  induction parts with
  | nil => exact ⟨[], rfl⟩
  | cons part parts ih =>
    obtain ⟨hpart, hmore⟩ := List.forall_mem_cons.1 hparts
    obtain ⟨op, rfl⟩ := yields_leadingOperator hpart
    obtain ⟨leading, hleading⟩ := ih hmore
    refine ⟨op :: leading, ?_⟩
    rw [List.flatten_cons, hleading, List.singleton_append, List.map_cons]

theorem chained_of_map {nodes : List (Node Rule)} {leading : List UnaryOp} {rule : Rule}
    {word : List Rule} (hrule : rule ∈ operandRules)
    (hword : ∀ rest : List (Node Rule), rest.map Node.rule = word → Trailing rest)
    (h : nodes.map Node.rule = leading.map UnaryOp.rule ++ rule :: word) : Chained nodes := by
  induction leading generalizing nodes with
  | nil =>
    obtain ⟨node, rest, rfl, rfl, hrest⟩ := List.map_eq_cons_iff.1 h
    exact .operand hrule (hword rest hrest)
  | cons op leading ih =>
    obtain ⟨node, rest, rfl, hnode, hrest⟩ := List.map_eq_cons_iff.1 h
    exact .leading op hnode (ih hrest)

theorem trailing_of_map {nodes : List (Node Rule)} {parts : List (List Rule)}
    (hparts : ∀ part ∈ parts, rules.Yields link part)
    (h : nodes.map Node.rule = parts.flatten) : Trailing nodes := by
  induction parts generalizing nodes with
  | nil =>
    obtain rfl := List.map_eq_nil_iff.1 h
    exact .nil
  | cons part parts ih =>
    obtain ⟨hpart, hmore⟩ := List.forall_mem_cons.1 hparts
    obtain ⟨_, hop, _, ⟨_, rfl, _, ⟨_, hleading, _, ⟨_, rfl, _, hprimary, rfl⟩, rfl⟩, rfl⟩, rfl⟩ :=
      hpart
    obtain ⟨op, rfl⟩ := yields_binaryOperator hop
    obtain ⟨leading, rfl⟩ := yields_leading hleading
    obtain ⟨rule, hrule, rfl⟩ := yields_primary hprimary
    simp only [List.flatten_cons, List.cons_append, List.nil_append, List.append_assoc] at h
    obtain ⟨node, rest, rfl, hnode, hrest⟩ := List.map_eq_cons_iff.1 h
    exact .infixed op hnode (chained_of_map hrule (fun rest => ih hmore) hrest)

theorem chained_of_produced {start stop : Position} {text : List Char}
    {children : List (Node Rule)}
    (h : rules.Produced (.mk .expression start stop text children)) : Chained children := by
  obtain ⟨_, hleading, _, ⟨_, rfl, _, ⟨_, hprimary, _, ⟨_, rfl, _, hlinks, rfl⟩, rfl⟩, rfl⟩,
    hword⟩ := h.yields
  obtain ⟨leading, rfl⟩ := yields_leading hleading
  obtain ⟨rule, hrule, rfl⟩ := yields_primary hprimary
  obtain ⟨parts, hparts, rfl⟩ := hlinks.rounds
  simp only [List.nil_append, List.cons_append] at hword
  exact chained_of_map hrule (fun rest => trailing_of_map hparts) hword

/-! ## Reading a chain -/

theorem operatorOf?_of_mem_operandRules {node : Node Rule} (h : node.rule ∈ operandRules) :
    operatorOf? node = none := by
  have hall : ∀ rule ∈ operandRules,
      rule ≠ .notOperator ∧ rule ≠ .negateOperator ∧ binaryOpOf? rule = none := by decide
  obtain ⟨hnot, hnegate, hbinary⟩ := hall node.rule h
  unfold operatorOf?
  split
  · exact absurd ‹_› hnot
  · exact absurd ‹_› hnegate
  · rw [hbinary]
    rfl

theorem Trailing.head {nodes : List (Node Rule)} (h : Trailing nodes) :
    ∀ next ∈ nodes.head?, next.rule ≠ .integer := by
  cases h with
  | nil => simp
  | infixed op hnode _ =>
    rintro _ ⟨⟩
    rw [hnode]
    cases op <;> decide

theorem Chained.of_isMinimum {sign digits : Node Rule} {nodes : List (Node Rule)}
    (h : Chained (digits :: nodes)) (hleast : isMinimum sign digits = true) :
    digits.rule = .integer ∧ Trailing nodes := by
  have hdigits : digits.rule = .integer := by
    simp only [isMinimum, Bool.and_eq_true, decide_eq_true_eq] at hleast
    exact hleast.1.1.2
  cases h with
  | leading op hnode _ =>
    rw [hdigits] at hnode
    cases op <;> cases hnode
  | operand _ hnodes => exact ⟨hdigits, hnodes⟩

/-- What is read from the node, unless it is the digits of the least integer. -/
def ReportsAlone (node : Node Rule) : Prop :=
  ∀ previous : Option (Node Rule), (∀ sign ∈ previous, isMinimum sign node = false) →
    Reports (firstOverflow? previous node.preorder) (readPrimary node)

mutual

theorem Chained.reports {nodes : List (Node Rule)} (h : Chained nodes)
    (hnodes : ∀ node ∈ nodes,
      rules.Produced node ∧ (node.rule ∈ operandRules → ReportsAlone node))
    (previous : Option (Node Rule))
    (hprevious : ∀ sign ∈ previous, ∀ next rest, nodes = next :: rest →
      isMinimum sign next = false) :
    Reports (firstOverflow? previous (Node.preorderAll nodes)) (readItems nodes) ∧
      ∀ items, readItems nodes = .ok items →
        ∀ left leading, ∃ e, Expr.ofItemsFrom left leading items = some e := by
  cases h with
  | @leading node rest op hnode hrest =>
    obtain ⟨⟨hproduced, -⟩, hmore⟩ := List.forall_mem_cons.1 hnodes
    have hsingle : node.preorder = [node] :=
      preorder_token hproduced hnode (by cases op <;> rfl)
    have hinteger : node.rule ≠ .integer := by
      rw [hnode]
      cases op <;> decide
    rw [Node.preorderAll, hsingle, List.singleton_append,
      firstOverflow?_cons (not_overflows hinteger)]
    by_cases hleast : ∃ digits later, rest = digits :: later ∧ isMinimum node digits = true
    · -- the digits belong to the minus sign, and what follows is behind an operand
      obtain ⟨digits, later, rfl, hleast⟩ := hleast
      obtain ⟨hdigits, htrailing⟩ := hrest.of_isMinimum hleast
      obtain ⟨⟨hproduced, -⟩, hmore⟩ := List.forall_mem_cons.1 hmore
      have hsingle : digits.preorder = [digits] := preorder_token hproduced hdigits rfl
      have hfits : ¬Overflows (some node) digits := by
        rw [overflows_iff]
        rintro ⟨-, -, hexcept⟩
        simp [hexcept node rfl] at hleast
      obtain ⟨hlater, hitems⟩ := Trailing.reports htrailing hmore
      rw [Node.preorderAll, hsingle, List.singleton_append, firstOverflow?_cons hfits,
        firstOverflow?_preorderAll_eq htrailing.head _ none, readItems, if_pos hleast]
      refine ⟨hlater.map _, fun items hread left leading => ?_⟩
      simp only [bind_eq_ok, pure_eq_ok] at hread
      obtain ⟨items, hread, rfl⟩ := hread
      exact hitems items hread _ left leading
    · have hnext : ∀ next later, rest = next :: later → isMinimum node next = false :=
        fun next later hrest => Bool.eq_false_iff.2 fun hmin => hleast ⟨next, later, hrest, hmin⟩
      obtain ⟨hlater, hitems⟩ := Chained.reports hrest hmore (some node) (by
        rintro _ ⟨⟩
        exact hnext)
      rw [readItems_operator (operatorOf?_leading hnode) hnext]
      refine ⟨hlater.map _, fun items hread left leading => ?_⟩
      simp only [bind_eq_ok, pure_eq_ok] at hread
      obtain ⟨items, hread, rfl⟩ := hread
      exact hitems items hread left _
  | @operand node rest hnode hrest =>
    obtain ⟨⟨-, hreports⟩, hmore⟩ := List.forall_mem_cons.1 hnodes
    have hfirst := hreports hnode previous fun sign hsign => hprevious sign hsign node rest rfl
    obtain ⟨hlater, hitems⟩ := Trailing.reports hrest hmore
    rw [firstOverflow?_preorderAll_cons hrest.head,
      readItems_operand (operatorOf?_of_mem_operandRules hnode)]
    refine ⟨hfirst.bind fun e _ => hlater.map _, fun items hread left leading => ?_⟩
    simp only [bind_eq_ok, pure_eq_ok] at hread
    obtain ⟨e, -, later, hread, rfl⟩ := hread
    exact hitems later hread e left leading
termination_by nodes.length

theorem Trailing.reports {nodes : List (Node Rule)} (h : Trailing nodes)
    (hnodes : ∀ node ∈ nodes,
      rules.Produced node ∧ (node.rule ∈ operandRules → ReportsAlone node)) :
    Reports (firstOverflow? none (Node.preorderAll nodes)) (readItems nodes) ∧
      ∀ items, readItems nodes = .ok items →
        ∀ value left leading, ∃ e,
          Expr.ofItemsFrom left leading (.operand value :: items) = some e := by
  cases h with
  | nil =>
    refine ⟨reports_ok [], ?_⟩
    rintro items ⟨⟩ value left leading
    exact ⟨_, rfl⟩
  | @infixed node rest op hnode hrest =>
    obtain ⟨⟨hproduced, -⟩, hmore⟩ := List.forall_mem_cons.1 hnodes
    have hsingle : node.preorder = [node] :=
      preorder_token hproduced hnode (by cases op <;> rfl)
    have hinteger : node.rule ≠ .integer := by
      rw [hnode]
      cases op <;> decide
    have hnegate : node.rule ≠ .negateOperator := by
      rw [hnode]
      cases op <;> decide
    obtain ⟨hlater, hitems⟩ := Chained.reports hrest hmore (some node) (by
      rintro _ ⟨⟩ next rest -
      exact isMinimum_eq_false hnegate)
    rw [Node.preorderAll, hsingle, List.singleton_append,
      firstOverflow?_cons (not_overflows hinteger),
      readItems_operator (operatorOf?_infixed hnode) fun _ _ _ => isMinimum_eq_false hnegate]
    refine ⟨hlater.map _, fun items hread value left leading => ?_⟩
    simp only [bind_eq_ok, pure_eq_ok] at hread
    obtain ⟨later, hread, rfl⟩ := hread
    exact hitems later hread _ _
termination_by nodes.length

end

/-! ## Reading operands -/

theorem reports_readIdentifier {node : Node Rule} (hrule : node.rule = .identifier) :
    Reports none (readIdentifier node) := by
  obtain ⟨_, start, stop, text, children⟩ := node
  obtain rfl := hrule
  exact reports_ok _

theorem reports_readUpdateOp {node : Node Rule} (hrule : node.rule ∈ updateRules) :
    Reports none (readUpdateOp node) := by
  have hall : ∀ rule ∈ updateRules, (updateOpOf? rule).isSome := by decide
  obtain ⟨op, hop⟩ := Option.isSome_iff_exists.1 (hall _ hrule)
  rw [readUpdateOp, hop]
  exact reports_ok op

theorem reports_readInteger {start stop : Position} {text : List Char}
    {children : List (Node Rule)} (hnode : rules.Produced (.mk .integer start stop text children)) :
    ReportsAlone (.mk .integer start stop text children) := by
  intro previous hprevious
  rw [preorder_token hnode rfl rfl, firstOverflow?]
  change Reports _ (readInteger text (.between start stop))
  by_cases hlt : Decimal.natOfDigits text < Nat.pow 2 63
  · have hfits : ¬Overflows previous (.mk .integer start stop text children) := by
      rw [overflows_iff]
      exact fun hoverflows => hoverflows.2.1 hlt
    rw [if_neg hfits, readInteger, if_pos hlt]
    exact reports_ok _
  · have hoverflows : Overflows previous (.mk .integer start stop text children) :=
      overflows_iff.2 ⟨rfl, hlt, hprevious⟩
    rw [if_pos hoverflows, readInteger, if_neg hlt]
    exact reports_error (.mk .integer start stop text children)

theorem reports_readExpr {start stop : Position} {text : List Char} {children : List (Node Rule)}
    (hnode : rules.Produced (.mk .expression start stop text children))
    (hchildren : ∀ child ∈ children,
      rules.Produced child ∧ (child.rule ∈ operandRules → ReportsAlone child)) :
    Reports (overflow? (.mk .expression start stop text children))
      (readExpr (.mk .expression start stop text children)) := by
  have hinteger : ¬Overflows none (.mk .expression start stop text children) :=
    not_overflows (show Rule.expression ≠ .integer by decide)
  have hnegate : ∀ next, isMinimum (.mk .expression start stop text children) next = false :=
    fun _ => isMinimum_eq_false (show Rule.expression ≠ .negateOperator by decide)
  obtain ⟨hitems, hchain⟩ := (chained_of_produced hnode).reports hchildren
    (some (.mk .expression start stop text children)) (by
      rintro _ ⟨⟩ next rest -
      exact hnegate next)
  rw [overflow?, Node.preorder, firstOverflow?_cons hinteger, readExpr]
  refine hitems.bind_ok fun items hread => ?_
  obtain ⟨e, he⟩ := hchain items hread none []
  exact ⟨e, by rw [Expr.ofItems?, he]⟩

section

variable {start stop : Position} {text : List Char} {children : List (Node Rule)}

theorem reports_token {rule : Rule} (hrule : rule ∈ [Rule.float, .string, .nilWord, .identifier])
    (hnode : rules.Produced (.mk rule start stop text children)) :
    Reports (overflow? (.mk rule start stop text children))
      (readPrimary (.mk rule start stop text children)) := by
  have hall : ∀ rule ∈ [Rule.float, .string, .nilWord, .identifier],
      (pattern rule).names = [] ∧ rule ≠ .integer := by decide
  rw [overflow?_token hnode rfl (hall rule hrule).1 (hall rule hrule).2]
  simp only [List.mem_cons, List.not_mem_nil, or_false] at hrule
  rcases hrule with rfl | rfl | rfl | rfl <;> exact reports_ok _

theorem reports_boolean (hnode : rules.Produced (.mk .boolean start stop text children)) :
    Reports (overflow? (.mk .boolean start stop text children))
      (readPrimary (.mk .boolean start stop text children)) := by
  obtain ⟨word, rfl, hword⟩ := children_of_boolean hnode
  have hproduced := hnode.child word (List.mem_singleton.2 rfl)
  have hnone : overflow? word = none := by
    rcases hword with hrule | hrule <;> exact overflow?_token hproduced hrule rfl (by decide)
  rw [overflow?_of_produced hnode (by decide) (by decide), findSome?_cons_eq_or, hnone]
  obtain ⟨_, _, _, _, _⟩ := word
  rcases hword with hrule | hrule <;> obtain rfl := hrule <;> exact reports_ok _

theorem reports_step {rule : Rule} (hrule : rule ∈ stepRules)
    (hnode : rules.Produced (.mk rule start stop text children)) :
    Reports (overflow? (.mk rule start stop text children))
      (readPrimary (.mk rule start stop text children)) := by
  have hall : ∀ rule ∈ stepRules, rule ≠ .integer ∧ .integer ∉ (pattern rule).names := by decide
  obtain ⟨target, rfl, htarget⟩ := children_of_step hrule hnode
  have hproduced := hnode.child _ (List.mem_singleton.2 rfl)
  rw [overflow?_of_produced hnode (hall rule hrule).1 (hall rule hrule).2, findSome?_cons_eq_or,
    overflow?_token hproduced htarget rfl (by decide)]
  simp only [stepRules, List.mem_cons, List.not_mem_nil, or_false] at hrule
  rcases hrule with rfl | rfl | rfl | rfl <;> exact (reports_readIdentifier htarget).map _

theorem reports_compoundAssignment
    (hnode : rules.Produced (.mk .compoundAssignment start stop text children))
    (hexpr : ∀ child ∈ children, child.rule = .expression →
      Reports (overflow? child) (readExpr child)) :
    Reports (overflow? (.mk .compoundAssignment start stop text children))
      (readPrimary (.mk .compoundAssignment start stop text children)) := by
  have hall : ∀ rule ∈ updateRules, (pattern rule).names = [] ∧ rule ≠ .integer := by decide
  obtain ⟨target, op, value, rfl, htarget, hop, hvalue⟩ := children_of_compoundAssignment hnode
  obtain ⟨hnames, hinteger⟩ := hall op.rule hop
  have hnoTarget := overflow?_token (hnode.child target (by simp)) htarget rfl (by decide)
  have hnoOp := overflow?_token (hnode.child op (by simp)) rfl hnames hinteger
  rw [overflow?_of_produced hnode (by decide) (by decide), findSome?_cons_eq_or, hnoTarget,
    findSome?_cons_eq_or, hnoOp, findSome?_cons_eq_or, List.findSome?_nil, Option.or_none]
  exact (reports_readIdentifier htarget).bind fun _ _ =>
    (reports_readUpdateOp hop).bind fun _ _ => (hexpr value (by simp) hvalue).map _

theorem reports_parenthesized
    (hnode : rules.Produced (.mk .parenthesized start stop text children))
    (hexpr : ∀ child ∈ children, child.rule = .expression →
      Reports (overflow? child) (readExpr child)) :
    Reports (overflow? (.mk .parenthesized start stop text children))
      (readPrimary (.mk .parenthesized start stop text children)) := by
  obtain ⟨inner, rfl, hinner⟩ := children_of_parenthesized hnode
  rw [overflow?_of_produced hnode (by decide) (by decide), findSome?_cons_eq_or, List.findSome?_nil,
    Option.or_none]
  exact (hexpr inner (by simp) hinner).map _

end

theorem reports_of_produced (node : Node Rule) (hnode : rules.Produced node) :
    (node.rule = .expression → Reports (overflow? node) (readExpr node)) ∧
      (node.rule ∈ operandRules → ReportsAlone node) := by
  induction node using Peg.Node.induction with
  | step rule start stop text children ih =>
    have hchildren := fun child hchild => ih child hchild (hnode.child child hchild)
    have hexpr := fun child hchild => (hchildren child hchild).1
    constructor
    · rintro ⟨⟩
      exact reports_readExpr hnode fun child hchild =>
        ⟨hnode.child child hchild, (hchildren child hchild).2⟩
    · intro hrule
      have hkinds : ∀ rule ∈ operandRules, rule = .integer ∨
          rule ≠ .integer ∧ (rule ∈ [Rule.float, .string, .nilWord, .identifier] ∨
            rule = .boolean ∨ rule ∈ stepRules ∨ rule = .compoundAssignment ∨
            rule = .parenthesized) := by decide
      rcases hkinds rule hrule with rfl | ⟨hinteger, hkind⟩
      · exact reports_readInteger hnode
      · intro previous _
        rw [firstOverflow?_preorder (.mk rule start stop text children) hinteger]
        rcases hkind with htoken | rfl | hstep | rfl | rfl
        · exact reports_token htoken hnode
        · exact reports_boolean hnode
        · exact reports_step hstep hnode
        · exact reports_compoundAssignment hnode hexpr
        · exact reports_parenthesized hnode hexpr

end Reader

end BlockScript
