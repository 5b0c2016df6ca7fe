import BlockScript.Proofs.Tree.Precedence

/-!
# Precedence climbing

The operators are declared in a table of levels, each with its side and what it groups to.  Tokens
are read over the table by climbing: an operand is continued with the operators that bind tighter
than a floor, and the right operand of each is read with the level of the operator as the floor.

On a chain of operands and operators the climb ends, and it takes all tokens.  What it makes of them
is given by the one grouped tree over the tokens; so for the links of an expression it is the tree
that they denote.
-/

namespace BlockScript

/-! ## The table -/

/-- How operators of one level are grouped. -/
inductive Grouping where
  | left
  | right
  deriving DecidableEq, Repr

/-- Where an operator stands. -/
inductive Affix where
  | leading
  | infixed (grouping : Grouping)
  deriving DecidableEq, Repr

/-- The operators of the language by level, the loosest first. -/
def operatorTable : List (List (Rule × Affix)) :=
  [[(.orOperator, .infixed .left)],
    [(.andOperator, .infixed .left)],
    [(.equalOperator, .infixed .left), (.notEqualOperator, .infixed .left)],
    [(.lessOperator, .infixed .left), (.lessEqualOperator, .infixed .left),
      (.greaterOperator, .infixed .left), (.greaterEqualOperator, .infixed .left)],
    [(.addOperator, .infixed .left), (.subtractOperator, .infixed .left)],
    [(.multiplyOperator, .infixed .left), (.divideOperator, .infixed .left),
      (.moduloOperator, .infixed .left)],
    [(.notOperator, .leading), (.negateOperator, .leading)]]

/-- What the levels declare of a rule, if the first of them is `level`. -/
def declaredFrom? (rule : Rule) (level : Nat) : List (List (Rule × Affix)) → Option (Affix × Nat)
  | [] => none
  | operators :: rest =>
    match operators.lookup rule with
    | some affix => some (affix, level)
    | none => declaredFrom? rule (level + 1) rest

/-- What the table declares of a rule, and at which level. -/
def declared? (rule : Rule) : Option (Affix × Nat) :=
  declaredFrom? rule 1 operatorTable

/-- The floor for the right operand of an operator. -/
def Grouping.floor (level : Nat) : Grouping → Nat
  | .left => level
  | .right => level - 1

/-! ## The climb -/

/-- What is made of the tokens of a kind. -/
structure Actions (α β : Type) where
  declared : α → Option (Affix × Nat)
  primary : α → β
  leading : α → β → β
  infixed : β → α → β → β

namespace Actions

variable {α β : Type} (actions : Actions α β)

mutual

/-- Reads an operand, and the operators behind it that bind tighter than `floor`.  Gives the tokens
that are left. -/
def climb : Nat → Nat → List α → Option (β × List α)
  | 0, _, _ => none
  | _ + 1, _, [] => none
  | calls + 1, floor, token :: rest =>
    match actions.declared token with
    | none => climbBehind calls floor (actions.primary token) rest
    | some (.leading, level) => do
      let (operand, rest) ← climb calls (level - 1) rest
      climbBehind calls floor (actions.leading token operand) rest
    | some (.infixed _, _) => none

/-- Reads the operators behind `left` that bind tighter than `floor`, with their operands. -/
def climbBehind : Nat → Nat → β → List α → Option (β × List α)
  | _, _, left, [] => some (left, [])
  | 0, _, _, _ :: _ => none
  | calls + 1, floor, left, token :: rest =>
    match actions.declared token with
    | none => none
    | some (affix, level) =>
      if floor < level then
        match affix with
        | .leading => none
        | .infixed grouping => do
          let (right, rest) ← climb calls (grouping.floor level) rest
          climbBehind calls floor (actions.infixed left token right) rest
      else some (left, token :: rest)

end

end Actions

/-! ## Trees over tokens -/

inductive OperatorTree (α : Type) where
  | operand (token : α)
  | leading (token : α) (inner : OperatorTree α)
  | infixed (level : Nat) (left : OperatorTree α) (token : α) (right : OperatorTree α)

namespace OperatorTree

variable {α β : Type} {actions : Actions α β}

def tokens : OperatorTree α → List α
  | .operand token => [token]
  | .leading token inner => token :: inner.tokens
  | .infixed _ left token right => left.tokens ++ token :: right.tokens

def isInfixed : OperatorTree α → Bool
  | .infixed .. => true
  | _ => false

/-- What the actions make of a tree. -/
def eval (actions : Actions α β) : OperatorTree α → β
  | .operand token => actions.primary token
  | .leading token inner => actions.leading token (inner.eval actions)
  | .infixed _ left token right =>
    actions.infixed (left.eval actions) token (right.eval actions)

/-- An operator between operands at the top is of level `n` at least. -/
def BindsFrom (n : Nat) : OperatorTree α → Prop
  | .infixed level .. => n ≤ level
  | _ => True

/-- The tokens are where they are declared to stand, and grouped by their levels. -/
def Grouped (actions : Actions α β) : OperatorTree α → Prop
  | .operand token => actions.declared token = none
  | .leading token inner =>
    actions.declared token = some (.leading, 7) ∧ inner.isInfixed = false ∧ inner.Grouped actions
  | .infixed level left token right =>
    actions.declared token = some (.infixed .left, level) ∧ level ≤ 6 ∧
      left.BindsFrom level ∧ right.BindsFrom (level + 1) ∧
      left.Grouped actions ∧ right.Grouped actions

theorem Grouped.isInfixed_eq_false {t : OperatorTree α} (h : t.Grouped actions)
    (hbinds : t.BindsFrom 7) : t.isInfixed = false := by
  cases t with
  | infixed level left token right =>
    have hle : 7 ≤ level := hbinds
    obtain ⟨-, hlevel, -⟩ := h
    omega
  | _ => rfl

end OperatorTree

/-! ## Chains of tokens -/

namespace Actions

variable {α β : Type} (actions : Actions α β)

mutual

/-- Operands behind any number of leading operators, with an operator between any two of them. -/
inductive Chain : List α → Prop
  | leading {token : α} {tokens : List α} (htoken : actions.declared token = some (.leading, 7))
      (htokens : Chain tokens) : Chain (token :: tokens)
  | operand {token : α} {tokens : List α} (htoken : actions.declared token = none)
      (htokens : ChainBehind tokens) : Chain (token :: tokens)

/-- What can follow an operand. -/
inductive ChainBehind : List α → Prop
  | nil : ChainBehind []
  | infixed {level : Nat} {token : α} {tokens : List α}
      (htoken : actions.declared token = some (.infixed .left, level)) (hpos : 0 < level)
      (hlevel : level ≤ 6) (htokens : Chain tokens) : ChainBehind (token :: tokens)

end

/-- The level of the first token, zero if there is none. -/
def headLevel : List α → Nat
  | [] => 0
  | token :: _ => ((actions.declared token).map Prod.snd).getD 0

/-- The invariant of the climb: it has read a grouped tree that binds tighter than the floor, and
what is left goes on with an operator that does not. -/
def Climbed (floor : Nat) (tokens : List α) (result : Option (β × List α)) : Prop :=
  ∃ t rest, result = some (OperatorTree.eval actions t, rest) ∧ tokens = t.tokens ++ rest ∧
    t.Grouped actions ∧ t.BindsFrom (floor + 1) ∧ actions.ChainBehind rest ∧
    actions.headLevel rest ≤ floor

def Climbs (calls : Nat) : Prop :=
  ∀ floor tokens, actions.Chain tokens → tokens.length ≤ calls →
    actions.Climbed floor tokens (actions.climb calls floor tokens)

def ClimbsBehind (calls : Nat) : Prop :=
  ∀ floor (left : OperatorTree α) tokens, actions.ChainBehind tokens → tokens.length ≤ calls →
    left.Grouped actions → left.BindsFrom (floor + 1) → left.BindsFrom (actions.headLevel tokens) →
    actions.Climbed floor (left.tokens ++ tokens)
      (actions.climbBehind calls floor (left.eval actions) tokens)

variable {actions} {calls : Nat}

theorem climbed_nil {floor : Nat} {left : OperatorTree α} (hgrouped : left.Grouped actions)
    (hfloor : left.BindsFrom (floor + 1)) :
    actions.Climbed floor (left.tokens ++ [])
      (actions.climbBehind calls floor (left.eval actions) []) :=
  ⟨left, [], by rw [climbBehind], rfl, hgrouped, hfloor, .nil, Nat.zero_le _⟩

theorem climbs_succ (hclimbs : actions.Climbs calls) (hbehind : actions.ClimbsBehind calls) :
    actions.Climbs (calls + 1) := by
  intro floor tokens hchain hlength
  have hshort : tokens.tail.length ≤ calls := by
    rw [List.length_tail]
    omega
  cases hchain with
  | @operand token rest htoken hrest =>
    rw [climb, htoken]
    exact hbehind floor (.operand token) rest hrest hshort htoken trivial trivial
  | @leading token rest htoken hrest =>
    obtain ⟨t, later, hresult, rfl, hgrouped, hbinds, hlater, -⟩ := hclimbs 6 rest hrest hshort
    rw [List.tail_cons, List.length_append] at hshort
    have hinner := hgrouped.isInfixed_eq_false hbinds
    rw [climb, htoken]
    dsimp only
    rw [hresult]
    exact hbehind floor (.leading token t) later hlater (by omega) ⟨htoken, hinner, hgrouped⟩
      trivial trivial

theorem climbsBehind_succ (hclimbs : actions.Climbs calls) (hbehind : actions.ClimbsBehind calls) :
    actions.ClimbsBehind (calls + 1) := by
  intro floor left tokens hchain hlength hgrouped hfloor hhead
  cases hchain with
  | nil => exact climbed_nil hgrouped hfloor
  | @infixed level token rest htoken hpos hlevel hrest =>
    have hlevelHead : actions.headLevel (token :: rest) = level := by
      rw [headLevel, htoken]
      rfl
    rw [hlevelHead] at hhead
    rw [climbBehind, htoken]
    dsimp only
    by_cases hlt : floor < level
    · -- the right operand ends in front of the next operator that is of this level or looser
      obtain ⟨right, later, hresult, rfl, hright, hbinds, hlater, hstop⟩ :=
        hclimbs level rest hrest (Nat.le_of_succ_le_succ hlength)
      rw [List.length_cons, List.length_append] at hlength
      rw [if_pos hlt]
      dsimp only [Grouping.floor]
      rw [hresult]
      have hjoined := hbehind floor (.infixed level left token right) later hlater (by omega)
        ⟨htoken, hlevel, hhead, hbinds, hgrouped, hright⟩ hlt hstop
      simpa [OperatorTree.tokens, OperatorTree.eval] using hjoined
    · rw [if_neg hlt]
      refine ⟨left, token :: rest, rfl, rfl, hgrouped, hfloor,
        .infixed htoken hpos hlevel hrest, ?_⟩
      rw [hlevelHead]
      exact Nat.le_of_not_lt hlt

theorem climbs_all (calls : Nat) : actions.Climbs calls ∧ actions.ClimbsBehind calls := by
  induction calls with
  | zero =>
    constructor
    · intro floor tokens hchain hlength
      cases hchain <;> cases hlength
    · intro floor left tokens hchain hlength hgrouped hfloor _
      cases hchain with
      | nil => exact climbed_nil hgrouped hfloor
      | infixed => cases hlength
  | succ calls ih => exact ⟨climbs_succ ih.1 ih.2, climbsBehind_succ ih.1 ih.2⟩

/-- The climb takes all the tokens of a chain.  Whatever the actions make of them, they make it of
a grouped tree. -/
theorem climb_chain {tokens : List α} (h : actions.Chain tokens)
    (hcalls : tokens.length ≤ calls) :
    ∃ t : OperatorTree α, actions.climb calls 0 tokens = some (t.eval actions, []) ∧
      t.tokens = tokens ∧ t.Grouped actions := by
  obtain ⟨t, rest, hresult, htokens, hgrouped, -, hrest, hlevel⟩ :=
    (climbs_all calls).1 0 tokens h hcalls
  cases hrest with
  | nil => exact ⟨t, hresult, by rw [htokens, List.append_nil], hgrouped⟩
  | infixed htoken hpos =>
    rw [headLevel, htoken] at hlevel
    exact absurd hlevel (Nat.not_le_of_lt hpos)

end Actions

/-! ## Expressions -/

/-- The expression has these links, it is grouped, it has the spans that its operands give it, and
its top is that of a tree over tokens. -/
structure Expr.Mirrors {α : Type} (e : Expr) (items : List Item) (t : OperatorTree α) : Prop where
  items_eq : e.items = items
  grouped : e.Grouped
  respanned : e.respanned = e
  isBinary : e.isBinary = t.isInfixed
  bindsFrom : ∀ n, t.BindsFrom n → e.BindsFrom n

namespace Expr.Mirrors

variable {α : Type} {e left right : Expr} {items front back : List Item} {t l r : OperatorTree α}

theorem of_isAtom (he : e.isAtom = true) (ht : t.isInfixed = false) :
    e.Mirrors [.operand e] t where
  items_eq := items_of_isAtom he
  grouped := grouped_of_isAtom he
  respanned := by cases e <;> first | rfl | cases he
  isBinary := (isBinary_of_isAtom he).trans ht.symm
  bindsFrom := fun n _ => bindsFrom_of_not_isBinary (isBinary_of_isAtom he) n

theorem leading (h : e.Mirrors items t) (ht : t.isInfixed = false) (op : UnaryOp) (start : Nat)
    (token : α) :
    (Expr.unary op e ⟨start, e.span.stop, none⟩).Mirrors (.leading op start :: items)
      (.leading token t) where
  items_eq := by rw [Expr.items, h.items_eq]
  grouped := ⟨h.isBinary.trans ht, h.grouped⟩
  respanned := by rw [Expr.respanned, h.respanned]
  isBinary := rfl
  bindsFrom := fun _ _ => trivial

theorem infixed (hleft : left.Mirrors front l) (hright : right.Mirrors back r) {op : BinaryOp}
    (hl : l.BindsFrom op.precedence) (hr : r.BindsFrom (op.precedence + 1)) (token : α) :
    (joined op left right).Mirrors (front ++ .infixed op :: back)
      (.infixed op.precedence l token r) where
  items_eq := by rw [joined, Expr.items, hleft.items_eq, hright.items_eq]
  grouped := ⟨hleft.bindsFrom _ hl, hright.bindsFrom _ hr, hleft.grouped, hright.grouped⟩
  respanned := by rw [joined, Expr.respanned, hleft.respanned, hright.respanned, joined]
  isBinary := rfl
  bindsFrom := fun _ hn => hn

/-- The expression is the one that its links denote. -/
theorem ofItems? (h : e.Mirrors items t) : Expr.ofItems? items = some e := by
  rw [← h.items_eq, h.grouped.ofItems?, h.respanned]

end Expr.Mirrors

/-! ## Chains of links -/

theorem declared?_unary (op : UnaryOp) : declared? op.rule = some (.leading, 7) := by
  cases op <;> rfl

theorem declared?_binary (op : BinaryOp) :
    declared? op.rule = some (.infixed .left, op.precedence) := by
  cases op <;> rfl

theorem BinaryOp.precedence_bounds (op : BinaryOp) : 0 < op.precedence ∧ op.precedence ≤ 6 := by
  cases op <;> decide

/-- Makes expressions of links.  What is made of a link that is out of place does not matter. -/
def Item.actions : Actions Item Expr where
  declared
    | .leading op _ => declared? op.rule
    | .operand _ => none
    | .infixed op => declared? op.rule
  primary
    | .operand value => value
    | _ => default
  leading
    | .leading op start, e => .unary op e ⟨start, e.span.stop, none⟩
    | _, e => e
  infixed
    | left, .infixed op, right => Expr.joined op left right
    | left, _, _ => left

theorem Item.chain_of_ofItemsFrom {left : Option (Expr × BinaryOp)}
    {leading : List (UnaryOp × Nat)} {items : List Item} {e : Expr}
    (h : Expr.ofItemsFrom left leading items = some e) : Item.actions.Chain items := by
  induction left, leading, items using Expr.ofItemsFrom.induct with
  | case1 left leading op start rest ih =>
    rw [Expr.ofItemsFrom] at h
    exact .leading (declared?_unary op) (ih h)
  | case2 left leading value => exact .operand rfl .nil
  | case3 left leading value op rest ih =>
    rw [Expr.ofItemsFrom] at h
    obtain ⟨hpos, hlevel⟩ := op.precedence_bounds
    exact .operand rfl (.infixed (declared?_binary op) hpos hlevel (ih h))
  | case4 => simp [Expr.ofItemsFrom] at h

theorem OperatorTree.Grouped.mirrors {t : OperatorTree Item} (h : t.Grouped Item.actions)
    (hatoms : ∀ v, .operand v ∈ t.tokens → v.isAtom = true) :
    (t.eval Item.actions).Mirrors t.tokens t := by
  induction t with
  | operand token =>
    cases token with
    | operand value => exact .of_isAtom (hatoms value (by simp [tokens])) rfl
    | leading op _ => cases (declared?_unary op).symm.trans h
    | infixed op => cases (declared?_binary op).symm.trans h
  | leading token inner ih =>
    obtain ⟨hdeclared, hinner, hgrouped⟩ := h
    have hmirrors := ih hgrouped fun v hv => hatoms v (List.mem_cons_of_mem _ hv)
    cases token with
    | leading op start => exact hmirrors.leading hinner op start _
    | operand value => cases hdeclared
    | infixed op => cases (declared?_binary op).symm.trans hdeclared
  | infixed level left token right ihl ihr =>
    obtain ⟨hdeclared, -, hleft, hright, hgroupedLeft, hgroupedRight⟩ := h
    have hmirrorsLeft := ihl hgroupedLeft fun v hv => hatoms v (List.mem_append_left _ hv)
    have hmirrorsRight := ihr hgroupedRight fun v hv =>
      hatoms v (List.mem_append_right _ (List.mem_cons_of_mem _ hv))
    cases token with
    | infixed op =>
      cases (declared?_binary op).symm.trans hdeclared
      exact hmirrorsLeft.infixed hmirrorsRight hleft hright _
    | operand value => cases hdeclared
    | leading op _ => cases (declared?_unary op).symm.trans hdeclared

/-- Climbing over the table makes of links the expression that they denote. -/
theorem Expr.ofItems?_climbs {items : List Item} {e : Expr}
    (hatoms : ∀ v, .operand v ∈ items → v.isAtom = true) (h : Expr.ofItems? items = some e)
    {calls : Nat} (hcalls : items.length ≤ calls) :
    Item.actions.climb calls 0 items = some (e, []) := by
  obtain ⟨t, hclimb, rfl, hgrouped⟩ :=
    Actions.climb_chain (Item.chain_of_ofItemsFrom h) hcalls
  have hdenotes := (hgrouped.mirrors hatoms).ofItems?
  rw [h] at hdenotes
  rw [hclimb, Option.some.inj hdenotes]

end BlockScript
