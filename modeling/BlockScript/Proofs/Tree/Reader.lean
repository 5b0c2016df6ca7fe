import BlockScript.Proofs.Grammar.Separators
import BlockScript.Tree.Reader

/-!
# What the readers accept

A reader succeeds on nodes of certain shapes only.  For each reader these are listed here, with what
is read from the parts, so that a statement about the trees that are read has one case for every
shape and looks into no reader.
-/

namespace BlockScript

open Grammar (spanOf)
open Peg (Node)

/-- The rule of a step up or down, before or after its variable. -/
def stepRule : Direction → Fixity → Rule
  | .up, .before => .preIncrement
  | .down, .before => .preDecrement
  | .up, .after => .postIncrement
  | .down, .after => .postDecrement

namespace Reader

theorem bind_eq_ok {ε α β : Type} {x : Except ε α} {f : α → Except ε β} {b : β} :
    x >>= f = .ok b ↔ ∃ a, x = .ok a ∧ f a = .ok b := by
  cases x <;> simp [bind, Except.bind]

theorem bind_eq_error {ε α β : Type} {x : Except ε α} {f : α → Except ε β} {e : ε} :
    x >>= f = .error e ↔ x = .error e ∨ ∃ a, x = .ok a ∧ f a = .error e := by
  cases x <;> simp [bind, Except.bind]

theorem map_eq_error {ε α β : Type} {x : Except ε α} {f : α → β} {e : ε} :
    (x >>= fun a => pure (f a)) = .error e ↔ x = .error e := by
  simp [bind_eq_error, pure, Except.pure]

theorem pure_eq_ok {ε α : Type} {a b : α} : (pure a : Except ε α) = .ok b ↔ a = b := by
  simp [pure, Except.pure]

variable {node : Node Rule}

/-! ## Expressions -/

theorem readIdentifier_ok {id : Identifier} (h : readIdentifier node = .ok id) :
    ∃ start stop text children, node = .mk .identifier start stop text children ∧
      id = ⟨String.ofList text, .between start stop⟩ := by
  unfold readIdentifier at h
  split at h
  · cases h
    exact ⟨_, _, _, _, rfl, rfl⟩
  · cases h

theorem readInteger_ok {text : List Char} {span : Span} {e : Expr}
    (h : readInteger text span = .ok e) :
    Decimal.natOfDigits text < Nat.pow 2 63 ∧
      e = .integer (Int64.ofNat (Decimal.natOfDigits text)) span := by
  simp only [readInteger] at h
  split at h
  · rename_i hlt
    cases h
    exact ⟨hlt, rfl⟩
  · cases h

inductive ExprOf : Node Rule → Expr → Prop
  | mk {start stop : Position} {text : List Char} {children : List (Node Rule)}
      {items : List Item} {e : Expr} (hitems : readItems children = .ok items)
      (hchain : Expr.ofItems? items = some e) :
      ExprOf (.mk .expression start stop text children) e

theorem readExpr_eq_ok {e : Expr} : readExpr node = .ok e ↔ ExprOf node e := by
  constructor
  · intro h
    unfold readExpr at h
    split at h
    · simp only [bind_eq_ok] at h
      obtain ⟨items, hitems, h⟩ := h
      split at h
      · rename_i hchain
        cases h
        exact .mk hitems hchain
      · cases h
    · cases h
  · rintro ⟨hitems, hchain⟩
    simp only [readExpr, bind_eq_ok]
    exact ⟨_, hitems, by rw [hchain]⟩

/-- The operands, each in a node of its own. -/
inductive PrimaryOf : Node Rule → Expr → Prop
  | integer {start stop : Position} {text : List Char} {children : List (Node Rule)}
      (hrange : Decimal.natOfDigits text < Nat.pow 2 63) :
      PrimaryOf (.mk .integer start stop text children)
        (.integer (Int64.ofNat (Decimal.natOfDigits text)) (.between start stop))
  | float {start stop : Position} {text : List Char} {children : List (Node Rule)} :
      PrimaryOf (.mk .float start stop text children)
        (.float (Decimal.floatOfText text) (.between start stop))
  | string {start stop : Position} {text : List Char} {children : List (Node Rule)} :
      PrimaryOf (.mk .string start stop text children)
        (.string (String.ofList text) (.between start stop))
  | boolean {start stop : Position} {text : List Char} {word : Node Rule} {value : Bool}
      (hword : word.rule = if value then .trueWord else .falseWord) :
      PrimaryOf (.mk .boolean start stop text [word]) (.boolean value (.between start stop))
  | nil {start stop : Position} {text : List Char} {children : List (Node Rule)} :
      PrimaryOf (.mk .nilWord start stop text children) (.nil (.between start stop))
  | name {start stop : Position} {text : List Char} {children : List (Node Rule)} :
      PrimaryOf (.mk .identifier start stop text children)
        (.name ⟨String.ofList text, .between start stop⟩)
  | group {start stop : Position} {text : List Char} {inner : Node Rule} {e : Expr}
      (hinner : readExpr inner = .ok e) :
      PrimaryOf (.mk .parenthesized start stop text [inner]) (.group e (.between start stop))
  | update {start stop : Position} {text : List Char} {target operator value : Node Rule}
      {id : Identifier} {op : UpdateOp} {e : Expr} (htarget : readIdentifier target = .ok id)
      (hop : readUpdateOp operator = .ok op) (hvalue : readExpr value = .ok e) :
      PrimaryOf (.mk .compoundAssignment start stop text [target, operator, value])
        (.update op id e (.between start stop))
  | step {rule : Rule} {direction : Direction} {fixity : Fixity} {start stop : Position}
      {text : List Char} {target : Node Rule} {id : Identifier}
      (hrule : rule = stepRule direction fixity) (htarget : readIdentifier target = .ok id) :
      PrimaryOf (.mk rule start stop text [target])
        (.step direction fixity id (.between start stop))

theorem readPrimary_eq_ok {e : Expr} : readPrimary node = .ok e ↔ PrimaryOf node e := by
  constructor
  · intro h
    obtain ⟨rule, start, stop, text, children⟩ := node
    unfold readPrimary at h
    split at h
    · obtain ⟨hrange, rfl⟩ := readInteger_ok h
      exact .integer hrange
    · cases h
      exact .float
    · cases h
      exact .string
    · cases h
      exact .boolean rfl
    · cases h
      exact .boolean rfl
    · cases h
      exact .nil
    · cases h
      exact .name
    · simp only [bind_eq_ok, pure_eq_ok] at h
      obtain ⟨e, he, rfl⟩ := h
      exact .group he
    · simp only [bind_eq_ok, pure_eq_ok] at h
      obtain ⟨id, hid, op, hop, e, he, rfl⟩ := h
      exact .update hid hop he
    -- the four rules of steps
    iterate 4
      · simp only [bind_eq_ok, pure_eq_ok] at h
        obtain ⟨id, hid, rfl⟩ := h
        exact .step rfl hid
    · cases h
  · intro h
    cases h with
    | integer hrange => exact if_pos hrange
    | float | string | nil | name => rfl
    | @boolean _ _ _ word value hword =>
      obtain ⟨rule, start, stop, text, children⟩ := word
      cases value <;> cases hword <;> rfl
    | group hinner =>
      simp only [readPrimary, bind_eq_ok, pure_eq_ok]
      exact ⟨_, hinner, rfl⟩
    | update htarget hop hvalue =>
      simp only [readPrimary, bind_eq_ok, pure_eq_ok]
      exact ⟨_, htarget, _, hop, _, hvalue, rfl⟩
    | @step rule direction fixity _ _ _ _ _ hrule htarget =>
      subst hrule
      cases direction <;> cases fixity <;>
        exact bind_eq_ok.2 ⟨_, htarget, rfl⟩

/-! ## Statements -/

inductive AssignmentOf : Node Rule → Assignment → Prop
  | mk {start stop : Position} {text : List Char} {target value : Node Rule} {id : Identifier}
      {e : Expr} (htarget : readIdentifier target = .ok id) (hvalue : readExpr value = .ok e) :
      AssignmentOf (.mk .assignment start stop text [target, value]) ⟨id, e, .between start stop⟩

theorem readAssignment_eq_ok {a : Assignment} :
    readAssignment node = .ok a ↔ AssignmentOf node a := by
  constructor
  · intro h
    unfold readAssignment at h
    split at h
    · simp only [bind_eq_ok, pure_eq_ok] at h
      obtain ⟨id, hid, e, he, rfl⟩ := h
      exact .mk hid he
    · cases h
  · rintro ⟨htarget, hvalue⟩
    simp only [readAssignment, bind_eq_ok, pure_eq_ok]
    exact ⟨_, htarget, _, hvalue, rfl⟩

inductive BlockOf : Node Rule → Block → Prop
  | mk {start stop : Position} {text : List Char} {children : List (Node Rule)}
      {statements : List Statement} (hstatements : readStatements children = .ok statements) :
      BlockOf (.mk .block start stop text children) (.mk statements (.between start stop))

theorem readBlock_eq_ok {b : Block} : readBlock node = .ok b ↔ BlockOf node b := by
  constructor
  · intro h
    unfold readBlock at h
    split at h
    · simp only [bind_eq_ok, pure_eq_ok] at h
      obtain ⟨statements, hstatements, rfl⟩ := h
      exact .mk hstatements
    · cases h
  · rintro ⟨hstatements⟩
    simp only [readBlock, bind_eq_ok, pure_eq_ok]
    exact ⟨_, hstatements, rfl⟩

theorem readStatements_cons_eq_ok {nodes : List (Node Rule)} {statements : List Statement} :
    readStatements (node :: nodes) = .ok statements ↔
      ∃ s rest, readStatement node = .ok s ∧ readStatements nodes = .ok rest ∧
        statements = s :: rest := by
  simp only [readStatements, bind_eq_ok, pure_eq_ok]
  constructor
  · rintro ⟨s, hs, rest, hrest, rfl⟩
    exact ⟨s, rest, hs, hrest, rfl⟩
  · rintro ⟨s, rest, hs, hrest, rfl⟩
    exact ⟨s, hs, rest, hrest, rfl⟩

inductive StatementOf : Node Rule → Statement → Prop
  | assign {node : Node Rule} {a : Assignment} (ha : readAssignment node = .ok a) :
      StatementOf node (.assign a)
  | print {start stop : Position} {text : List Char} {word value : Node Rule} {mode : PrintMode}
      {e : Expr} (hmode : readPrintMode word = .ok mode) (hvalue : readExpr value = .ok e) :
      StatementOf (.mk .printStatement start stop text [word, value])
        (.print mode e (.between start stop))
  | block {node : Node Rule} {b : Block} (hblock : readBlock node = .ok b) :
      StatementOf node (.block b)
  | conditional {start stop : Position} {text : List Char} {clauses : List (Node Rule)}
      {arms : Arms} (harms : readArms clauses = .ok arms) :
      StatementOf (.mk .ifStatement start stop text clauses)
        (.conditional arms (.between start stop))
  | whileLoop {start stop : Position} {text : List Char} {word condition body : Node Rule}
      {e : Expr} {b : Block} (hcondition : readExpr condition = .ok e)
      (hbody : readBlock body = .ok b) :
      StatementOf (.mk .whileStatement start stop text [word, condition, body])
        (.whileLoop e b (.between start stop))
  | forLoop {start stop : Position} {text : List Char}
      {word init condition update body : Node Rule} {a : Assignment} {e e' : Expr} {b : Block}
      (hinit : readAssignment init = .ok a) (hcondition : readExpr condition = .ok e)
      (hupdate : readExpr update = .ok e') (hbody : readBlock body = .ok b) :
      StatementOf (.mk .forStatement start stop text [word, init, condition, update, body])
        (.forLoop (some a) e e' b (.between start stop))
  | bareLoop {start stop : Position} {text : List Char} {word condition update body : Node Rule}
      {e e' : Expr} {b : Block} (hcondition : readExpr condition = .ok e)
      (hupdate : readExpr update = .ok e') (hbody : readBlock body = .ok b) :
      StatementOf (.mk .forStatement start stop text [word, condition, update, body])
        (.forLoop none e e' b (.between start stop))
  | expression {start stop : Position} {text : List Char} {value : Node Rule} {e : Expr}
      (hvalue : readExpr value = .ok e) :
      StatementOf (.mk .expressionStatement start stop text [value])
        (.expression e (.between start stop))

theorem readStatement_eq_ok {s : Statement} : readStatement node = .ok s ↔ StatementOf node s := by
  constructor
  · intro h
    obtain ⟨rule, start, stop, text, children⟩ := node
    unfold readStatement at h
    split at h
    all_goals try simp only [bind_eq_ok, pure_eq_ok] at h
    · obtain ⟨a, ha, rfl⟩ := h
      exact .assign ha
    · obtain ⟨mode, hmode, e, he, rfl⟩ := h
      exact .print hmode he
    · obtain ⟨statements, hstatements, rfl⟩ := h
      exact .block (readBlock_eq_ok.2 (.mk hstatements))
    · obtain ⟨arms, harms, rfl⟩ := h
      exact .conditional harms
    · obtain ⟨e, he, b, hb, rfl⟩ := h
      exact .whileLoop he hb
    · obtain ⟨a, ha, e, he, e', he', b, hb, rfl⟩ := h
      exact .forLoop ha he he' hb
    · obtain ⟨e, he, e', he', b, hb, rfl⟩ := h
      exact .bareLoop he he' hb
    · obtain ⟨e, he, rfl⟩ := h
      exact .expression he
    · cases h
  · intro h
    cases h with
    | assign ha =>
      obtain ⟨htarget, hvalue⟩ := readAssignment_eq_ok.1 ha
      simp only [readStatement, bind_eq_ok, pure_eq_ok]
      exact ⟨_, ha, rfl⟩
    | print hmode hvalue =>
      simp only [readStatement, bind_eq_ok, pure_eq_ok]
      exact ⟨_, hmode, _, hvalue, rfl⟩
    | block hblock =>
      obtain ⟨hstatements⟩ := readBlock_eq_ok.1 hblock
      simp only [readStatement, bind_eq_ok, pure_eq_ok]
      exact ⟨_, hstatements, rfl⟩
    | conditional harms =>
      simp only [readStatement, bind_eq_ok, pure_eq_ok]
      exact ⟨_, harms, rfl⟩
    | whileLoop hcondition hbody =>
      simp only [readStatement, bind_eq_ok, pure_eq_ok]
      exact ⟨_, hcondition, _, hbody, rfl⟩
    | forLoop hinit hcondition hupdate hbody =>
      simp only [readStatement, bind_eq_ok, pure_eq_ok]
      exact ⟨_, hinit, _, hcondition, _, hupdate, _, hbody, rfl⟩
    | bareLoop hcondition hupdate hbody =>
      simp only [readStatement, bind_eq_ok, pure_eq_ok]
      exact ⟨_, hcondition, _, hupdate, _, hbody, rfl⟩
    | expression hvalue =>
      simp only [readStatement, bind_eq_ok, pure_eq_ok]
      exact ⟨_, hvalue, rfl⟩

/-- A clause with a condition has a keyword or two in front of it. -/
theorem readArms_clause {rule : Rule} {start stop : Position} {text : List Char}
    {words rest : List (Node Rule)} {condition body : Node Rule}
    (hwords : words.length = 1 ∨ words.length = 2) :
    readArms (.mk rule start stop text (words ++ [condition, body]) :: rest) = (do
      let condition ← readExpr condition
      let body ← readBlock body
      return .arm condition body (.between start stop) (← readArms rest)) := by
  match words, hwords with
  | [_], _ | [_, _], _ => cases rule <;> rfl

inductive ArmsOf : List (Node Rule) → Arms → Prop
  | done : ArmsOf [] .done
  | otherwise {start stop : Position} {text : List Char} {word body : Node Rule}
      {rest : List (Node Rule)} {b : Block} (hbody : readBlock body = .ok b) :
      ArmsOf (.mk .elseClause start stop text [word, body] :: rest) (.otherwise b)
  | arm {rule : Rule} {start stop : Position} {text : List Char} {words rest : List (Node Rule)}
      {condition body : Node Rule} {e : Expr} {b : Block} {arms : Arms}
      (hwords : words.length = 1 ∨ words.length = 2)
      (hcondition : readExpr condition = .ok e) (hbody : readBlock body = .ok b)
      (hrest : readArms rest = .ok arms) :
      ArmsOf (.mk rule start stop text (words ++ [condition, body]) :: rest)
        (.arm e b (.between start stop) arms)

theorem readArms_eq_ok {nodes : List (Node Rule)} {arms : Arms} :
    readArms nodes = .ok arms ↔ ArmsOf nodes arms := by
  constructor
  · intro h
    unfold readArms at h
    split at h
    · cases h
      exact .done
    · split at h
      all_goals try simp only [bind_eq_ok, pure_eq_ok] at h
      · obtain ⟨b, hb, rfl⟩ := h
        exact .otherwise hb
      · rename_i word condition body
        obtain ⟨e, he, b, hb, rest, hrest, rfl⟩ := h
        exact @ArmsOf.arm _ _ _ _ [word] _ _ _ _ _ _ (.inl rfl) he hb hrest
      · rename_i word word' condition body
        obtain ⟨e, he, b, hb, rest, hrest, rfl⟩ := h
        exact @ArmsOf.arm _ _ _ _ [word, word'] _ _ _ _ _ _ (.inr rfl) he hb hrest
      · cases h
  · intro h
    cases h with
    | done => rfl
    | otherwise hbody =>
      simp only [readArms, bind_eq_ok, pure_eq_ok]
      exact ⟨_, hbody, rfl⟩
    | arm hwords hcondition hbody hrest =>
      simp only [readArms_clause hwords, bind_eq_ok, pure_eq_ok]
      exact ⟨_, hcondition, _, hbody, _, hrest, rfl⟩

/-! ## Spans -/

theorem readStatement_span {s : Statement} (h : readStatement node = .ok s) :
    s.span = spanOf node := by
  cases readStatement_eq_ok.1 h with
  | assign ha =>
    obtain ⟨-, -⟩ := readAssignment_eq_ok.1 ha
    rfl
  | block hblock =>
    obtain ⟨-⟩ := readBlock_eq_ok.1 hblock
    rfl
  | _ => rfl

theorem readStatements_spans {nodes : List (Node Rule)} {statements : List Statement}
    (h : readStatements nodes = .ok statements) :
    statements.map Statement.span = nodes.map spanOf := by
  induction nodes generalizing statements with
  | nil =>
    cases h
    rfl
  | cons node nodes ih =>
    obtain ⟨s, rest, hs, hrest, rfl⟩ := readStatements_cons_eq_ok.1 h
    rw [List.map_cons, List.map_cons, readStatement_span hs, ih hrest]

end Reader

end BlockScript
