import BlockScript.Proofs.Tree.ExprText

/-!
# The text of a statement

The text of a canonical statement is read as a statement that agrees with it up to spans.  A
statement is told by its first token; only between an assignment and an expression the second
token decides.  The semicolon behind every statement closes the expression it may end with.
-/

namespace BlockScript

open Grammar Reader
open Peg (Node Pattern)

variable {s t u : List Char} {tokens tokens' : List String}

/-! ## Nodes read up to spans -/

def IsAssignment (a : Assignment) (node : Node Rule) : Prop :=
  ∃ a', readAssignment node = .ok a' ∧ a'.erase = a.erase

def IsStatement (statement : Statement) (node : Node Rule) : Prop :=
  ∃ statement', readStatement node = .ok statement' ∧ statement'.erase = statement.erase

def AreStatements (statements : List Statement) (nodes : List (Node Rule)) : Prop :=
  ∃ statements', readStatements nodes = .ok statements' ∧
    Statement.eraseAll statements' = Statement.eraseAll statements

/-- The node of a block, which is a statement as well. -/
def IsBlock (body : Block) : Node Rule → Prop :=
  NodeOf .block (AreStatements body.statements)

def AreArms (arms : Arms) (nodes : List (Node Rule)) : Prop :=
  ∃ arms', readArms nodes = .ok arms' ∧ arms'.erase = arms.erase

theorem AreStatements.cons {statement : Statement} {statements : List Statement} {node : Node Rule}
    {nodes : List (Node Rule)} (h : IsStatement statement node)
    (hrest : AreStatements statements nodes) :
    AreStatements (statement :: statements) (node :: nodes) := by
  obtain ⟨statement', hread, herase⟩ := h
  obtain ⟨statements', hreadRest, heraseRest⟩ := hrest
  exact ⟨statement' :: statements', readStatements_cons_eq_ok.2 ⟨_, _, hread, hreadRest, rfl⟩,
    by simp [Statement.eraseAll, herase, heraseRest]⟩

theorem IsBlock.readBlock {body : Block} {node : Node Rule} (h : IsBlock body node) :
    ∃ body', Reader.readBlock node = .ok body' ∧ body'.erase = body.erase := by
  obtain ⟨rule, start, stop, text, children⟩ := node
  obtain ⟨rfl, statements, hread, herase⟩ := h
  obtain ⟨statements', span⟩ := body
  exact ⟨.mk statements (.between start stop), readBlock_eq_ok.2 (.mk hread),
    by simpa [Block.erase, Block.statements] using herase⟩

theorem IsBlock.isStatement {body : Block} {node : Node Rule} (h : IsBlock body node) :
    IsStatement (.block body) node := by
  obtain ⟨b, hb, herase⟩ := h.readBlock
  exact ⟨.block b, readStatement_eq_ok.2 (.block hb), by simp [Statement.erase, herase]⟩

/-! ## One statement -/

/-- The statements in the order in which they are tried. -/
def forms : List (Pattern Rule) :=
  statementForms ++ [.rule .assignment, .rule .expressionStatement]

/-- A statement is found if the ones tried before it are refused, with its semicolon. -/
theorem takes_form {p : Pattern Rule} {Q : List (Node Rule) → Prop} (front : List (Pattern Rule))
    {back : List (Pattern Rule)} (heq : forms = front ++ p :: back)
    (h : Takes p s (trail (";" :: tokens)) Q) (hfront : ∀ r ∈ front, Refuses r s) :
    Takes statement s (trail tokens) Q := by
  have hform : Takes (.anyOf forms) s (trail (";" :: tokens)) Q := by
    rw [heq]
    exact h.anyOf hfront
  have hsemicolon := takes_opt (takes_text (by decide : Solid ";") tokens)
  refine Takes.imp (hform.seq hsemicolon) ?_
  rintro _ ⟨nodes, _, rfl, hnodes, rfl⟩
  rwa [List.append_nil]

/-- The keywords, with how many statements are tried before the one they open. -/
def formWords : List (String × Nat) :=
  [("if", 1), ("while", 2), ("for", 3), ("print_line", 4), ("print_value", 4)]

theorem refuses_forms_before {word : String} {n : Nat} (h : (word, n) ∈ formWords) :
    ∀ p ∈ statementForms.take n, Refuses p (trail (word :: tokens)) := by
  simp only [formWords, List.mem_cons, Prod.mk.injEq, List.not_mem_nil, or_false] at h
  have hrun : ∀ p ∈ statementForms.take n, ∀ s, Spaced s → rules.Fails p (word.toList ++ s) := by
    rcases h with ⟨rfl, rfl⟩ | ⟨rfl, rfl⟩ | ⟨rfl, rfl⟩ | ⟨rfl, rfl⟩ | ⟨rfl, rfl⟩
    all_goals
      simp only [statementForms, List.take_succ_cons, List.take_zero, List.forall_mem_cons,
        List.not_mem_nil, false_imp_iff, implies_true, and_true]
      and_intros
      all_goals
        rintro s (rfl | ⟨tail, rfl⟩)
        all_goals exact ⟨30, rfl⟩
  have hsolid : Solid word := by
    rcases h with ⟨rfl, -⟩ | ⟨rfl, -⟩ | ⟨rfl, -⟩ | ⟨rfl, -⟩ | ⟨rfl, -⟩ <;> decide
  exact fun p hp => refuses_token hsolid (hrun p hp)

section Forms

variable (spelling : FloatSpelling)

theorem IsAssignment.isStatement {a : Assignment} {node : Node Rule} (h : IsAssignment a node) :
    IsStatement (.assign a) node := by
  obtain ⟨a', hread, herase⟩ := h
  exact ⟨.assign a', readStatement_eq_ok.2 (.assign hread), by simp [Statement.erase, herase]⟩

theorem Assignment.Canonical.takes {a : Assignment} (h : a.Canonical) {token : String}
    (htoken : token ∈ closers) :
    Takes (.rule .assignment) (trail (a.tokens spelling ++ token :: tokens))
      (trail (token :: tokens)) (Single (IsAssignment a)) := by
  have hequals : Refuses (.text ['=']) (trail (a.value.tokens spelling ++ token :: tokens)) :=
    h.2.openers spelling (List.mem_append_left _ htoken) _ (by simp [openers])
  have hphrase := (takes_variable h.1).seq ((takes_text (by decide : Solid "=") _).seq
    ((takes_absent hequals).seq (h.2.takes spelling htoken)))
  refine Takes.node hphrase rfl ?_
  rintro start stop text _ ⟨_, _, rfl, ⟨target, rfl, htarget⟩, _, _, rfl, rfl, _, _, rfl, rfl,
    value, rfl, e, he, herase⟩
  obtain ⟨id, hid, heraseId⟩ := htarget.readIdentifier
  exact ⟨⟨id, e, .between start stop⟩, readAssignment_eq_ok.2 (.mk hid he),
    by simp [Assignment.erase, heraseId, herase]⟩

theorem takes_assign {a : Assignment} (h : a.Canonical) :
    Takes statement (trail (a.tokens spelling ++ ";" :: tokens)) (trail tokens)
      (Single (IsStatement (.assign a))) := by
  refine takes_form statementForms rfl ?_ h.1.statementForms
  refine (h.takes spelling (by decide)).imp ?_
  rintro _ ⟨node, rfl, hnode⟩
  exact ⟨node, rfl, hnode.isStatement⟩

theorem takes_expressionStatement {e : Expr} {span : Span} (h : e.Canonical) :
    Takes statement (trail (e.tokens spelling ++ ";" :: tokens)) (trail tokens)
      (Single (IsStatement (.expression e span))) := by
  have hclose : ";" ∈ closers := by decide
  refine takes_form (statementForms ++ [.rule .assignment]) rfl ?_ fun p hp =>
    h.openers spelling (List.mem_append_left _ hclose) p ?_
  · refine Takes.node (h.takes spelling hclose) rfl ?_
    rintro start stop text _ ⟨child, rfl, e', he, herase⟩
    exact ⟨.expression e' (.between start stop), readStatement_eq_ok.2 (.expression he),
      by simp [Statement.erase, herase]⟩
  · rcases List.mem_append.1 hp with hp | hp
    · exact List.mem_append_left _ hp
    · exact List.mem_append_right _ (by simp_all)

theorem takes_printWord (mode : PrintMode) :
    Takes (.alt (.rule .printLineWord) (.rule .printValueWord)) (trail (mode.keyword :: tokens))
      (trail tokens) (Single fun node => readPrintMode node = .ok mode) := by
  have hsolid : Solid mode.keyword := by cases mode <;> decide
  refine takes_token hsolid fun pos => ?_
  rcases spaced_trail tokens with h | ⟨tail, h⟩ <;> rw [h] <;> cases mode
  all_goals exact ⟨_, ⟨30, _, rfl, rfl⟩, _, rfl, rfl⟩

theorem takes_print (mode : PrintMode) {e : Expr} {span : Span} (h : e.Canonical) :
    Takes statement (trail (mode.keyword :: "(" :: (e.tokens spelling ++ ")" :: ";" :: tokens)))
      (trail tokens) (Single (IsStatement (.print mode e span))) := by
  have hmode : (mode.keyword, 4) ∈ formWords := by cases mode <;> decide
  refine takes_form (statementForms.take 4) rfl ?_ (refuses_forms_before hmode)
  have hphrase := (takes_printWord mode).seq ((takes_text (by decide : Solid "(") _).seq
    ((h.takes spelling (by decide : ")" ∈ closers)).seq
      (takes_text (by decide : Solid ")") (";" :: tokens))))
  refine Takes.node hphrase rfl ?_
  rintro start stop text _ ⟨_, _, rfl, ⟨word, rfl, hword⟩, _, _, rfl, rfl, _, _, rfl,
    ⟨value, rfl, e', he, herase⟩, rfl⟩
  exact ⟨.print mode e' (.between start stop), readStatement_eq_ok.2 (.print hword he),
    by simp [Statement.erase, herase]⟩

/-! ## Statements with blocks -/

/-- The text of the block, whatever follows, is read as the block. -/
def TakesBlock (body : Block) : Prop :=
  ∀ tokens, Takes (.rule .block) (trail (body.tokens spelling ++ tokens)) (trail tokens)
    (Single (IsBlock body))

theorem takes_guarded {condition : Expr} {body : Block} (h : condition.Canonical)
    (hbody : TakesBlock spelling body) (tokens : List String) :
    Takes (.phrase [.rule .expression, .rule .block])
      (trail (condition.tokens spelling ++ (body.tokens spelling ++ tokens))) (trail tokens)
      (Appended (Single (IsExpr condition)) (Single (IsBlock body))) := by
  refine Takes.seq ?_ (hbody tokens)
  obtain ⟨statements, span⟩ := body
  exact h.takes spelling (by decide : "\x7b" ∈ closers)

theorem takes_while {condition : Expr} {body : Block} {span : Span} (h : condition.Canonical)
    (hbody : TakesBlock spelling body) :
    Takes statement
      (trail ("while" :: (condition.tokens spelling ++ (body.tokens spelling ++ ";" :: tokens))))
      (trail tokens) (Single (IsStatement (.whileLoop condition body span))) := by
  refine takes_form (statementForms.take 2) rfl ?_ (refuses_forms_before (by decide))
  have hword (tokens : List String) : Takes (.rule .whileWord) (trail ("while" :: tokens))
      (trail tokens) (Single (NodeOf .whileWord (· = []))) := takes_keyword rfl rfl (by decide)
  refine Takes.node ((hword _).seq (takes_guarded spelling h hbody _)) rfl ?_
  rintro start stop text _ ⟨_, _, rfl, ⟨word, rfl, -⟩, _, _, rfl, ⟨first, rfl, e, he, herase⟩,
    second, rfl, hsecond⟩
  obtain ⟨b, hb, heraseBody⟩ := hsecond.readBlock
  exact ⟨.whileLoop e b (.between start stop), readStatement_eq_ok.2 (.whileLoop he hb),
    by simp [Statement.erase, herase, heraseBody]⟩

/-- The node of the assignment that a loop may begin with. -/
def IsInit : Option Assignment → List (Node Rule) → Prop
  | none => (· = [])
  | some a => Single (IsAssignment a)

theorem takes_init {init : Option Assignment} (h : ∀ a, init = some a → a.Canonical) :
    Takes (.opt (.rule .assignment))
      (trail ((init.map (Assignment.tokens spelling)).getD [] ++ ";" :: tokens))
      (trail (";" :: tokens)) (IsInit init) := by
  cases init with
  | none => exact takes_opt_of_refuses (refuses_token (by decide) fun _ _ => ⟨20, rfl⟩)
  | some a => exact takes_opt ((h a rfl).takes spelling (by decide))

theorem takes_for {init : Option Assignment} {condition update : Expr} {body : Block} {span : Span}
    (hinit : ∀ a, init = some a → a.Canonical) (hcondition : condition.Canonical)
    (hupdate : update.Canonical) (hbody : TakesBlock spelling body) :
    Takes statement
      (trail ("for" :: "(" :: ((init.map (Assignment.tokens spelling)).getD [] ++
        ";" :: (condition.tokens spelling ++ ";" :: (update.tokens spelling ++
          ")" :: (body.tokens spelling ++ ";" :: tokens))))))
      (trail tokens) (Single (IsStatement (.forLoop init condition update body span))) := by
  refine takes_form (statementForms.take 3) rfl ?_ (refuses_forms_before (by decide))
  have hword (tokens : List String) : Takes (.rule .forWord) (trail ("for" :: tokens))
      (trail tokens) (Single (NodeOf .forWord (· = []))) := takes_keyword rfl rfl (by decide)
  have hsemicolon := takes_text (by decide : Solid ";")
  have hphrase := (hword _).seq ((takes_text (by decide : Solid "(") _).seq
    ((takes_init spelling hinit).seq ((hsemicolon _).seq
      ((hcondition.takes spelling (by decide)).seq ((hsemicolon _).seq
        ((hupdate.takes spelling (by decide)).seq ((takes_text (by decide : Solid ")") _).seq
          (hbody (";" :: tokens)))))))))
  refine Takes.node hphrase rfl ?_
  rintro start stop text _ ⟨_, _, rfl, ⟨word, rfl, -⟩, _, _, rfl, rfl, first, _, rfl, hfirst, _, _,
    rfl, rfl, _, _, rfl, ⟨second, rfl, c, hc, heraseCondition⟩, _, _, rfl, rfl, _, _, rfl,
    ⟨third, rfl, e, he, heraseUpdate⟩, _, _, rfl, rfl, fourth, rfl, hfourth⟩
  obtain ⟨b, hb, heraseBody⟩ := hfourth.readBlock
  cases init with
  | none =>
    obtain rfl := hfirst
    exact ⟨.forLoop none c e b (.between start stop), readStatement_eq_ok.2 (.bareLoop hc he hb),
      by simp [Statement.erase, heraseCondition, heraseUpdate, heraseBody]⟩
  | some a =>
    obtain ⟨node, rfl, a', ha, herase⟩ := hfirst
    exact ⟨.forLoop (some a') c e b (.between start stop),
      readStatement_eq_ok.2 (.forLoop ha hc he hb),
      by simp [Statement.erase, herase, heraseCondition, heraseUpdate, heraseBody]⟩

/-! ### Conditionals -/

/-- The clauses that may follow the first one of a conditional. -/
def laterClauses : Pattern Rule :=
  .phrase [.many (.rule .elifClause), .opt (.rule .elseClause)]

/-- The children of a clause: its keyword, its condition and its block. -/
def IsGuarded (condition : Expr) (body : Block) (nodes : List (Node Rule)) : Prop :=
  ∃ first second third, nodes = [first, second, third] ∧ IsExpr condition second ∧
    IsBlock body third

theorem AreArms.arm {condition : Expr} {body : Block} {span : Span} {rest : Arms} {rule : Rule}
    {node : Node Rule} {nodes : List (Node Rule)} (h : NodeOf rule (IsGuarded condition body) node)
    (hrest : AreArms rest nodes) :
    AreArms (.arm condition body span rest) (node :: nodes) := by
  obtain ⟨rule, start, stop, text, children⟩ := node
  obtain ⟨rfl, first, second, third, rfl, ⟨e, he, herase⟩, hthird⟩ := h
  obtain ⟨b, hb, heraseBody⟩ := hthird.readBlock
  obtain ⟨arms, harms, heraseRest⟩ := hrest
  have hread := @ArmsOf.arm rule start stop text [first] _ _ _ _ _ _ (.inl rfl) he hb harms
  exact ⟨_, readArms_eq_ok.2 hread, by simp [Arms.erase, herase, heraseBody, heraseRest]⟩

/-- A clause with a condition, behind whichever keyword opens it. -/
theorem takes_clause {p : Pattern Rule} {word : String} {condition : Expr} {body : Block}
    {rule : Rule} (hpattern : pattern rule = .phrase [p, .rule .expression, .rule .block])
    (hrule : hidden rule = false)
    (hword : ∀ tokens, Takes p (trail (word :: tokens)) (trail tokens) (Single fun _ => True))
    (h : condition.Canonical) (hbody : TakesBlock spelling body) (tokens : List String) :
    Takes (.rule rule)
      (trail (word :: (condition.tokens spelling ++ (body.tokens spelling ++ tokens))))
      (trail tokens) (Single (NodeOf rule (IsGuarded condition body))) := by
  have hphrase := (hword _).seq (takes_guarded spelling h hbody tokens)
  refine Takes.node (by rwa [hpattern]) hrule ?_
  rintro start stop text _ ⟨_, _, rfl, ⟨first, rfl, -⟩, _, _, rfl, ⟨second, rfl, hsecond⟩, third,
    rfl, hthird⟩
  exact ⟨rfl, first, second, third, rfl, hsecond, hthird⟩

theorem takes_laterClauses_done :
    Takes laterClauses (trail (";" :: tokens)) (trail (";" :: tokens)) (AreArms .done) := by
  have helif : Refuses (.rule .elifClause) (trail (";" :: tokens)) :=
    refuses_token (by decide) fun _ _ => ⟨20, rfl⟩
  have helse : Refuses (.rule .elseClause) (trail (";" :: tokens)) :=
    refuses_token (by decide) fun _ _ => ⟨20, rfl⟩
  refine Takes.imp ((takes_many_of_refuses helif).seq (takes_opt_of_refuses helse)) ?_
  rintro _ ⟨_, _, rfl, rfl, rfl⟩
  exact ⟨.done, rfl, rfl⟩

theorem takes_laterClauses_otherwise {body : Block} (hbody : TakesBlock spelling body) :
    Takes laterClauses (trail ("else" :: (body.tokens spelling ++ tokens))) (trail tokens)
      (AreArms (.otherwise body)) := by
  have hword (tokens : List String) : Takes (.rule .elseWord) (trail ("else" :: tokens))
      (trail tokens) (Single (NodeOf .elseWord (· = []))) := takes_keyword rfl rfl (by decide)
  have hclause : Takes (.rule .elseClause) (trail ("else" :: (body.tokens spelling ++ tokens)))
      (trail tokens) (Single (NodeOf .elseClause
        (Appended (Single (NodeOf .elseWord (· = []))) (Single (IsBlock body))))) :=
    Takes.rule ((hword _).seq (hbody tokens)) rfl
  have helif : Refuses (.rule .elifClause)
      (trail ("else" :: (body.tokens spelling ++ tokens))) := by
    -- a brace stands where `if` would have to
    obtain ⟨statements, span⟩ := body
    rw [Refuses, skip_trail_cons (by decide)]
    exact ⟨40, rfl⟩
  refine Takes.imp ((takes_many_of_refuses helif).seq (takes_opt hclause)) ?_
  rintro _ ⟨_, _, rfl, rfl, ⟨rule, start, stop, text, children⟩, rfl, rfl, _, _, rfl,
    ⟨first, rfl, -⟩, second, rfl, hsecond⟩
  obtain ⟨b, hb, herase⟩ := hsecond.readBlock
  exact ⟨.otherwise b, readArms_eq_ok.2 (.otherwise hb), by simp [Arms.erase, herase]⟩

theorem takes_laterClauses_arm {condition : Expr} {body : Block} {span : Span} {rest : Arms}
    (h : condition.Canonical) (hbody : TakesBlock spelling body)
    (hrest : Takes laterClauses (trail tokens) t (AreArms rest)) :
    Takes laterClauses
      (trail ("elif" :: (condition.tokens spelling ++ (body.tokens spelling ++ tokens)))) t
      (AreArms (.arm condition body span rest)) := by
  have hword (tokens : List String) :
      Takes (.alt (.rule .elifWord) (.phrase [.rule .elseWord, .rule .ifWord]))
        (trail ("elif" :: tokens)) (trail tokens) (Single fun _ => True) := by
    refine takes_token (by decide) fun pos => ?_
    rcases spaced_trail tokens with h | ⟨tail, h⟩ <;> rw [h]
    all_goals exact ⟨_, ⟨30, _, rfl, rfl⟩, _, rfl, trivial⟩
  have hclause : Takes (.rule .elifClause) _ _ _ :=
    takes_clause spelling rfl rfl hword h hbody tokens
  refine Takes.imp (hclause.many_seq_cons hrest) ?_
  rintro _ ⟨_, nodes, rfl, ⟨node, rfl, hnode⟩, hnodes⟩
  exact .arm hnode hnodes

theorem takes_conditional {condition : Expr} {body : Block} {span span' : Span} {rest : Arms}
    (h : condition.Canonical) (hbody : TakesBlock spelling body)
    (hrest : Takes laterClauses (trail tokens) (trail (";" :: tokens')) (AreArms rest)) :
    Takes statement
      (trail ("if" :: (condition.tokens spelling ++ (body.tokens spelling ++ tokens))))
      (trail tokens')
      (Single (IsStatement (.conditional (.arm condition body span rest) span'))) := by
  refine takes_form (statementForms.take 1) rfl ?_ (refuses_forms_before (by decide))
  have hword (tokens : List String) :
      Takes (.rule .ifWord) (trail ("if" :: tokens)) (trail tokens) (Single fun _ => True) :=
    (takes_keyword rfl rfl (by decide)).imp fun _ ⟨node, hnodes, _⟩ => ⟨node, hnodes, trivial⟩
  have hclause : Takes (.rule .ifClause) _ _ _ := takes_clause spelling rfl rfl hword h hbody tokens
  refine Takes.node (hclause.seq hrest) rfl ?_
  rintro start stop text _ ⟨_, nodes, rfl, ⟨node, rfl, hnode⟩, hnodes⟩
  have harms : AreArms (.arm condition body span rest) (node :: nodes) := .arm hnode hnodes
  obtain ⟨arms, hread, herase⟩ := harms
  refine ⟨.conditional arms (.between start stop), ?_, by simp [Statement.erase, herase]⟩
  rw [List.cons_append, List.nil_append, readStatement, hread]
  rfl

/-! ## All statements -/

theorem takes_statements_cons {statement : Statement} {statements : List Statement}
    {q : Pattern Rule} {Q : List (Node Rule) → Prop}
    (h : Takes Grammar.statement s t (Single (IsStatement statement)))
    (hrest : Takes (.phrase [.many Grammar.statement, q]) t u
      (Appended (AreStatements statements) Q)) :
    Takes (.phrase [.many Grammar.statement, q]) s u
      (Appended (AreStatements (statement :: statements)) Q) := by
  refine Takes.imp (h.many_seq_cons hrest) ?_
  rintro _ ⟨_, _, rfl, ⟨node, rfl, hnode⟩, front, back, rfl, hfront, hback⟩
  exact ⟨node :: front, back, rfl, .cons hnode hfront, hback⟩

theorem takes_block_mk {statements : List Statement} {span : Span}
    (h : ∀ tokens, Takes (.phrase [.many statement, .word "\x7d"])
      (trail (Statement.tokensAll spelling statements ++ "\x7d" :: tokens)) (trail tokens)
      (Appended (AreStatements statements) (· = []))) :
    TakesBlock spelling (.mk statements span) := by
  intro tokens
  have hphrase := (takes_text (by decide : Solid "\x7b") _).seq (h tokens)
  rw [Block.tokens, List.cons_append, List.append_assoc]
  refine Takes.node hphrase rfl ?_
  rintro start stop text _ ⟨_, _, rfl, rfl, nodes, _, rfl, hnodes, rfl⟩
  refine ⟨rfl, ?_⟩
  simpa [Block.statements] using hnodes

theorem takes_blockStatement {body : Block} (h : TakesBlock spelling body) :
    Takes statement (trail (body.tokens spelling ++ ";" :: tokens)) (trail tokens)
      (Single (IsStatement (.block body))) := by
  refine takes_form [] rfl ?_ (by simp)
  refine (h (";" :: tokens)).imp ?_
  rintro _ ⟨node, rfl, hnode⟩
  exact ⟨node, rfl, hnode.isStatement⟩

end Forms

mutual

theorem takes_statement (spelling : FloatSpelling) (statement : Statement) (h : statement.Canonical)
    (tokens : List String) :
    Takes Grammar.statement (trail (statement.tokens spelling ++ tokens)) (trail tokens)
      (Single (IsStatement statement)) := by
  match statement, h with
  | .assign a, h => simpa [Statement.tokens] using takes_assign spelling h
  | .print mode e span, h => simpa [Statement.tokens] using takes_print spelling mode h
  | .block body, h =>
    have hbody := takes_block spelling body h
    simpa [Statement.tokens] using takes_blockStatement spelling hbody
  | .conditional .done span, h => exact h.1.elim
  | .conditional (.otherwise body) span, h => exact h.1.elim
  | .conditional (.arm condition body span' rest) span, h =>
    have hbody := takes_block spelling body h.2.2.1
    have hrest := takes_arms spelling rest h.2.2.2 tokens
    simpa [Statement.tokens, Arms.tokens] using takes_conditional spelling h.2.1 hbody hrest
  | .whileLoop condition body span, h =>
    have hbody := takes_block spelling body h.2
    simpa [Statement.tokens] using takes_while spelling h.1 hbody
  | .forLoop init condition update body span, h =>
    have hbody := takes_block spelling body h.2.2.2
    simpa [Statement.tokens] using takes_for spelling h.1 h.2.1 h.2.2.1 hbody
  | .expression e span, h => simpa [Statement.tokens] using takes_expressionStatement spelling h

theorem takes_statements (spelling : FloatSpelling) (statements : List Statement)
    (h : Statement.AllCanonical statements) {q : Pattern Rule} {Q : List (Node Rule) → Prop}
    {tokens : List String} {u : List Char}
    (hstop : Refuses statement (trail tokens)) (hlast : Takes q (trail tokens) u Q) :
    Takes (.phrase [.many statement, q]) (trail (Statement.tokensAll spelling statements ++ tokens))
      u (Appended (AreStatements statements) Q) := by
  match statements, h with
  | [], _ =>
    refine Takes.imp ((takes_many_of_refuses hstop).seq hlast) ?_
    rintro _ ⟨_, back, rfl, rfl, hback⟩
    exact ⟨[], back, rfl, ⟨[], rfl, rfl⟩, hback⟩
  | statement :: rest, h =>
    have hstatement := takes_statement spelling statement h.1
    have hrest := takes_statements spelling rest h.2 hstop hlast
    rw [Statement.tokensAll, List.append_assoc]
    exact takes_statements_cons (hstatement _) hrest

theorem takes_block (spelling : FloatSpelling) (body : Block) (h : body.Canonical) :
    TakesBlock spelling body := by
  match body, h with
  | .mk statements span, h =>
    refine takes_block_mk spelling fun tokens => ?_
    have hstop : Refuses statement (trail ("\x7d" :: tokens)) :=
      refuses_token (by decide) fun _ _ => ⟨60, rfl⟩
    exact takes_statements spelling statements h hstop
      (takes_text (by decide : Solid "\x7d") tokens)

theorem takes_arms (spelling : FloatSpelling) (arms : Arms) (h : arms.Canonical)
    (tokens : List String) :
    Takes laterClauses (trail (arms.tokens spelling "elif" ++ ";" :: tokens))
      (trail (";" :: tokens)) (AreArms arms) := by
  match arms, h with
  | .done, _ => exact takes_laterClauses_done
  | .otherwise body, h =>
    exact takes_laterClauses_otherwise spelling (takes_block spelling body h)
  | .arm condition body span rest, h =>
    have hbody := takes_block spelling body h.2.1
    have hrest := takes_arms spelling rest h.2.2 tokens
    simpa [Arms.tokens] using takes_laterClauses_arm spelling h.1 hbody hrest

end

end BlockScript
