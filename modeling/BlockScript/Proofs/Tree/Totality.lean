import BlockScript.Proofs.Tree.Overflow
import BlockScript.Proofs.Tree.RoundTrip

/-!
# Every match is read

The readers of statements find the nodes that they expect in every match.  A text that matches is
therefore read, or the error is the one for its first integer that is out of range.
-/

namespace BlockScript

open Grammar
open Peg (Node)

namespace Reader

/-! ## Reading statements -/

theorem reports_of_expression {node : Node Rule} (hnode : rules.Produced node)
    (hrule : node.rule = .expression) : Reports (overflow? node) (readExpr node) :=
  (reports_of_produced node hnode).1 hrule

theorem reports_readAssignment {node : Node Rule} (hnode : rules.Produced node)
    (hrule : node.rule = .assignment) : Reports (overflow? node) (readAssignment node) := by
  obtain ⟨_, start, stop, text, children⟩ := node
  obtain rfl := hrule
  obtain ⟨target, value, rfl, htarget, hvalue⟩ := children_of_assignment hnode
  have hnone := overflow?_token (hnode.child target (by simp)) htarget rfl (by decide)
  rw [overflow?_of_produced hnode (by decide) (by decide), findSome?_cons_eq_or, hnone,
    findSome?_cons_eq_or, List.findSome?_nil, Option.or_none]
  exact (reports_readIdentifier htarget).bind fun _ _ =>
    (reports_of_expression (hnode.child value (by simp)) hvalue).map _

theorem reports_readPrintMode {node : Node Rule}
    (hrule : node.rule = .printLineWord ∨ node.rule = .printValueWord) :
    Reports none (readPrintMode node) := by
  unfold readPrintMode
  rcases hrule with hrule | hrule <;> rw [hrule] <;> exact reports_ok _

theorem reports_readStatements {nodes : List (Node Rule)}
    (h : ∀ node ∈ nodes, Reports (overflow? node) (readStatement node)) :
    Reports (nodes.findSome? overflow?) (readStatements nodes) := by
  induction nodes with
  | nil => exact reports_ok []
  | cons node nodes ih =>
    obtain ⟨hnode, hnodes⟩ := List.forall_mem_cons.1 h
    rw [findSome?_cons_eq_or, readStatements]
    exact hnode.bind fun _ _ => (ih hnodes).map _

/-- What is read from the parts of a clause. -/
def ClauseReports : Node Rule → Prop
  | .mk _ _ _ _ children => ∀ child ∈ children,
    child.rule = .block → Reports (overflow? child) (readBlock child)

theorem reports_arm {clause : Node Rule} {rest : List (Node Rule)} {later : Option (Node Rule)}
    (hclause : rules.Produced clause) (hparts : ClauseReports clause)
    (hrule : clause.rule = .ifClause ∨ clause.rule = .elifClause)
    (hrest : Reports later (readArms rest)) :
    Reports ((overflow? clause).or later) (readArms (clause :: rest)) := by
  obtain ⟨rule, start, stop, text, children⟩ := clause
  change rule = .ifClause ∨ rule = .elifClause at hrule
  obtain ⟨words, condition, body, rfl, hwords, hcondition, hbody⟩ :=
    children_of_clause hrule hclause
  have hproduced := hclause.child
  have hlength : words.length = 1 ∨ words.length = 2 := by
    have hall : ∀ rules ∈ [[Rule.ifWord], [.elifWord], [.elseWord, .ifWord]],
        rules.length = 1 ∨ rules.length = 2 := by decide
    simpa only [List.length_map] using hall _ hwords
  have hnone : words.findSome? overflow? = none := by
    refine List.findSome?_eq_none_iff.2 fun word hword => ?_
    have hall : ∀ rules ∈ [[Rule.ifWord], [.elifWord], [.elseWord, .ifWord]], ∀ rule ∈ rules,
        (pattern rule).names = [] ∧ rule ≠ .integer := by decide
    obtain ⟨hnames, hinteger⟩ := hall _ hwords word.rule (List.mem_map_of_mem hword)
    exact overflow?_token (hproduced word (by simp [hword])) rfl hnames hinteger
  have hfound : overflow? (.mk rule start stop text (words ++ [condition, body])) =
      (overflow? condition).or (overflow? body) := by
    rw [overflow?_of_produced hclause (by rcases hrule with rfl | rfl <;> decide)
        (by rcases hrule with rfl | rfl <;> decide),
      List.findSome?_append, hnone, Option.none_or, findSome?_cons_eq_or, findSome?_cons_eq_or,
      List.findSome?_nil, Option.or_none]
  rw [hfound, Option.or_assoc, readArms_clause hlength]
  exact (reports_of_expression (hproduced condition (by simp)) hcondition).bind fun _ _ =>
    (hparts body (by simp) hbody).bind fun _ _ => hrest.map _

theorem reports_elseClause {clause : Node Rule} (hclause : rules.Produced clause)
    (hparts : ClauseReports clause) (hrule : clause.rule = .elseClause) :
    Reports (overflow? clause) (readArms [clause]) := by
  obtain ⟨_, start, stop, text, children⟩ := clause
  obtain rfl := hrule
  obtain ⟨word, body, rfl, hword, hbody⟩ := children_of_elseClause hclause
  have hnone := overflow?_token (hclause.child word (by simp)) hword rfl (by decide)
  rw [overflow?_of_produced hclause (by decide) (by decide), findSome?_cons_eq_or, hnone,
    findSome?_cons_eq_or, List.findSome?_nil, Option.or_none]
  exact (hparts body (by simp) hbody).map _

theorem reports_readArms {others last : List (Node Rule)}
    (hothers : ∀ clause ∈ others, rules.Produced clause ∧ ClauseReports clause ∧
      (clause.rule = .ifClause ∨ clause.rule = .elifClause))
    (hlast : Reports (last.findSome? overflow?) (readArms last)) :
    Reports ((others ++ last).findSome? overflow?) (readArms (others ++ last)) := by
  induction others with
  | nil => exact hlast
  | cons clause others ih =>
    obtain ⟨⟨hclause, hparts, hrule⟩, hmore⟩ := List.forall_mem_cons.1 hothers
    rw [List.cons_append, findSome?_cons_eq_or]
    exact reports_arm hclause hparts hrule (ih hmore)

section

variable {start stop : Position} {text : List Char} {children : List (Node Rule)}

theorem reports_ifStatement (hnode : rules.Produced (.mk .ifStatement start stop text children))
    (hclauses : ∀ child ∈ children, ClauseReports child) :
    Reports (overflow? (.mk .ifStatement start stop text children))
      (readStatement (.mk .ifStatement start stop text children)) := by
  obtain ⟨first, others, last, rfl, hfirst, hothers, hlast⟩ := children_of_ifStatement hnode
  have hproduced := hnode.child
  have hfinal : Reports (last.findSome? overflow?) (readArms last) := by
    rcases hlast with rfl | ⟨clause, rfl, hrule⟩
    · exact reports_ok Arms.done
    · rw [findSome?_cons_eq_or, List.findSome?_nil, Option.or_none]
      exact reports_elseClause (hproduced clause (by simp)) (hclauses clause (by simp)) hrule
  have harms : Reports ((first :: others ++ last).findSome? overflow?)
      (readArms (first :: others ++ last)) := by
    refine reports_readArms (List.forall_mem_cons.2 ⟨?_, fun clause hclause => ?_⟩) hfinal
    · exact ⟨hproduced first (by simp), hclauses first (by simp), .inl hfirst⟩
    · exact ⟨hproduced clause (by simp [hclause]), hclauses clause (by simp [hclause]),
        .inr (hothers clause hclause)⟩
  rw [overflow?_of_produced hnode (by decide) (by decide)]
  exact harms.map _

theorem reports_loop (hnode : rules.Produced (.mk .whileStatement start stop text children))
    (hblock : ∀ child ∈ children, child.rule = .block →
      Reports (overflow? child) (readBlock child)) :
    Reports (overflow? (.mk .whileStatement start stop text children))
      (readStatement (.mk .whileStatement start stop text children)) := by
  obtain ⟨word, condition, body, rfl, hword, hcondition, hbody⟩ := children_of_whileStatement hnode
  have hproduced := hnode.child
  have hnone := overflow?_token (hproduced word (by simp)) hword rfl (by decide)
  rw [overflow?_of_produced hnode (by decide) (by decide), findSome?_cons_eq_or, hnone,
    findSome?_cons_eq_or, findSome?_cons_eq_or, List.findSome?_nil, Option.or_none]
  exact (reports_of_expression (hproduced condition (by simp)) hcondition).bind fun _ _ =>
    (hblock body (by simp) hbody).map _

theorem reports_forStatement (hnode : rules.Produced (.mk .forStatement start stop text children))
    (hblock : ∀ child ∈ children, child.rule = .block →
      Reports (overflow? child) (readBlock child)) :
    Reports (overflow? (.mk .forStatement start stop text children))
      (readStatement (.mk .forStatement start stop text children)) := by
  obtain ⟨word, init, condition, update, body, rfl, hword, hinit, hcondition, hupdate, hbody⟩ :=
    children_of_forStatement hnode
  have hproduced := hnode.child
  have hnone := overflow?_token (hproduced word (by simp)) hword rfl (by decide)
  have hreadCondition := reports_of_expression (hproduced condition (by simp)) hcondition
  have hreadUpdate := reports_of_expression (hproduced update (by simp)) hupdate
  have hreadBody := hblock body (by simp) hbody
  rw [overflow?_of_produced hnode (by decide) (by decide), findSome?_cons_eq_or, hnone,
    Option.none_or]
  rcases hinit with rfl | ⟨a, rfl, ha⟩
  · simp only [List.nil_append, findSome?_cons_eq_or, List.findSome?_nil, Option.or_none]
    exact hreadCondition.bind fun _ _ => hreadUpdate.bind fun _ _ => hreadBody.map _
  · have hreadInit := reports_readAssignment (hproduced a (by simp)) ha
    simp only [List.cons_append, List.nil_append, findSome?_cons_eq_or, List.findSome?_nil,
      Option.or_none]
    exact hreadInit.bind fun _ _ => hreadCondition.bind fun _ _ => hreadUpdate.bind fun _ _ =>
      hreadBody.map _

theorem reports_printStatement
    (hnode : rules.Produced (.mk .printStatement start stop text children)) :
    Reports (overflow? (.mk .printStatement start stop text children))
      (readStatement (.mk .printStatement start stop text children)) := by
  obtain ⟨mode, value, rfl, hmode, hvalue⟩ := children_of_printStatement hnode
  have hproduced := hnode.child
  have hnone : overflow? mode = none := by
    rcases hmode with hrule | hrule <;>
      exact overflow?_token (hproduced mode (by simp)) hrule rfl (by decide)
  rw [overflow?_of_produced hnode (by decide) (by decide), findSome?_cons_eq_or, hnone,
    findSome?_cons_eq_or, List.findSome?_nil, Option.or_none]
  exact (reports_readPrintMode hmode).bind fun _ _ =>
    (reports_of_expression (hproduced value (by simp)) hvalue).map _

theorem reports_expressionStatement
    (hnode : rules.Produced (.mk .expressionStatement start stop text children)) :
    Reports (overflow? (.mk .expressionStatement start stop text children))
      (readStatement (.mk .expressionStatement start stop text children)) := by
  obtain ⟨value, rfl, hvalue⟩ := children_of_expressionStatement hnode
  rw [overflow?_of_produced hnode (by decide) (by decide), findSome?_cons_eq_or,
    List.findSome?_nil, Option.or_none]
  exact (reports_of_expression (hnode.child value (by simp)) hvalue).map _

end

/-- Every statement and every block of a match is read, or reports its first overflow. -/
theorem statementReports_of_produced (node : Node Rule) (hnode : rules.Produced node) :
    (node.rule ∈ statementRules → Reports (overflow? node) (readStatement node)) ∧
      (node.rule = .block → Reports (overflow? node) (readBlock node)) ∧ ClauseReports node := by
  induction node using Peg.Node.induction with
  | step rule start stop text children ih =>
    have hchildren := fun child hchild => ih child hchild (hnode.child child hchild)
    have hblock := fun child hchild => (hchildren child hchild).2.1
    have hbody : rule = .block →
        Reports (overflow? (.mk rule start stop text children)) (readStatements children) := by
      rintro rfl
      rw [overflow?_of_produced hnode (by decide) (by decide)]
      exact reports_readStatements fun child hchild =>
        (hchildren child hchild).1 (children_of_block hnode child hchild)
    refine ⟨fun hrule => ?_, ?_, hblock⟩
    · change rule ∈ statementRules at hrule
      simp only [statementRules, List.mem_cons, List.not_mem_nil, or_false] at hrule
      rcases hrule with rfl | rfl | rfl | rfl | rfl | rfl | rfl
      · exact (hbody rfl).map _
      · exact reports_ifStatement hnode fun child hchild => (hchildren child hchild).2.2
      · exact reports_loop hnode hblock
      · exact reports_forStatement hnode hblock
      · exact reports_printStatement hnode
      · exact (reports_readAssignment hnode rfl).map _
      · exact reports_expressionStatement hnode
    · intro hrule
      change rule = .block at hrule
      subst hrule
      exact (hbody rfl).map _

/-! ## Reading a whole text -/

theorem overflow?_whole {rule : Rule} {text : List Char} {nodes : List (Node Rule)}
    (h : rules.Reads (.rule rule) .start text [] nodes) (hrule : Grammar.hidden rule = false) :
    ∃ node, rules.Produced node ∧ node.rule = rule ∧ nodeOf rule text = .ok node ∧
      firstOverflow? none (Node.preorderAll nodes) = overflow? node := by
  obtain ⟨children, hread, rfl⟩ := h.node hrule
  have hproduced : rules.Produced (.mk rule .start (Position.start.afterAll text) text children) :=
    ⟨[], hread⟩
  refine ⟨_, hproduced, rfl, nodeOf_of_reads h, ?_⟩
  rw [Node.preorderAll, Node.preorderAll, List.append_nil, overflow?]

theorem reports_program {source : String} {file : Option String} {node : Node Rule}
    (hproduced : rules.Produced node) (hrule : node.rule = .program)
    (hnode : nodeOf .program source.toList = .ok node) :
    Reports (overflow? node) (Program.parse source file) := by
  obtain ⟨_, start, stop, text, children⟩ := node
  obtain rfl := hrule
  obtain ⟨statements, last, rfl, hstatements, hlast, hparse⟩ := exists_statements_of_nodeOf hnode
  have hnone := overflow?_token (hproduced.child last (by simp)) hlast rfl (by decide)
  have hread : Reports (statements.findSome? overflow?) (readStatements statements) :=
    reports_readStatements fun node hnode => (statementReports_of_produced node
      (hproduced.child node (by simp [hnode]))).1 (hstatements node hnode)
  rw [overflow?_of_produced hproduced (by decide) (by decide), List.findSome?_append,
    findSome?_cons_eq_or, hnone, List.findSome?_nil, Option.none_or, Option.or_none, hparse]
  exact hread.map _

theorem reports_soleExpression {source : String} {node : Node Rule}
    (hproduced : rules.Produced node) (hrule : node.rule = .soleExpression)
    (hnode : nodeOf .soleExpression source.toList = .ok node) :
    Reports (overflow? node) (Expr.parse source) := by
  obtain ⟨_, start, stop, text, children⟩ := node
  obtain rfl := hrule
  obtain ⟨e, last, rfl, he, hlast⟩ := children_of_soleExpression hproduced
  have hnone := overflow?_token (hproduced.child last (by simp)) hlast rfl (by decide)
  rw [overflow?_of_produced hproduced (by decide) (by decide), findSome?_cons_eq_or,
    findSome?_cons_eq_or, hnone, List.findSome?_nil, Option.or_none, Option.or_none, Expr.parse,
    hnode]
  exact reports_of_expression (hproduced.child e (by simp)) he

end Reader

open Reader in
/-- A text that matches is read without error unless one of its integers is out of range, and then
the error is the one for the first such integer.  This holds for whole programs and for single
expressions. -/
theorem parse_reports_firstOverflow :
    (∀ (source : String) (file : Option String) (nodes : List (Node Rule)),
      rules.Reads (.rule .program) .start source.toList [] nodes →
        Reports (firstOverflow? none (Node.preorderAll nodes)) (Program.parse source file)) ∧
    ∀ (source : String) (nodes : List (Node Rule)),
      rules.Reads (.rule .soleExpression) .start source.toList [] nodes →
        Reports (firstOverflow? none (Node.preorderAll nodes)) (Expr.parse source) := by
  constructor
  · intro source file nodes hread
    obtain ⟨node, hproduced, hrule, hnode, hfound⟩ := overflow?_whole hread rfl
    rw [hfound]
    exact reports_program hproduced hrule hnode
  · intro source nodes hread
    obtain ⟨node, hproduced, hrule, hnode, hfound⟩ := overflow?_whole hread rfl
    rw [hfound]
    exact reports_soleExpression hproduced hrule hnode

open Reader in
theorem exists_firstOverflow (rule : Rule) (text : List Char) (e : ParseError)
    (h : (nodeOf rule text).toOption.bind
      (fun node => (firstOverflow? none (Node.preorderAll [node])).map rangeError) = some e) :
    ∃ node, nodeOf rule text = .ok node ∧
      ∃ token ∈ firstOverflow? none (Node.preorderAll [node]), e = rangeError token := by
  obtain ⟨node, hnode, hfound⟩ := Option.bind_eq_some_iff.1 h
  obtain ⟨token, htoken, rfl⟩ := Option.map_eq_some_iff.1 hfound
  refine ⟨node, ?_, token, htoken, rfl⟩
  cases hresult : nodeOf rule text with
  | ok found =>
    rw [hresult] at hnode
    cases hnode
    rfl
  | error e =>
    rw [hresult] at hnode
    cases hnode

/-- The first of two equal rows of digits belongs to the minus sign before it, the second does not;
no minus sign brings the digits of the last text into range. -/
theorem parse_reports_firstOverflow_digits :
    Program.parse "x=-9223372036854775808;9223372036854775808;1" none =
        .error (.integerRange ⟨23, 19⟩ "9223372036854775808") ∧
      Expr.parse "-9223372036854775809" =
        .error (.integerRange ⟨1, 19⟩ "9223372036854775809") := by
  constructor
  · obtain ⟨node, hnode, htoken⟩ := exists_firstOverflow .program
      "x=-9223372036854775808;9223372036854775808;1".toList
      (.integerRange ⟨23, 19⟩ "9223372036854775808") (by decide +kernel)
    exact (parse_reports_firstOverflow.1 "x=-9223372036854775808;9223372036854775808;1" none [node]
      (reads_whole (.inl rfl) hnode) _).2 htoken
  · obtain ⟨node, hnode, htoken⟩ := exists_firstOverflow .soleExpression
      "-9223372036854775809".toList (.integerRange ⟨1, 19⟩ "9223372036854775809")
      (by decide +kernel)
    exact (parse_reports_firstOverflow.2 "-9223372036854775809" [node]
      (reads_whole (.inr rfl) hnode) _).2 htoken

end BlockScript
