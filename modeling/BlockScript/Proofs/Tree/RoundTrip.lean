import BlockScript.Proofs.Grammar.Shapes
import BlockScript.Proofs.Tree.Soundness
import BlockScript.Proofs.Tree.StatementText

/-!
# Reading undoes writing

The trees that are read are the canonical ones: every tree that is read is canonical, and the text
of a canonical tree is read as a tree that agrees with it up to spans.
-/

namespace BlockScript

open Grammar Reader
open Peg (Node Pattern)
open Peg.Grammar

/-- The text of tokens begins like a trail of them, the first blank apart. -/
theorem skip_intercalate (tokens : List String) :
    rules.skip (" ".intercalate tokens).toList = rules.skip (trail tokens) := by
  have htext : ∀ token tokens, (" ".intercalate (token :: tokens)).toList =
      token.toList ++ trail tokens := by
    intro token tokens
    induction tokens generalizing token with
    | nil => simp [trail]
    | cons next tokens ih =>
      rw [trail_cons, ← ih next]
      simp [String.toList_intercalate]
  cases tokens with
  | nil => rfl
  | cons token tokens => rw [htext, trail_cons, skip_cons_of_blank rfl]

theorem takes_program (spelling : FloatSpelling) {statements : List Statement}
    (h : Statement.AllCanonical statements) :
    Takes (.phrase [.many statement, .rule .endOfInput])
      (trail (Statement.tokensAll spelling statements)) []
      (Appended (AreStatements statements) (Single (NodeOf .endOfInput (· = [])))) := by
  have hstop : Refuses statement (trail []) := ⟨60, rfl⟩
  have hend : Takes (.rule .endOfInput) (trail []) [] (Single (NodeOf .endOfInput (· = []))) := by
    refine Takes.rule (fun pos => ?_) rfl
    exact ⟨[], [], [], rfl, rfl, reads_finish.2 ⟨rfl, rfl, rfl⟩, rfl⟩
  simpa using takes_statements spelling statements h hstop hend

theorem eq_nil_of_reads_end {p : Pattern Rule} {pos : Position} {w rest : List Char}
    {nodes : List (Node Rule)}
    (h : rules.Reads (.seq p (.seq .layout (.rule .endOfInput))) pos w rest nodes) : rest = [] := by
  obtain ⟨_, _, _, _, rfl, rfl, -, hread⟩ := reads_seq.1 h
  obtain ⟨_, _, _, _, rfl, rfl, -, hread⟩ := reads_seq.1 hread
  obtain ⟨_, hread, -⟩ := reads_rule.1 hread
  exact (reads_finish.1 hread).2.1

theorem nodeOf_of_reads {rule : Rule} {text : List Char} {node : Node Rule}
    (h : rules.Reads (.rule rule) .start text [] [node]) : nodeOf rule text = .ok node := by
  obtain ⟨trees, hparse, hplace⟩ := ranking.parse_of_reads h
  rw [List.append_nil] at hparse
  rw [nodeOf, hparse]
  simp only [hplace]

theorem reads_of_nodeOf {rule : Rule} {text : List Char} {node : Node Rule}
    (h : nodeOf rule text = .ok node) :
    ∃ w rest, text = w ++ rest ∧ rules.Reads (.rule rule) .start w rest [node] := by
  unfold nodeOf at h
  split at h
  · rename_i trees rest hparse
    split at h
    · rename_i node' hplace
      cases h
      refine ⟨_, rest, (textOf_run _ _ _ _ hparse).symm, ?_⟩
      rw [← hplace]
      exact reads_of_run .start hparse
    · cases h
  · cases h

/-- A whole text is read up to its end. -/
theorem reads_whole {rule : Rule} {text : List Char} {node : Node Rule}
    (hrule : rule = .program ∨ rule = .soleExpression) (h : nodeOf rule text = .ok node) :
    rules.Reads (.rule rule) .start text [] [node] := by
  obtain ⟨w, rest, rfl, hread⟩ := reads_of_nodeOf h
  suffices rest = [] by
    subst this
    rwa [List.append_nil]
  obtain ⟨children, hpattern, -⟩ := reads_rule.1 hread
  rcases hrule with rfl | rfl
  all_goals
    obtain ⟨_, _, _, _, rfl, rfl, -, hphrase⟩ := reads_seq.1 hpattern
    exact eq_nil_of_reads_end hphrase

/-- The text of canonical statements is one program, with their nodes and one for its end. -/
theorem nodeOf_render (spelling : FloatSpelling) {p : Program} (h : p.Canonical) :
    ∃ node, nodeOf .program (p.render spelling).toList = .ok node ∧ NodeOf .program
      (Appended (AreStatements p.statements) (Single (NodeOf .endOfInput (· = [])))) node := by
  obtain ⟨gap, hgap⟩ := exists_gap (p.render spelling).toList
  obtain ⟨w, rest, nodes, hs, -, hread, hnodes⟩ :=
    takes_program spelling h (Position.start.afterAll gap)
  obtain rfl := eq_nil_of_reads_end hread
  have hskip : rules.skip (p.render spelling).toList = w := by
    rw [Program.render, skip_intercalate, hs, List.append_nil]
  rw [hskip] at hgap
  have hlayout : rules.Reads .layout .start gap (w ++ []) [] :=
    reads_layout.2 ⟨by rw [List.append_nil, ← hgap, hskip], rfl⟩
  have hprogram : rules.Reads (pattern .program) .start (gap ++ w) [] nodes :=
    reads_seq.2 ⟨gap, w, [], nodes, rfl, rfl, hlayout, hread⟩
  rw [hgap]
  exact ⟨_, nodeOf_of_reads (reads_rule.2 ⟨nodes, hprogram, rfl⟩), rfl, hnodes⟩

/-- No statement is the end of the text. -/
theorem rule_ne_endOfInput {nodes : List (Node Rule)} {statements : List Statement}
    (h : readStatements nodes = .ok statements) : ∀ node ∈ nodes, node.rule ≠ .endOfInput := by
  induction nodes generalizing statements with
  | nil => simp
  | cons node nodes ih =>
    obtain ⟨statement, rest, hstatement, hrest, -⟩ := readStatements_cons_eq_ok.1 h
    refine List.forall_mem_cons.2 ⟨fun hrule => ?_, ih hrest⟩
    obtain ⟨rule, start, stop, text, children⟩ := node
    obtain rfl : rule = .endOfInput := hrule
    cases hstatement

/-- The statements of a program are all its nodes but the last. -/
theorem parse_eq_of_nodeOf {source : String} {rule : Rule} {start stop : Position}
    {text : List Char} {nodes : List (Node Rule)} {last : Node Rule}
    (hnode : nodeOf .program source.toList = .ok (.mk rule start stop text (nodes ++ [last])))
    (hnodes : ∀ node ∈ nodes, node.rule ≠ .endOfInput) (hlast : last.rule = .endOfInput)
    (file : Option String) :
    Program.parse source file =
      (do return ⟨← readStatements nodes, file, .between start stop⟩) := by
  have htake : (nodes ++ [last]).takeWhile (fun node => node.rule ≠ .endOfInput) = nodes := by
    rw [List.takeWhile_append_of_pos (by simpa using hnodes)]
    simp [hlast]
  rw [Program.parse, hnode]
  simp only [bind, Except.bind]
  rw [htake]

/-- The nodes of a program are those of its statements and one for the end of the text. -/
theorem exists_statements_of_nodeOf {source : String} {start stop : Position} {text : List Char}
    {children : List (Node Rule)}
    (hnode : nodeOf .program source.toList = .ok (.mk .program start stop text children)) :
    ∃ nodes last, children = nodes ++ [last] ∧ (∀ node ∈ nodes, node.rule ∈ statementRules) ∧
      last.rule = .endOfInput ∧ ∀ file, Program.parse source file =
        (do return ⟨← readStatements nodes, file, .between start stop⟩) := by
  obtain ⟨nodes, last, rfl, hnodes, hlast⟩ := children_of_program (produced_of_nodeOf hnode)
  refine ⟨nodes, last, rfl, hnodes, hlast, parse_eq_of_nodeOf hnode (fun node hmem => ?_) hlast⟩
  have hall : ∀ rule ∈ statementRules, rule ≠ .endOfInput := by decide
  exact hall node.rule (hnodes node hmem)

/-- What is read from a text is read from the nodes of its match. -/
theorem Program.reads_of_parse {source : String} {file : Option String} {p : Program}
    (h : Program.parse source file = .ok p) :
    ∃ nodes last, rules.Reads (pattern .program) .start source.toList [] (nodes ++ [last]) ∧
      readStatements nodes = .ok p.statements ∧
      p.span = .between .start (Position.start.afterAll source.toList) := by
  obtain ⟨node, hnode, -⟩ := bind_eq_ok.1 h
  obtain ⟨children, hread, heq⟩ := (reads_whole (.inl rfl) hnode).node rfl
  cases heq
  obtain ⟨nodes, last, rfl, -, -, hparse⟩ := exists_statements_of_nodeOf hnode
  rw [hparse] at h
  simp only [bind_eq_ok, pure_eq_ok] at h
  obtain ⟨statements, hstatements, rfl⟩ := h
  exact ⟨nodes, last, hread, hstatements, rfl⟩

theorem parse_of_nodeOf {source : String} {file : Option String} {statements : List Statement}
    {node : Node Rule} (hnode : nodeOf .program source.toList = .ok node)
    (h : NodeOf .program
      (Appended (AreStatements statements) (Single (NodeOf .endOfInput (· = [])))) node) :
    ∃ q, Program.parse source file = .ok q ∧ q.sourceFile = file ∧
      Statement.eraseAll q.statements = Statement.eraseAll statements := by
  obtain ⟨rule, start, stop, text, children⟩ := node
  obtain ⟨rfl, nodes, _, rfl, ⟨statements', hread, herase⟩, last, rfl, hlast⟩ := h
  have hrule : last.rule = .endOfInput := by
    obtain ⟨rule, start, stop, text, children⟩ := last
    exact hlast.1
  refine ⟨⟨statements', file, .between start stop⟩, ?_, rfl, herase⟩
  rw [parse_eq_of_nodeOf hnode (rule_ne_endOfInput hread) hrule, hread]
  rfl

/-- Every tree that is read is canonical, and the text of a canonical tree is read as a tree that
agrees with it up to spans. -/
theorem Program.parse_inverts_render (spelling : FloatSpelling) :
    (∀ source file p, Program.parse source file = .ok p → p.Canonical) ∧
      ∀ p : Program, p.Canonical →
        ∃ q, Program.parse (p.render spelling) p.sourceFile = .ok q ∧ q.erase = p.erase := by
  refine ⟨fun source file p h => Program.canonical_of_parse h, fun p h => ?_⟩
  obtain ⟨node, hnode, hchildren⟩ := nodeOf_render spelling h
  obtain ⟨q, hparse, hfile, herase⟩ := parse_of_nodeOf hnode hchildren
  exact ⟨q, hparse, by rw [Program.erase, Program.erase, hfile, herase]⟩

/-- A loop that counts down, with operators of five levels in its condition, a decimal number and
the least integer. -/
def countdown : Program :=
  let x : Expr := .name ⟨"x", default⟩
  let bound : Expr := .float (Decimal.floatOfText "1.5".toList) default
  let double : Expr := .binary .multiply (.integer 2 default) x default
  let difference : Expr := .binary .subtract (.unary .negate x default) double default
  let below : Expr := .binary .less difference bound default
  let holds : Expr := .binary .equal below (.boolean true default) default
  let condition : Expr := .binary .or (.boolean false default) holds default
  let update : Expr := .update .subtract ⟨"x", default⟩ (.integer Int64.minValue default) default
  ⟨[.whileLoop condition (.mk [.expression update default] default) default], none, default⟩

theorem countdown_canonical : countdown.Canonical := by
  have hx : IsIdentifier "x".toList := ⟨'x', [], rfl, rfl, by simp, by decide⟩
  have hbound : IsFloat "1.5".toList :=
    .inl ⟨['1'], ['5'], [], rfl, .inl (by simp), by simp [IsDigits], by simp [IsDigits], .inl rfl⟩
  have hdecimal : IsDecimal (Decimal.floatOfText "1.5".toList) :=
    ⟨"1.5".toList, isToken_float.2 hbound, rfl⟩
  have hlevels : 2 ≤ 3 ∧ 3 ≤ 4 ∧ 4 ≤ 5 ∧ 6 ≤ 6 := by decide
  obtain ⟨hequal, hless, hsubtract, hmultiply⟩ := hlevels
  refine ⟨⟨⟨trivial, hequal, rfl, trivial, hless, trivial, rfl, ?_, trivial⟩, ?_, trivial⟩, trivial⟩
  · refine ⟨hsubtract, trivial, rfl, ⟨trivial, hmultiply, rfl, ⟨rfl, hx⟩, ?_⟩, hdecimal⟩
    exact ⟨trivial, trivial, rfl, .inl (by decide), hx⟩
  · exact ⟨hx, .inr rfl⟩

theorem parse_inverts_render_countdown : ∃ (spelling : FloatSpelling) (q : Program),
    let x : Expr := .name ⟨"x", default⟩
    let bound : Float := Decimal.floatOfText "1.5".toList
    let condition : Expr :=
      .binary .or (.boolean false default)
        (.binary .equal
          (.binary .less
            (.binary .subtract (.unary .negate x default)
              (.binary .multiply (.integer 2 default) x default) default)
            (.float bound default) default)
          (.boolean true default) default) default
    let update : Expr := .update .subtract ⟨"x", default⟩ (.integer Int64.minValue default) default
    countdown.render spelling = " ".intercalate
      ["while", "false", "or", "-", "x", "-", "2", "*", "x", "<", spelling.token bound, "==",
        "true", "\x7b", "x", "-=", "-9223372036854775808", ";", "\x7d", ";"] ∧
      Program.parse (countdown.render spelling) none = .ok q ∧
      q.erase.statements =
        [.whileLoop condition (.mk [.expression update default] default) default] ∧
      q.Canonical := by
  obtain ⟨spelling⟩ : Nonempty FloatSpelling := inferInstance
  obtain ⟨hcanonical, hrender⟩ := Program.parse_inverts_render spelling
  obtain ⟨q, hparse, herase⟩ := hrender countdown countdown_canonical
  refine ⟨spelling, q, rfl, hparse, ?_, hcanonical _ _ q hparse⟩
  rw [herase]
  rfl

end BlockScript
