import BlockScript.Proofs.Tree.Concatenation

/-!
# A single expression and a program of one

A text can be read as an expression or as a program.  In a program an expression is tried only
where no other statement matches, and a text that is a whole expression begins with nothing that
another statement begins with: its first word is no keyword of a statement, and behind a variable
there is no equals sign alone.
-/

namespace BlockScript

open Grammar Reader
open Peg (Node Pattern Stops)
open Peg.Grammar

namespace Grammar

variable {pos : Position} {w rest s : List Char} {nodes : List (Node Rule)} {p : Pattern Rule}

/-! ## Behind a variable -/

/-- What an assignment goes on with behind its variable. -/
def assigned : Pattern Rule :=
  .phrase [.word "=", .absent (.word "="), .rule .expression]

theorem fails_assigned (h : ∀ tail, s = '=' :: tail → ∃ more, tail = '=' :: more) :
    rules.Fails assigned s := by
  cases s with
  | nil => exact ⟨10, rfl⟩
  | cons c tail =>
    by_cases hc : c = '='
    · subst hc
      obtain ⟨more, rfl⟩ := h tail rfl
      exact ⟨10, rfl⟩
    · exact fails_seq.2 (.inl (fails_text_of_ne (Ne.symm hc)))

theorem doubled_of_binaryOperator {tail : List Char}
    (h : rules.Reads binaryOperator pos w rest nodes) (hs : w ++ rest = '=' :: tail) :
    ∃ more, tail = '=' :: more := by
  obtain ⟨q, hq, hread⟩ := h.of_anyOf
  have hnot := hread.not_fails
  rw [hs] at hnot
  simp only [List.mem_cons, List.not_mem_nil, or_false] at hq
  rcases hq with rfl | rfl | rfl | rfl | rfl | rfl | rfl | rfl | rfl | rfl | rfl | rfl | rfl
  case inr.inr.inl =>
    obtain ⟨children, htext, -⟩ := reads_rule.1 hread
    obtain ⟨rfl, -⟩ := reads_text.1 htext
    exact ⟨rest, (List.cons.inj hs).2.symm⟩
  all_goals exact absurd ⟨20, rfl⟩ hnot

/-- The tokens that can follow a variable in an expression. -/
def afterVariable : List (Pattern Rule) :=
  [compoundOperator, .text ['+', '+'], .text ['-', '-'], binaryOperator]

theorem fails_assigned_of_reads (hp : p ∈ afterVariable) (h : rules.Reads p pos w rest nodes) :
    rules.Fails assigned (w ++ rest) := by
  refine fails_assigned fun tail hs => ?_
  have hnot := h.not_fails
  rw [hs] at hnot
  simp only [afterVariable, List.mem_cons, List.not_mem_nil, or_false] at hp
  rcases hp with rfl | rfl | rfl | rfl
  case inr.inr.inr => exact doubled_of_binaryOperator h hs
  all_goals exact absurd ⟨20, rfl⟩ hnot

theorem fails_assigned_of_seq {q : Pattern Rule} (hp : p ∈ afterVariable)
    (h : rules.Reads (.seq p q) pos w rest nodes) : rules.Fails assigned (w ++ rest) := by
  obtain ⟨front, back, _, _, rfl, -, hread, -⟩ := reads_seq.1 h
  rw [List.append_assoc]
  exact fails_assigned_of_reads hp hread

theorem fails_assigned_of_links
    (h : rules.Reads (.seq .layout (.many link)) pos w rest nodes) (hrest : rules.skip rest = []) :
    rules.Fails assigned (rules.skip (w ++ rest)) := by
  obtain ⟨gap, links, _, _, rfl, rfl, hlayout, hlinks⟩ := reads_seq.1 h
  obtain ⟨hskip, -⟩ := reads_layout.1 hlayout
  rw [List.append_assoc, hskip]
  rcases reads_many.1 hlinks with ⟨-, rfl, -⟩ | ⟨front, back, _, _, rfl, -, hlink, -⟩
  · -- nothing but layout is left, and it is already skipped
    obtain rfl : rest = [] :=
      @eq_nil_of_skip gap rest [] (by simpa using hskip) (by simpa using hrest)
    exact fails_assigned (by simp)
  · rw [List.append_assoc]
    exact fails_assigned_of_seq (by simp [afterVariable]) hlink

/-! ## How an expression begins -/

/-- The text begins with an operator, a literal, a parenthesis or a variable that is not assigned
to. -/
inductive Opens : List Char → Prop
  | sign {c : Char} {tail : List Char} (hc : c ∈ ['!', '-', '+']) : Opens (c :: tail)
  | plain {c : Char} {tail : List Char} (hc : c ∈ plainHeads) : Opens (c :: tail)
  | word {k : String} {rest : List Char} (hk : k ∈ ["not", "true", "false", "nil"])
      (hrest : Stops isWordChar rest) : Opens (k.toList ++ rest)
  | name {w rest : List Char} (hw : IsIdentifier w) (hrest : Stops isWordChar rest)
      (hnext : rules.Fails assigned (rules.skip rest)) : Opens (w ++ rest)

theorem opens_of_wholeWord {k : String} (hk : k ∈ ["not", "true", "false", "nil"])
    (h : rules.Reads (wholeWord k) pos w rest nodes) : Opens (w ++ rest) := by
  obtain ⟨rfl, hrest, -⟩ := reads_wholeWord.1 h
  exact .word hk hrest

theorem opens_of_text {c : Char} {chars : List Char} {q : Pattern Rule}
    (hc : c ∈ ['!', '-', '+'] ∨ c ∈ plainHeads)
    (h : rules.Reads (.seq (.text (c :: chars)) q) pos w rest nodes) : Opens (w ++ rest) := by
  obtain ⟨_, back, _, _, rfl, -, htext, -⟩ := reads_seq.1 h
  obtain ⟨rfl, -⟩ := reads_text.1 htext
  rcases hc with hc | hc
  · exact .sign hc
  · exact .plain hc

theorem opens_of_update {q : Pattern Rule}
    (hq : ∀ pos w nodes, rules.Reads q pos w rest nodes → rules.Fails assigned (w ++ rest))
    (h : rules.Reads (.seq (.rule .identifier) (.seq .layout q)) pos w rest nodes) :
    Opens (w ++ rest) := by
  obtain ⟨name, _, _, _, rfl, -, hname, htail⟩ := reads_seq.1 h
  obtain ⟨gap, text, _, _, rfl, -, hlayout, hread⟩ := reads_seq.1 htail
  obtain ⟨⟨hidentifier, hstops⟩, -⟩ := reads_identifier.1 hname
  obtain ⟨hskip, -⟩ := reads_layout.1 hlayout
  rw [List.append_assoc]
  refine .name hidentifier hstops ?_
  rw [List.append_assoc, hskip]
  exact hq _ _ _ hread

theorem opens_of_primary (h : rules.Reads primary pos w rest nodes)
    (hnext : rules.Fails assigned (rules.skip rest)) : Opens (w ++ rest) := by
  have hcompound : compoundOperator ∈ afterVariable := by simp [afterVariable]
  have hup : .text ['+', '+'] ∈ afterVariable := by simp [afterVariable]
  have hdown : .text ['-', '-'] ∈ afterVariable := by simp [afterVariable]
  obtain ⟨q, hq, hread⟩ := h.of_anyOf
  simp only [List.mem_cons, List.not_mem_nil, or_false] at hq
  rcases hq with rfl | rfl | rfl | rfl | rfl | rfl | rfl | rfl | rfl | rfl | rfl | rfl
  · obtain ⟨children, hpattern, -⟩ := reads_rule.1 hread
    exact opens_of_update (fun _ _ _ => fails_assigned_of_seq hcompound) hpattern
  · obtain ⟨children, hpattern, -⟩ := reads_rule.1 hread
    exact opens_of_text (.inl (by decide : '+' ∈ _)) hpattern
  · obtain ⟨children, hpattern, -⟩ := reads_rule.1 hread
    exact opens_of_text (.inl (by decide : '-' ∈ _)) hpattern
  · obtain ⟨children, hpattern, -⟩ := reads_rule.1 hread
    exact opens_of_update (fun _ _ _ => fails_assigned_of_reads hup) hpattern
  · obtain ⟨children, hpattern, -⟩ := reads_rule.1 hread
    exact opens_of_update (fun _ _ _ => fails_assigned_of_reads hdown) hpattern
  · obtain ⟨c, tail, rfl, hc⟩ := (isFloat_of_reads hread).head
    exact .plain hc
  · obtain ⟨⟨hne, hdigits, -⟩, -⟩ := reads_integer.1 hread
    obtain ⟨c, tail, rfl, hc⟩ := hdigits.head hne
    exact .plain hc
  · obtain ⟨⟨⟨s, -, rfl⟩, -⟩, -⟩ := reads_string.1 hread
    exact .plain (by decide)
  · obtain ⟨children, hpattern, -⟩ := reads_rule.1 hread
    rcases reads_alt.1 hpattern with hword | ⟨-, hword⟩
    all_goals
      obtain ⟨_, hword, -⟩ := reads_rule.1 hword
      exact opens_of_wholeWord (by decide) hword
  · obtain ⟨children, hpattern, -⟩ := reads_rule.1 hread
    exact opens_of_wholeWord (by decide) hpattern
  · obtain ⟨⟨hw, hrest⟩, -⟩ := reads_identifier.1 hread
    exact .name hw hrest hnext
  · obtain ⟨children, hpattern, -⟩ := reads_rule.1 hread
    exact opens_of_text (.inr (by decide : '(' ∈ _)) hpattern

theorem opens_of_leading (h : rules.Reads leadingOperator pos w rest nodes) :
    Opens (w ++ rest) := by
  obtain ⟨q, hq, hread⟩ := h.of_anyOf
  simp only [List.mem_cons, List.not_mem_nil, or_false] at hq
  rcases hq with rfl | rfl
  · obtain ⟨children, hpattern, -⟩ := reads_rule.1 hread
    rcases reads_alt.1 hpattern with hsign | ⟨-, hword⟩
    · exact opens_of_text (.inl (by decide : '!' ∈ _)) hsign
    · exact opens_of_wholeWord (by decide) hword
  · obtain ⟨children, hpattern, -⟩ := reads_rule.1 hread
    exact opens_of_text (.inl (by decide : '-' ∈ _)) hpattern

theorem opens_of_expression (h : rules.Reads (.rule .expression) pos w rest nodes)
    (hsolid : rules.skip (w ++ rest) = w ++ rest) (hrest : rules.skip rest = []) :
    Opens (w ++ rest) := by
  obtain ⟨children, hread, -⟩ := reads_rule.1 h
  obtain ⟨front, _, _, _, rfl, -, hleading, hread⟩ := reads_seq.1 hread
  obtain ⟨gap, _, _, _, rfl, -, hlayout, hread⟩ := reads_seq.1 hread
  obtain ⟨text, links, _, _, rfl, -, hprimary, hlinks⟩ := reads_seq.1 hread
  rcases reads_many.1 hleading with ⟨-, rfl, -⟩ | ⟨first, more, _, _, rfl, -, hfirst, -⟩
  · obtain ⟨hskip, -⟩ := reads_layout.1 hlayout
    simp only [List.nil_append, List.append_assoc] at hsolid hskip hprimary ⊢
    rw [hsolid] at hskip
    obtain rfl : gap = [] := by simpa using hskip
    rw [List.nil_append]
    exact opens_of_primary hprimary (fails_assigned_of_links hlinks hrest)
  · have hopens := opens_of_leading hfirst
    simpa using hopens

/-! ## The other statements -/

/-- The words that a statement begins with. -/
def statementWords : List String :=
  ["if", "while", "for", "print_line", "print_value"]

theorem refuses_openers_of_word {c : Char} {tail : List Char} (hs : s = c :: tail)
    (hc : isWordStart c = true)
    (hwords : ∀ k ∈ statementWords, rules.Fails (wholeWord k) s)
    (hassignment : rules.Fails (.rule .assignment) s) : ∀ p ∈ openers, Refuses p s := by
  obtain ⟨hblank, hcomment⟩ := isBlank_of_isWordStart hc
  have hskip : rules.skip s = s := by
    rw [hs]
    exact skip_cons_of_solid hblank hcomment tail
  have htext : ∀ a, isWordStart a = false → Refuses (.text [a]) s := by
    intro a ha
    rw [Refuses, hskip, hs]
    exact fails_text_of_ne (ne_of_isWordStart hc ha)
  refine List.forall_mem_append.2 ⟨refuses_statementForms (htext _ rfl) fun k hk => ?_, ?_⟩
  · rw [Refuses, hskip]
    exact hwords k hk
  · simp only [List.forall_mem_cons, List.not_mem_nil, false_imp_iff, implies_true, and_true]
    refine ⟨?_, htext _ rfl⟩
    rwa [Refuses, hskip]

theorem IsIdentifier.fails_assignment (hw : IsIdentifier w) (hrest : Stops isWordChar rest)
    (hnext : rules.Fails assigned (rules.skip rest)) :
    rules.Fails (.rule .assignment) (w ++ rest) := by
  obtain ⟨gap, hgap⟩ := exists_gap rest
  have hlayout : rules.Reads .layout .start gap (rules.skip rest) [] :=
    reads_layout.2 ⟨by rw [← hgap], rfl⟩
  have hname : rules.Reads (.rule .identifier) .start w rest _ :=
    reads_identifier.2 ⟨⟨hw, hrest⟩, rfl⟩
  refine fails_rule.2 (fails_seq.2 (.inr ⟨.start, w, rest, _, rfl, hname, fails_seq.2 (.inr ?_)⟩))
  exact ⟨.start, gap, rules.skip rest, [], hgap, hlayout, hnext⟩

theorem Opens.refuses_openers (h : Opens s) : ∀ p ∈ openers, Refuses p s := by
  cases h with
  | @sign c tail hc =>
    intro p hp
    have hsolid : isBlank c = false ∧ c ≠ '#' := by
      simp only [List.mem_cons, List.not_mem_nil, or_false] at hc
      rcases hc with rfl | rfl | rfl <;> exact ⟨rfl, by decide⟩
    rw [Refuses, skip_cons_of_solid hsolid.1 hsolid.2]
    exact fails_openers_of_sign hc tail p hp
  | @plain c tail hc => exact (plain_cons hc tail).openers
  | @word k rest hk hrest =>
    have hkeyword : k ∈ keywords := by
      revert k
      decide
    have hmem : k.toList ∈ keywords.map String.toList := List.mem_map_of_mem hkeyword
    have hother : ∀ k' ∈ statementWords, k' ∈ keywords ∧ k.toList ≠ k'.toList := by
      revert k
      decide
    obtain ⟨c, tail, hhead, hc⟩ : ∃ c tail, k.toList = c :: tail ∧ isWordStart c = true := by
      simp only [List.mem_cons, List.not_mem_nil, or_false] at hk
      rcases hk with rfl | rfl | rfl | rfl <;> exact ⟨_, _, rfl, rfl⟩
    refine refuses_openers_of_word (by rw [hhead, List.cons_append]) hc (fun k' hk' => ?_) ?_
    · obtain ⟨hkeyword', hne⟩ := hother k' hk'
      exact fails_wholeWord_of_ne (isWordChar_of_mem_keyword hmem) hrest hkeyword' hne
    · exact fails_rule.2 (fails_seq.2 (.inl (fails_identifier_of_keyword hkeyword hrest)))
  | @name w rest hw hrest hnext =>
    have hassignment := hw.fails_assignment hrest hnext
    have hwords : ∀ k ∈ statementWords, rules.Fails (wholeWord k) (w ++ rest) := by
      have hkeywords : ∀ k ∈ statementWords, k ∈ keywords := by decide
      exact fun k hk => hw.fails_wholeWord hrest (hkeywords k hk)
    obtain ⟨c, tail, rfl, hc, -⟩ := hw
    exact refuses_openers_of_word rfl hc hwords hassignment

/-! ## One statement -/

/-- A whole expression is the only statement of its text. -/
theorem reads_statements_of_expression {text last : List Char} {e : Node Rule}
    (h : rules.Reads (.rule .expression) pos text last [e])
    (hsolid : rules.skip (text ++ last) = text ++ last) (hlast : rules.skip last = []) :
    rules.Reads (.many statement) pos (text ++ last) []
      [.mk .expressionStatement pos (pos.afterAll text) text [e]] := by
  have hforms : ∀ p ∈ statementForms ++ [.rule .assignment], rules.Fails p (text ++ last) := by
    intro p hp
    rw [← hsolid]
    refine (opens_of_expression h hsolid hlast).refuses_openers p ?_
    have happend : openers = statementForms ++ [.rule .assignment] ++ [.text ['=']] := rfl
    rw [happend]
    exact List.mem_append_left _ hp
  have hread : rules.Reads (.rule .expressionStatement) pos text last
      [.mk .expressionStatement pos (pos.afterAll text) text [e]] := reads_rule.2 ⟨[e], h, rfl⟩
  have hpart : rules.Reads
      (.anyOf (statementForms ++ [.rule .assignment] ++ [.rule .expressionStatement])) pos text last
      [.mk .expressionStatement pos (pos.afterAll text) text [e]] := reads_anyOf hread hforms
  have hstatement : rules.Reads statement pos (text ++ last) []
      [.mk .expressionStatement pos (pos.afterAll text) text [e]] := by
    refine reads_seq.2 ⟨text, last, _, [], rfl, rfl, by rwa [List.append_nil], ?_⟩
    refine reads_seq.2 ⟨last, [], [], [], by simp, rfl, reads_layout.2 ⟨by simpa, rfl⟩, ?_⟩
    exact reads_opt.2 (.inr ⟨fails_text.2 (by decide), rfl, rfl⟩)
  refine reads_many.2 (.inr ⟨text ++ last, [], _, [], by simp, rfl, hstatement, ?_⟩)
  exact reads_star.2 (.inl ⟨⟨60, rfl⟩, rfl, rfl⟩)

theorem reads_expression_of_part {node : Node Rule}
    (h : rules.Reads (.anyOf [.rule .block, .rule .ifStatement, .rule .whileStatement,
      .rule .forStatement, .rule .printStatement, .rule .assignment, .rule .expressionStatement])
      pos w rest [node])
    (hrule : node.rule = .expressionStatement) :
    ∃ e, rules.Reads (.rule .expression) pos w rest [e] ∧
      node = .mk .expressionStatement pos (pos.afterAll w) w [e] := by
  obtain ⟨q, hq, hread⟩ := h.of_anyOf
  simp only [List.mem_cons, List.not_mem_nil, or_false] at hq
  rcases hq with rfl | rfl | rfl | rfl | rfl | rfl | rfl
  case inr.inr.inr.inr.inr.inr =>
    obtain ⟨children, hchildren, hnode⟩ := hread.node rfl
    obtain ⟨parts, -, rfl⟩ := Reads.node hchildren rfl
    exact ⟨_, hchildren, (List.cons.inj hnode).1⟩
  all_goals
    obtain ⟨children, -, hnode⟩ := hread.node rfl
    obtain rfl := (List.cons.inj hnode).1
    cases hrule

/-- Behind an expression that is the last statement there is nothing or a semicolon. -/
theorem reads_expression_of_statement {node : Node Rule}
    (h : rules.Reads statement pos w rest [node]) (hrest : rules.skip rest = [])
    (hrule : node.rule = .expressionStatement) :
    ∃ front back e, w ++ rest = front ++ back ∧
      rules.Reads (.rule .expression) pos front back [e] ∧
      node = .mk .expressionStatement pos (pos.afterAll front) front [e] ∧
      (rules.skip back = [] ∨ ∃ behind, rules.skip back = ';' :: behind) := by
  obtain ⟨front, _, _, _, rfl, hnodes, hpart, htail⟩ := reads_seq.1 h
  obtain ⟨gap, mark, _, _, rfl, rfl, hlayout, hmark⟩ := reads_seq.1 htail
  obtain ⟨node', rfl, -⟩ := node_of_part hpart
  obtain ⟨rfl, -⟩ := List.cons.inj hnodes
  obtain ⟨hskip, -⟩ := reads_layout.1 hlayout
  obtain ⟨e, hread, hnode⟩ := reads_expression_of_part hpart hrule
  refine ⟨front, gap ++ mark ++ rest, e, by simp, hread, hnode, ?_⟩
  rw [List.append_assoc, hskip]
  rcases reads_opt.1 hmark with hmark | ⟨-, rfl, -⟩
  · obtain ⟨rfl, -⟩ := reads_text.1 hmark
    exact .inr ⟨rest, rfl⟩
  · exact .inl (@eq_nil_of_skip gap rest [] (by simpa using hskip) (by simpa using hrest))

theorem eq_nil_of_no_statements
    (h : rules.Reads (.star (.seq .layout statement)) pos w rest []) : w = [] := by
  rcases reads_star.1 h with ⟨-, rfl, -⟩ | ⟨_, _, _, _, -, hnodes, hround, -⟩
  · rfl
  · obtain ⟨_, _, _, _, -, rfl, -, hstatement⟩ := reads_seq.1 hround
    obtain ⟨_, _, _, rfl, -⟩ := ends_of_statement hstatement
    simp at hnodes

theorem reads_statement_of_statements {node : Node Rule}
    (h : rules.Reads (.many statement) pos w rest [node]) :
    rules.Reads statement pos w rest [node] := by
  rcases reads_many.1 h with ⟨-, -, hnil⟩ | ⟨first, more, _, _, rfl, hnodes, hfirst, hmore⟩
  · cases hnil
  · obtain ⟨node', _, _, rfl, -⟩ := ends_of_statement hfirst
    obtain ⟨rfl, rfl⟩ := List.cons.inj hnodes
    obtain rfl := eq_nil_of_no_statements hmore
    rwa [List.append_nil]

/-- The text is one expression with this node, layout before and behind it apart. -/
def IsSole (text : List Char) (e : Node Rule) : Prop :=
  ∃ gap inside last, text = gap ++ (inside ++ last) ∧ rules.skip text = inside ++ last ∧
    rules.skip last = [] ∧
    rules.Reads (.rule .expression) (Position.start.afterAll gap) inside last [e]

end Grammar

/-! ## Reading the text -/

section

variable {source : String} {node : Node Rule}

theorem Expr.parse_of_isSole (h : IsSole source.toList node) :
    Expr.parse source = readExpr node := by
  obtain ⟨gap, inside, last, htext, hskip, hlast, hread⟩ := h
  have hpattern := reads_entire.2 ⟨gap, inside, last, [node], htext, hskip, hlast, hread, rfl⟩
  have hwhole : rules.Reads (.rule .soleExpression) .start source.toList [] _ :=
    reads_rule.2 ⟨_, hpattern, rfl⟩
  rw [Expr.parse, nodeOf_of_reads hwhole]
  rfl

theorem isSole_of_nodeOf (h : nodeOf .soleExpression source.toList = .ok node) :
    ∃ e, IsSole source.toList e := by
  obtain ⟨children, hread, -⟩ := (reads_whole (.inr rfl) h).node rfl
  obtain ⟨gap, inside, last, _, htext, hskip, hlast, hread, -⟩ := reads_entire.1 hread
  obtain ⟨children, -, rfl⟩ := hread.node rfl
  exact ⟨_, gap, inside, last, htext, hskip, hlast, hread⟩

theorem nodeOf_error {rule : Rule} {text : List Char} {e : ParseError}
    (h : nodeOf rule text = .error e) : e = mismatch rule text := by
  unfold nodeOf at h
  split at h
  · split at h
    · cases h
    · exact (Except.error.inj h).symm
  · exact (Except.error.inj h).symm

/-- What is read from a text, if it is not a mismatch, is read from its only expression. -/
theorem Expr.exists_isSole {r : Except ParseError Expr} (h : Expr.parse source = r)
    (hr : ∀ region reason, r ≠ .error (.mismatch region reason)) :
    ∃ e, IsSole source.toList e ∧ readExpr e = r := by
  cases hnode : nodeOf .soleExpression source.toList with
  | ok node =>
    obtain ⟨e, he⟩ := isSole_of_nodeOf hnode
    exact ⟨e, he, (Expr.parse_of_isSole he).symm.trans h⟩
  | error error =>
    rw [Expr.parse, hnode, nodeOf_error hnode] at h
    exact absurd h.symm (hr _ _)

theorem Program.parse_of_isSole (h : IsSole source.toList node) (file : Option String) :
    ∃ front back span, source.toList = front ++ back ∧ rules.skip back = [] ∧
      span.stop = byteLength front ∧ Program.parse source file = (readExpr node).map fun e =>
        ⟨[.expression e span], file, .between .start (Position.start.afterAll source.toList)⟩ := by
  obtain ⟨gap, inside, last, htext, hskip, hlast, hread⟩ := h
  have hsolid : rules.skip (inside ++ last) = inside ++ last := by
    rw [← hskip, skip_skip, hskip]
  have hstatements := reads_statements_of_expression hread hsolid hlast
  have hpattern := reads_program.2 ⟨gap, inside ++ last, [], _, by simpa using htext,
    by simpa using hskip, rfl, hstatements, rfl⟩
  have hwhole : rules.Reads (.rule .program) .start source.toList [] _ :=
    reads_rule.2 ⟨_, hpattern, rfl⟩
  have hparse := parse_eq_of_nodeOf (nodeOf_of_reads hwhole) (by simp [Node.rule]) rfl file
  refine ⟨gap ++ inside, last, .between (Position.start.afterAll gap)
    ((Position.start.afterAll gap).afterAll inside), by simpa using htext, hlast, ?_,
    hparse.trans ?_⟩
  · simp only [Span.between, Position.offset_afterAll, byteLength_append, Position.start,
      Nat.zero_add]
  · cases hvalue : readExpr node <;>
      simp [readStatements, readStatement, hvalue, bind, Except.bind, pure, Except.pure, Except.map]

theorem Program.endsInSemicolon_iff {p : Program} {e : Expr} {span : Span}
    {front back : List Char} (hp : p.statements = [.expression e span])
    (hsource : source.toList = front ++ back) (hstop : span.stop = byteLength front) :
    p.EndsInSemicolon source ↔ ∃ behind, rules.skip back = ';' :: behind := by
  constructor
  · intro h
    obtain ⟨front', gap, behind, hsource', hstop', hgap⟩ := h (.expression e span) (by simp [hp])
    obtain ⟨-, rfl⟩ := append_inj_of_byteLength (hsource.symm.trans hsource')
      (hstop.symm.trans hstop'.symm)
    exact ⟨behind, hgap.skip rfl⟩
  · rintro ⟨behind, hskip⟩ last hlast
    obtain rfl : Statement.expression e span = last := by simpa [hp] using hlast
    obtain ⟨gap, hgap⟩ := exists_gap back
    rw [hskip] at hgap
    rw [hgap] at hskip hsource
    exact ⟨front, gap, behind, hsource, hstop.symm, isClosedLayout_of_skip hskip⟩

theorem readStatement_expression {e : Expr} {span : Span}
    (h : readStatement node = .ok (.expression e span)) :
    ∃ start stop text value, node = .mk .expressionStatement start stop text [value] ∧
      readExpr value = .ok e := by
  cases readStatement_eq_ok.1 h with
  | expression hvalue => exact ⟨_, _, _, _, rfl, hvalue⟩

theorem exists_node_of_readStatements {nodes : List (Node Rule)} {s : Statement}
    (h : readStatements nodes = .ok [s]) : ∃ node, nodes = [node] ∧ readStatement node = .ok s := by
  obtain ⟨node, rfl⟩ : ∃ node, nodes = [node] := by
    have hlength := congrArg List.length (readStatements_spans h)
    rw [List.length_map, List.length_map] at hlength
    exact List.length_eq_one_iff.1 hlength.symm
  obtain ⟨s', _, hread, -, hs⟩ := readStatements_cons_eq_ok.1 h
  cases hs
  exact ⟨node, rfl, hread⟩

theorem Program.exists_isSole {file : Option String} {p : Program} {e : Expr} {span : Span}
    (h : Program.parse source file = .ok p) (hp : p.statements = [.expression e span])
    (hopen : ¬ p.EndsInSemicolon source) :
    ∃ value, IsSole source.toList value ∧ readExpr value = .ok e := by
  obtain ⟨nodes, last, hread, hstatements, -⟩ := Program.reads_of_parse h
  obtain ⟨gap, text, last, nodes, htext, hskip, hlast, hmany, heq⟩ := reads_program.1 hread
  obtain ⟨rfl, -⟩ := List.append_inj' heq rfl
  rw [hp] at hstatements
  obtain ⟨node, rfl, hnode⟩ := exists_node_of_readStatements hstatements
  obtain ⟨start, stop, inside, value, rfl, hvalue⟩ := readStatement_expression hnode
  obtain ⟨front, back, value', happend, hexpression, heq, hback⟩ :=
    reads_expression_of_statement (reads_statement_of_statements hmany) hlast rfl
  cases heq
  rcases hback with hback | hsemicolon
  · exact ⟨value, ⟨gap, inside, back, by rw [htext, happend], hskip.trans happend, hback,
      hexpression⟩, hvalue⟩
  · have hsource : source.toList = gap ++ inside ++ back := by
      rw [htext, happend, List.append_assoc]
    have hstop : span.stop = byteLength (gap ++ inside) := by
      have hspan : span = _ := readStatement_span hnode
      simp only [hspan, spanOf, Node.stop, Span.between, Position.offset_afterAll,
        byteLength_append, Position.start, Nat.zero_add]
    exact absurd ((Program.endsInSemicolon_iff hp hsource hstop).2 hsemicolon) hopen

end

/-- A text is read as an expression exactly if it is read as a program of this expression alone,
without a semicolon behind it; and an integer that is out of range is reported the same. -/
theorem Expr.parse_agrees_program (source : String) (file : Option String) :
    (∀ e, Expr.parse source = .ok e ↔ ∃ p span, Program.parse source file = .ok p ∧
      p.statements = [.expression e span] ∧ ¬ p.EndsInSemicolon source) ∧
    (∀ region found, Expr.parse source = .error (.integerRange region found) →
      Program.parse source file = .error (.integerRange region found)) ∧
    ∀ p e span, Program.parse source file = .ok p → p.statements = [.expression e span] →
      (∀ front back, source.toList = front ++ back → byteLength front = span.stop → ';' ∉ back) →
        Expr.parse source = .ok e := by
  have hsole : ∀ p e span, Program.parse source file = .ok p →
      p.statements = [.expression e span] → ¬ p.EndsInSemicolon source →
        Expr.parse source = .ok e := by
    intro p e span hparse hp hopen
    obtain ⟨node, hnode, hread⟩ := Program.exists_isSole hparse hp hopen
    rw [Expr.parse_of_isSole hnode, hread]
  refine ⟨fun e => ⟨fun h => ?_, ?_⟩, fun region found h => ?_, fun p e span hparse hp hback => ?_⟩
  · obtain ⟨node, hnode, hread⟩ := Expr.exists_isSole h (by simp)
    obtain ⟨front, back, span, hsource, hback, hstop, hparse⟩ := Program.parse_of_isSole hnode file
    rw [hread] at hparse
    refine ⟨_, span, hparse, rfl, fun hends => ?_⟩
    obtain ⟨behind, hbehind⟩ := (Program.endsInSemicolon_iff rfl hsource hstop).1 hends
    rw [hback] at hbehind
    cases hbehind
  · rintro ⟨p, span, hparse, hp, hopen⟩
    exact hsole p e span hparse hp hopen
  · obtain ⟨node, hnode, hread⟩ := Expr.exists_isSole h (by simp)
    obtain ⟨_, _, _, -, -, -, hparse⟩ := Program.parse_of_isSole hnode file
    rw [hparse, hread]
    rfl
  · refine hsole p e span hparse hp fun hends => ?_
    obtain ⟨front, gap, behind, hsource, hstop, -⟩ := hends (.expression e span) (by simp [hp])
    exact hback front _ hsource hstop (by simp)

def errorOf? {α : Type} : Except ParseError α → Option ParseError
  | .ok _ => none
  | .error e => some e

theorem eq_error_of_errorOf? {α : Type} {r : Except ParseError α} {e : ParseError}
    (h : errorOf? r = some e) : r = .error e := by
  cases r with
  | ok a => cases h
  | error e' => rw [Option.some.inj h]

/-- The first word begins like a keyword, and the comment ends in a semicolon. -/
theorem parse_agrees_program_printer : ∃ e p span,
    Expr.parse "printer == -1 # ;" = .ok e ∧ Program.parse "printer == -1 # ;" none = .ok p ∧
      p.statements = [.expression e span] ∧
      Expr.parse "printer*9223372036854775808" =
        .error (.integerRange ⟨8, 19⟩ "9223372036854775808") ∧
      Program.parse "printer*9223372036854775808" none =
        .error (.integerRange ⟨8, 19⟩ "9223372036854775808") := by
  have hread : (Expr.parse "printer == -1 # ;").isOk = true := by decide +kernel
  have hrange : Expr.parse "printer*9223372036854775808" =
      .error (.integerRange ⟨8, 19⟩ "9223372036854775808") :=
    eq_error_of_errorOf? (by decide +kernel)
  cases hparse : Expr.parse "printer == -1 # ;" with
  | error e => simp [hparse, Except.isOk, Except.toBool] at hread
  | ok e =>
    obtain ⟨p, span, hprogram, hp, -⟩ :=
      ((Expr.parse_agrees_program "printer == -1 # ;" none).1 e).1 hparse
    exact ⟨e, p, span, rfl, hprogram, hp, hrange,
      (Expr.parse_agrees_program "printer*9223372036854775808" none).2.1 _ _ hrange⟩

end BlockScript
