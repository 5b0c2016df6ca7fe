import BlockScript.Grammar.Rules
import BlockScript.Proofs.Peg.Shape

/-!
# The children of every node

Each rule of the grammar leaves nodes of certain rules below its own, in a certain order.  The
readers of trees rely on it.
-/

namespace BlockScript.Grammar

open Peg (Node Pattern)
open Peg.Grammar

variable {start stop : Position} {text : List Char} {children : List (Node Rule)}

/-- The rules of the nodes that are operands of an expression. -/
def operandRules : List Rule :=
  [.compoundAssignment, .preIncrement, .preDecrement, .postIncrement, .postDecrement, .float,
    .integer, .string, .boolean, .nilWord, .identifier, .parenthesized]

def stepRules : List Rule :=
  [.preIncrement, .preDecrement, .postIncrement, .postDecrement]

def updateRules : List Rule :=
  [.addAssign, .subtractAssign, .multiplyAssign, .divideAssign, .moduloAssign]

def statementRules : List Rule :=
  [.block, .ifStatement, .whileStatement, .forStatement, .printStatement, .assignment,
    .expressionStatement]

theorem hidden_of_mem_names (rule : Rule) : ∀ name ∈ (pattern rule).names, hidden name = false := by
  cases rule <;> decide

theorem rule_mem_names {rule : Rule} (h : rules.Produced (.mk rule start stop text children)) :
    ∀ child ∈ children, child.rule ∈ (pattern rule).names := by
  intro child hchild
  exact h.yields.mem_names (hidden_of_mem_names rule) child.rule (List.mem_map_of_mem hchild)

/-- The rules of the children are one of the words of the pattern. -/
theorem mem_words_of_produced {rule : Rule} (words : List (List Rule))
    (hwords : (pattern rule).words? hidden = some words)
    (h : rules.Produced (.mk rule start stop text children)) :
    children.map Node.rule ∈ words :=
  h.yields.mem_words words hwords

theorem yields_rule {rule : Rule} {word : List Rule} (hrule : hidden rule = false)
    (h : rules.Yields (.rule rule) word) : word = [rule] :=
  h.resolve_left (by simp [rules, hrule])

theorem yields_primary {word : List Rule} (h : rules.Yields primary word) :
    ∃ rule ∈ operandRules, word = [rule] := by
  have hword := h.mem_words (operandRules.map fun rule => [rule]) rfl
  obtain ⟨rule, hrule, rfl⟩ := List.mem_map.1 hword
  exact ⟨rule, hrule, rfl⟩

theorem yields_statement {word : List Rule} (h : rules.Yields statement word) :
    ∃ rule ∈ statementRules, word = [rule] := by
  have hword := h.mem_words (statementRules.flatMap fun rule => [[rule], [rule]]) rfl
  obtain ⟨rule, hrule, hword⟩ := List.mem_flatMap.1 hword
  exact ⟨rule, hrule, by simpa using hword⟩

/-- The rules in a repetition of one node each. -/
theorem forall_mem_of_rounds {p : Pattern Rule} {word : List Rule} (all : List Rule)
    (hp : ∀ part, rules.Yields p part → ∃ rule ∈ all, part = [rule])
    (h : rules.Yields (.many p) word) : ∀ rule ∈ word, rule ∈ all := by
  obtain ⟨parts, hparts, rfl⟩ := h.rounds
  intro rule hrule
  obtain ⟨part, hpart, hmem⟩ := List.mem_flatten.1 hrule
  obtain ⟨only, honly, rfl⟩ := hp part (hparts part hpart)
  rwa [List.mem_singleton.1 hmem]

/-! ## Nodes with given rules -/

variable {nodes : List (Node Rule)}

theorem exists_pair {a b : Rule} (h : nodes.map Node.rule = [a, b]) :
    ∃ x y, nodes = [x, y] ∧ x.rule = a ∧ y.rule = b := by
  obtain ⟨x, _, rfl, hx, hrest⟩ := List.map_eq_cons_iff.1 h
  obtain ⟨y, rfl, hy⟩ := List.map_eq_singleton_iff.1 hrest
  exact ⟨x, y, rfl, hx, hy⟩

theorem exists_triple {a b c : Rule} (h : nodes.map Node.rule = [a, b, c]) :
    ∃ x y z, nodes = [x, y, z] ∧ x.rule = a ∧ y.rule = b ∧ z.rule = c := by
  obtain ⟨x, _, rfl, hx, hrest⟩ := List.map_eq_cons_iff.1 h
  obtain ⟨y, z, rfl, hy, hz⟩ := exists_pair hrest
  exact ⟨x, y, z, rfl, hx, hy, hz⟩

/-! ## Operands -/

theorem children_of_boolean (h : rules.Produced (.mk .boolean start stop text children)) :
    ∃ word, children = [word] ∧ (word.rule = .trueWord ∨ word.rule = .falseWord) := by
  have hword := mem_words_of_produced [[.trueWord], [.falseWord]] rfl h
  simp only [List.mem_cons, List.not_mem_nil, or_false, List.map_eq_singleton_iff] at hword
  rcases hword with ⟨word, rfl, hrule⟩ | ⟨word, rfl, hrule⟩
  · exact ⟨word, rfl, .inl hrule⟩
  · exact ⟨word, rfl, .inr hrule⟩

theorem children_of_parenthesized
    (h : rules.Produced (.mk .parenthesized start stop text children)) :
    ∃ inner, children = [inner] ∧ inner.rule = .expression := by
  simpa using mem_words_of_produced [[.expression]] rfl h

theorem children_of_step {rule : Rule} (hrule : rule ∈ stepRules)
    (h : rules.Produced (.mk rule start stop text children)) :
    ∃ target, children = [target] ∧ target.rule = .identifier := by
  simp only [stepRules, List.mem_cons, List.not_mem_nil, or_false] at hrule
  rcases hrule with rfl | rfl | rfl | rfl <;>
    simpa using mem_words_of_produced [[.identifier]] rfl h

theorem children_of_compoundAssignment
    (h : rules.Produced (.mk .compoundAssignment start stop text children)) :
    ∃ target op value, children = [target, op, value] ∧ target.rule = .identifier ∧
      op.rule ∈ updateRules ∧ value.rule = .expression := by
  have hword := mem_words_of_produced
    (updateRules.map fun op => [.identifier, op, .expression]) rfl h
  obtain ⟨rule, hrule, hword⟩ := List.mem_map.1 hword
  obtain ⟨target, op, value, rfl, htarget, rfl, hvalue⟩ := exists_triple hword.symm
  exact ⟨target, op, value, rfl, htarget, hrule, hvalue⟩

/-! ## Statements -/

theorem children_of_assignment (h : rules.Produced (.mk .assignment start stop text children)) :
    ∃ target value, children = [target, value] ∧ target.rule = .identifier ∧
      value.rule = .expression := by
  exact exists_pair (List.mem_singleton.1
    (mem_words_of_produced [[.identifier, .expression]] rfl h))

theorem children_of_printStatement
    (h : rules.Produced (.mk .printStatement start stop text children)) :
    ∃ mode value, children = [mode, value] ∧
      (mode.rule = .printLineWord ∨ mode.rule = .printValueWord) ∧ value.rule = .expression := by
  have hword := mem_words_of_produced
    ([.printLineWord, .printValueWord].map fun word => [word, .expression]) rfl h
  obtain ⟨word, hmem, hword⟩ := List.mem_map.1 hword
  obtain ⟨mode, value, rfl, rfl, hvalue⟩ := exists_pair hword.symm
  exact ⟨mode, value, rfl, by simpa using hmem, hvalue⟩

theorem children_of_expressionStatement
    (h : rules.Produced (.mk .expressionStatement start stop text children)) :
    ∃ value, children = [value] ∧ value.rule = .expression := by
  simpa using mem_words_of_produced [[.expression]] rfl h

theorem children_of_block (h : rules.Produced (.mk .block start stop text children)) :
    ∀ child ∈ children, child.rule ∈ statementRules := by
  obtain ⟨_, rfl, _, ⟨_, rfl, _, ⟨_, hstatements, _, ⟨_, rfl, _, rfl, rfl⟩, rfl⟩, rfl⟩, hword⟩ :=
    h.yields
  simp only [List.nil_append, List.append_nil] at hword
  have hall := forall_mem_of_rounds _ (fun _ => yields_statement) hstatements
  rw [← hword] at hall
  exact fun child hchild => hall child.rule (List.mem_map_of_mem hchild)

theorem children_of_whileStatement
    (h : rules.Produced (.mk .whileStatement start stop text children)) :
    ∃ word condition body, children = [word, condition, body] ∧ word.rule = .whileWord ∧
      condition.rule = .expression ∧ body.rule = .block := by
  exact exists_triple (List.mem_singleton.1
    (mem_words_of_produced [[.whileWord, .expression, .block]] rfl h))

theorem children_of_forStatement
    (h : rules.Produced (.mk .forStatement start stop text children)) :
    ∃ word init condition update body, children = word :: (init ++ [condition, update, body]) ∧
      word.rule = .forWord ∧ (init = [] ∨ ∃ a, init = [a] ∧ a.rule = .assignment) ∧
      condition.rule = .expression ∧ update.rule = .expression ∧ body.rule = .block := by
  have hword := mem_words_of_produced ([[.assignment], []].map fun init =>
    .forWord :: (init ++ [.expression, .expression, .block])) rfl h
  obtain ⟨before, hbefore, hword⟩ := List.mem_map.1 hword
  obtain ⟨word, _, rfl, hfor, hrest⟩ := List.map_eq_cons_iff.1 hword.symm
  obtain ⟨init, _, rfl, rfl, hlast⟩ := List.map_eq_append_iff.1 hrest
  obtain ⟨condition, update, body, rfl, hparts⟩ := exists_triple hlast
  refine ⟨word, init, condition, update, body, rfl, hfor, ?_, hparts⟩
  simp only [List.mem_cons, List.not_mem_nil, or_false, List.map_eq_singleton_iff,
    List.map_eq_nil_iff] at hbefore
  exact hbefore.symm

/-! ## Conditionals -/

theorem children_of_ifStatement
    (h : rules.Produced (.mk .ifStatement start stop text children)) :
    ∃ first others last, children = first :: (others ++ last) ∧ first.rule = .ifClause ∧
      (∀ clause ∈ others, clause.rule = .elifClause) ∧
      (last = [] ∨ ∃ clause, last = [clause] ∧ clause.rule = .elseClause) := by
  obtain ⟨_, hfirst, _, ⟨_, rfl, _, ⟨_, hothers, _, ⟨_, rfl, _, hlast, rfl⟩, rfl⟩, rfl⟩, hword⟩ :=
    h.yields
  obtain rfl := yields_rule rfl hfirst
  simp only [List.nil_append, List.cons_append] at hword
  obtain ⟨first, _, rfl, hfirst, hrest⟩ := List.map_eq_cons_iff.1 hword
  obtain ⟨others, last, rfl, rfl, rfl⟩ := List.map_eq_append_iff.1 hrest
  refine ⟨first, others, last, rfl, hfirst, ?_, ?_⟩
  · have hall := forall_mem_of_rounds [.elifClause]
      (fun part hpart => ⟨_, List.mem_singleton.2 rfl, yields_rule rfl hpart⟩) hothers
    simpa using hall
  · rcases hlast with hlast | hlast
    · exact .inr (List.map_eq_singleton_iff.1 (yields_rule rfl hlast))
    · exact .inl (List.map_eq_nil_iff.1 hlast)

/-- A clause with a condition begins with one word or two. -/
theorem children_of_clause {rule : Rule} (hrule : rule = .ifClause ∨ rule = .elifClause)
    (h : rules.Produced (.mk rule start stop text children)) :
    ∃ words condition body, children = words ++ [condition, body] ∧
      words.map Node.rule ∈ [[Rule.ifWord], [.elifWord], [.elseWord, .ifWord]] ∧
      condition.rule = .expression ∧ body.rule = .block := by
  have hword : ∃ words ∈ [[Rule.ifWord], [.elifWord], [.elseWord, .ifWord]],
      children.map Node.rule = words ++ [.expression, .block] := by
    rcases hrule with rfl | rfl
    · have hword := mem_words_of_produced [[.ifWord, .expression, .block]] rfl h
      exact ⟨[.ifWord], by simp, List.mem_singleton.1 hword⟩
    · have hword := mem_words_of_produced
        ([[.elifWord], [.elseWord, .ifWord]].map (· ++ [.expression, .block])) rfl h
      obtain ⟨words, hmem, hword⟩ := List.mem_map.1 hword
      exact ⟨words, List.mem_cons_of_mem _ hmem, hword.symm⟩
  obtain ⟨before, hbefore, hword⟩ := hword
  obtain ⟨words, _, rfl, rfl, hlast⟩ := List.map_eq_append_iff.1 hword
  obtain ⟨condition, body, rfl, hparts⟩ := exists_pair hlast
  exact ⟨words, condition, body, rfl, hbefore, hparts⟩

theorem children_of_elseClause (h : rules.Produced (.mk .elseClause start stop text children)) :
    ∃ word body, children = [word, body] ∧ word.rule = .elseWord ∧ body.rule = .block := by
  exact exists_pair (List.mem_singleton.1 (mem_words_of_produced [[.elseWord, .block]] rfl h))

/-! ## Whole texts -/

theorem children_of_program (h : rules.Produced (.mk .program start stop text children)) :
    ∃ statements last, children = statements ++ [last] ∧
      (∀ node ∈ statements, node.rule ∈ statementRules) ∧ last.rule = .endOfInput := by
  obtain ⟨_, rfl, _, ⟨_, hstatements, _, ⟨_, rfl, _, hlast, rfl⟩, rfl⟩, hword⟩ := h.yields
  obtain rfl := yields_rule rfl hlast
  simp only [List.nil_append] at hword
  obtain ⟨statements, _, rfl, rfl, hend⟩ := List.map_eq_append_iff.1 hword
  obtain ⟨last, rfl, hlast⟩ := List.map_eq_singleton_iff.1 hend
  have hall := forall_mem_of_rounds _ (fun _ => yields_statement) hstatements
  exact ⟨statements, last, rfl, fun node hnode => hall node.rule (List.mem_map_of_mem hnode), hlast⟩

theorem children_of_soleExpression
    (h : rules.Produced (.mk .soleExpression start stop text children)) :
    ∃ e last, children = [e, last] ∧ e.rule = .expression ∧ last.rule = .endOfInput := by
  exact exists_pair (List.mem_singleton.1
    (mem_words_of_produced [[.expression, .endOfInput]] rfl h))

end BlockScript.Grammar
