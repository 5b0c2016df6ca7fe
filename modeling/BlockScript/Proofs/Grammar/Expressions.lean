import BlockScript.Proofs.Grammar.Tokens

/-!
# How an expression ends

An expression takes as many operators with their operands as follow.  A compound assignment ends
with an expression, so nothing can follow it in a chain: it is the last node of every expression
that it stands in without parentheses.
-/

namespace BlockScript.Grammar

open Peg.Grammar

variable {pos : Position} {w rest : List Char} {nodes : List (Peg.Node Rule)}

/-- A binary operator with its right operand. -/
def link : Peg.Pattern Rule :=
  .phrase (binaryOperator :: operand)

theorem fails_link_of_star (h : rules.Reads (.star (.seq .layout link)) pos w rest nodes) :
    rules.Fails link (rules.skip rest) := by
  rcases fails_seq.1 h.star_fails with hlayout | ⟨_, gap, s, _, rfl, hlayout, hlink⟩
  · exact absurd hlayout not_fails_layout
  · rwa [(reads_layout.1 hlayout).1]

/-- No operator with an operand follows an expression. -/
theorem fails_link_of_expression (h : rules.Reads (.rule .expression) pos w rest nodes) :
    rules.Fails link (rules.skip rest) := by
  obtain ⟨children, hread, -⟩ := reads_rule.1 h
  obtain ⟨_, _, _, _, rfl, rfl, -, hread⟩ := reads_seq.1 hread
  obtain ⟨_, _, _, _, rfl, rfl, -, hread⟩ := reads_seq.1 hread
  obtain ⟨_, _, _, _, rfl, rfl, -, hread⟩ := reads_seq.1 hread
  obtain ⟨_, _, _, _, rfl, rfl, hlayout, hlinks⟩ := reads_seq.1 hread
  rcases reads_many.1 hlinks with ⟨hfails, rfl, -⟩ | ⟨_, _, _, _, rfl, -, -, hmore⟩
  · -- the layout before the links that are not there is already skipped
    obtain ⟨hskip, -⟩ := reads_layout.1 hlayout
    rw [List.nil_append] at hskip
    rw [← hskip, skip_skip, hskip]
    exact hfails
  · exact fails_link_of_star hmore

theorem fails_link_of_compoundAssignment
    (h : rules.Reads (.rule .compoundAssignment) pos w rest nodes) :
    rules.Fails link (rules.skip rest) := by
  obtain ⟨children, hread, -⟩ := reads_rule.1 h
  obtain ⟨_, _, _, _, rfl, rfl, -, hread⟩ := reads_seq.1 hread
  obtain ⟨_, _, _, _, rfl, rfl, -, hread⟩ := reads_seq.1 hread
  obtain ⟨_, _, _, _, rfl, rfl, -, hread⟩ := reads_seq.1 hread
  obtain ⟨_, _, _, _, rfl, rfl, -, hvalue⟩ := reads_seq.1 hread
  exact fails_link_of_expression hvalue

/-! ## The nodes of a chain -/

/-- The node may have others behind it in a chain. -/
def Precedes (node _ : Peg.Node Rule) : Prop :=
  node.rule ≠ .compoundAssignment

/-- Nodes of which only the last can be a compound assignment, and then no link follows. -/
def EndsChain (nodes : List (Peg.Node Rule)) (rest : List Char) : Prop :=
  ∃ front last, nodes = front ++ [last] ∧ (∀ node ∈ front, node.rule ≠ .compoundAssignment) ∧
    (last.rule = .compoundAssignment → rules.Fails link (rules.skip rest))

theorem EndsChain.precedes (h : EndsChain nodes rest) : nodes.Pairwise Precedes := by
  obtain ⟨front, last, rfl, hfront, -⟩ := h
  refine List.pairwise_append.2 ⟨?_, by simp, fun a ha _ _ => hfront a ha⟩
  exact List.Pairwise.imp_of_mem (fun ha _ _ => hfront _ ha)
    (List.pairwise_of_forall fun _ _ => trivial)

theorem endsChain_of_primary (h : rules.Reads primary pos w rest nodes) : EndsChain nodes rest := by
  obtain ⟨p, hp, hread⟩ := h.of_anyOf
  simp only [List.mem_cons, List.not_mem_nil, or_false] at hp
  rcases hp with rfl | rfl | rfl | rfl | rfl | rfl | rfl | rfl | rfl | rfl | rfl | rfl
  · obtain ⟨children, -, rfl⟩ := hread.node rfl
    exact ⟨[], _, rfl, by simp, fun _ => fails_link_of_compoundAssignment hread⟩
  all_goals
    obtain ⟨children, -, rfl⟩ := hread.node rfl
    exact ⟨[], _, rfl, by simp, fun hrule => by cases hrule⟩

theorem leadingOperator_nodes (h : rules.Reads leadingOperator pos w rest nodes) :
    ∀ node ∈ nodes, node.rule ≠ .compoundAssignment := by
  obtain ⟨p, hp, hread⟩ := h.of_anyOf
  simp only [List.mem_cons, List.not_mem_nil, or_false] at hp
  rcases hp with rfl | rfl
  all_goals
    obtain ⟨children, -, rfl⟩ := hread.node rfl
    simp [Peg.Node.rule]

theorem binaryOperator_nodes (h : rules.Reads binaryOperator pos w rest nodes) :
    ∀ node ∈ nodes, node.rule ≠ .compoundAssignment := by
  obtain ⟨p, hp, hread⟩ := h.of_anyOf
  simp only [List.mem_cons, List.not_mem_nil, or_false] at hp
  rcases hp with rfl | rfl | rfl | rfl | rfl | rfl | rfl | rfl | rfl | rfl | rfl | rfl | rfl
  all_goals
    obtain ⟨children, -, rfl⟩ := hread.node rfl
    simp [Peg.Node.rule]

theorem EndsChain.append_left {front : List (Peg.Node Rule)} (h : EndsChain nodes rest)
    (hfront : ∀ node ∈ front, node.rule ≠ .compoundAssignment) :
    EndsChain (front ++ nodes) rest := by
  obtain ⟨before, last, rfl, hbefore, hlast⟩ := h
  exact ⟨front ++ before, last, by simp, List.forall_mem_append.2 ⟨hfront, hbefore⟩, hlast⟩

theorem endsChain_of_link (h : rules.Reads link pos w rest nodes) : EndsChain nodes rest := by
  obtain ⟨_, _, _, _, rfl, rfl, hop, hread⟩ := reads_seq.1 h
  obtain ⟨_, _, _, _, rfl, rfl, hlayout, hread⟩ := reads_seq.1 hread
  obtain ⟨_, _, _, _, rfl, rfl, hleading, hread⟩ := reads_seq.1 hread
  obtain ⟨_, _, _, _, rfl, rfl, hlayout', hprimary⟩ := reads_seq.1 hread
  rw [(reads_layout.1 hlayout).2, (reads_layout.1 hlayout').2, List.nil_append, List.nil_append]
  have hoperand := (endsChain_of_primary hprimary).append_left
    (hleading.forall_many fun _ _ _ _ => leadingOperator_nodes)
  exact hoperand.append_left (binaryOperator_nodes hop)

theorem star_link_eq_nil (h : rules.Reads (.star (.seq .layout link)) pos w rest nodes)
    (hfails : rules.Fails link (rules.skip (w ++ rest))) : nodes = [] := by
  rcases reads_star.1 h with ⟨-, -, rfl⟩ | ⟨_, back, _, _, rfl, rfl, hread, -⟩
  · rfl
  · obtain ⟨gap, text, _, _, rfl, rfl, hlayout, hlink⟩ := reads_seq.1 hread
    have hskip : rules.skip (gap ++ text ++ back ++ rest) = text ++ (back ++ rest) := by
      simpa using (reads_layout.1 hlayout).1
    rw [hskip] at hfails
    exact absurd hfails hlink.not_fails

theorem EndsChain.precedes_append {back : List (Peg.Node Rule)} (h : EndsChain nodes rest)
    (hback : back.Pairwise Precedes) (hnil : rules.Fails link (rules.skip rest) → back = []) :
    (nodes ++ back).Pairwise Precedes := by
  by_cases hempty : back = []
  · rw [hempty, List.append_nil]
    exact h.precedes
  · refine List.pairwise_append.2 ⟨h.precedes, hback, fun a ha _ _ => ?_⟩
    obtain ⟨front, last, rfl, hfront, hlast⟩ := h
    rcases List.mem_append.1 ha with ha | ha
    · exact hfront a ha
    · rw [List.mem_singleton.1 ha]
      exact fun hrule => hempty (hnil (hlast hrule))

theorem star_link_precedes (h : rules.Reads (.star (.seq .layout link)) pos w rest nodes) :
    nodes.Pairwise Precedes := by
  apply h.star_induction (motive := fun _ _ nodes => nodes.Pairwise Precedes)
  · simp
  · intro pos front back before behind hread hmore ih
    obtain ⟨_, _, _, _, -, rfl, hlayout, hlink⟩ := reads_seq.1 hread
    rw [(reads_layout.1 hlayout).2, List.nil_append]
    exact (endsChain_of_link hlink).precedes_append ih (star_link_eq_nil hmore)

/-- In an expression only the last node can be a compound assignment. -/
theorem precedes_of_expression (h : rules.Reads (rules.pattern .expression) pos w rest nodes) :
    nodes.Pairwise Precedes := by
  obtain ⟨_, _, _, _, rfl, rfl, hleading, hread⟩ := reads_seq.1 h
  obtain ⟨_, _, _, _, rfl, rfl, hlayout, hread⟩ := reads_seq.1 hread
  obtain ⟨_, _, _, _, rfl, rfl, hprimary, hread⟩ := reads_seq.1 hread
  obtain ⟨gap, links, _, _, rfl, rfl, hlayout', hlinks⟩ := reads_seq.1 hread
  rw [(reads_layout.1 hlayout).2, (reads_layout.1 hlayout').2, List.nil_append, List.nil_append,
    ← List.append_assoc]
  have hoperand := (endsChain_of_primary hprimary).append_left
    (hleading.forall_many fun _ _ _ _ => leadingOperator_nodes)
  have hskip : rules.skip (gap ++ links ++ rest) = links ++ rest := by
    simpa using (reads_layout.1 hlayout').1
  rcases reads_many.1 hlinks with ⟨-, -, rfl⟩ | ⟨_, _, _, _, rfl, rfl, hlink, hmore⟩
  · exact hoperand.precedes_append .nil fun _ => rfl
  · refine hoperand.precedes_append ?_ fun hfails => ?_
    · exact (endsChain_of_link hlink).precedes_append (star_link_precedes hmore)
        (star_link_eq_nil hmore)
    · rw [hskip, List.append_assoc] at hfails
      exact absurd hfails hlink.not_fails

end BlockScript.Grammar
