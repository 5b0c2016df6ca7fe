import BlockScript.Proofs.Grammar.Phrases

/-!
# Terminals in front of blanks

What the terminals of the grammar do at a token that a blank follows.  A token with a fixed text is
settled by running the pattern on it; for identifiers and numbers only the first character and, for
words, the end decide.
-/

namespace BlockScript.Grammar

open Peg (Node Pattern)
open Peg.Grammar

variable {p q : Pattern Rule} {s : List Char} {tokens : List String} {name token : String}

theorem fails_text_of_ne {a c : Char} {as tail : List Char} (h : a ≠ c) :
    rules.Fails (.text (a :: as)) (c :: tail) := by
  simp [h]

/-! ## Words -/

theorem ne_of_isWordStart {a c : Char} (hc : isWordStart c = true) (ha : isWordStart a = false) :
    a ≠ c := by
  rintro rfl
  simp [hc] at ha

theorem toNat_of_isDigit {c : Char} (h : c.isDigit = true) : 48 ≤ c.toNat ∧ c.toNat ≤ 57 := by
  simp only [Char.isDigit, Bool.and_eq_true, decide_eq_true_eq, ge_iff_le,
    UInt32.le_iff_toNat_le] at h
  exact h

theorem isDigit_of_isWordStart {c : Char} (h : isWordStart c = true) : c.isDigit = false := by
  refine Bool.eq_false_iff.2 fun hdigit => ?_
  have hrange := toNat_of_isDigit hdigit
  change ((decide (c.val ≥ 'A'.val ∧ c.val ≤ 'Z'.val) ||
    (decide (c.val ≥ 'a'.val) && decide (c.val ≤ 'z'.val))) || decide (c = '_')) = true at h
  simp only [Bool.or_eq_true, Bool.and_eq_true, decide_eq_true_eq, ge_iff_le,
    UInt32.le_iff_toNat_le] at h
  change ((65 ≤ c.toNat ∧ c.toNat ≤ 90) ∨ (97 ≤ c.toNat ∧ c.toNat ≤ 122)) ∨ c = '_' at h
  rcases h with (h | h) | rfl
  · omega
  · omega
  · cases hdigit

theorem isBlank_of_isWordStart {c : Char} (h : isWordStart c = true) :
    isBlank c = false ∧ c ≠ '#' := by
  constructor
  · refine Bool.eq_false_iff.2 fun hblank => ?_
    simp only [isBlank, Bool.or_eq_true, decide_eq_true_eq] at hblank
    rcases hblank with ((rfl | rfl) | rfl) | rfl <;> cases h
  · exact (ne_of_isWordStart h rfl).symm

theorem IsIdentifier.solid (h : IsIdentifier name.toList) : Solid name := by
  obtain ⟨c, tail, hname, hc, -⟩ := h
  obtain ⟨hblank, hcomment⟩ := isBlank_of_isWordStart hc
  exact solid_of_head hname hblank hcomment

theorem takes_identifier (h : IsIdentifier name.toList) :
    Takes (.rule .identifier) (trail (name :: tokens)) (trail tokens)
      (Single fun node => ∃ start stop, node = .mk .identifier start stop name.toList []) := by
  refine takes_token h.solid fun pos => ⟨_, reads_identifier.2 ⟨⟨h, ?_⟩, rfl⟩, _, rfl, _, _, rfl⟩
  exact (spaced_trail tokens).stops rfl

theorem IsIdentifier.refuses_keyword (h : IsIdentifier name.toList) {k : String}
    (hk : k ∈ keywords) : Refuses (wholeWord k) (trail (name :: tokens)) :=
  refuses_token h.solid fun _ hs => h.fails_wholeWord (hs.stops rfl) hk

theorem IsIdentifier.refuses_text (h : IsIdentifier name.toList) {a : Char} {as : List Char}
    (ha : isWordStart a = false) : Refuses (.text (a :: as)) (trail (name :: tokens)) := by
  refine refuses_token h.solid fun s _ => ?_
  obtain ⟨c, tail, hname, hc, -⟩ := h
  rw [hname]
  exact fails_text_of_ne (ne_of_isWordStart hc ha)

theorem takes_keyword {r : Rule} {k : String} (hpattern : pattern r = wholeWord k)
    (hr : hidden r = false) (hk : Solid k) :
    Takes (.rule r) (trail (k :: tokens)) (trail tokens) (Single (NodeOf r (· = []))) := by
  refine Takes.rule ?_ hr
  rw [hpattern]
  refine takes_token hk fun _ => ⟨[], reads_wholeWord.2 ⟨rfl, ?_, rfl⟩, rfl⟩
  exact (spaced_trail tokens).stops rfl

/-! ## Literals and parentheses -/

/-- What is not found where a literal or a parenthesis stands. -/
def foreign : List (Pattern Rule) :=
  [.rule .identifier, .text ['+', '+'], .text ['-', '-'], .rule .notOperator, .rule .negateOperator,
    .text ['\x7b'], .text ['='], wholeWord "if", wholeWord "while", wholeWord "for",
    wholeWord "print_line", wholeWord "print_value"]

/-- The text begins with a literal or a parenthesis. -/
def Plain (s : List Char) : Prop :=
  ∀ p ∈ foreign, Refuses p s

/-- The characters that a number, a string or a parenthesis begins with. -/
def plainHeads : List Char :=
  "0123456789.\"(".toList

theorem fails_foreign {c : Char} (hc : c ∈ plainHeads) (tail : List Char) :
    ∀ p ∈ foreign, rules.Fails p (c :: tail) := by
  simp only [foreign, List.forall_mem_cons, List.not_mem_nil, false_imp_iff, implies_true, and_true]
  change c ∈ ['0', '1', '2', '3', '4', '5', '6', '7', '8', '9', '.', '"', '('] at hc
  simp only [List.mem_cons, List.not_mem_nil, or_false] at hc
  rcases hc with rfl | rfl | rfl | rfl | rfl | rfl | rfl | rfl | rfl | rfl | rfl | rfl | rfl
  all_goals and_intros
  all_goals exact ⟨20, rfl⟩

theorem solid_plainHead {c : Char} (hc : c ∈ plainHeads) : isBlank c = false ∧ c ≠ '#' := by
  have hall : (plainHeads.all fun c => !isBlank c && c != '#') = true := by decide
  simpa using List.all_eq_true.1 hall c hc

theorem skip_plainHead {c : Char} (hc : c ∈ plainHeads) (tail : List Char) :
    rules.skip (c :: tail) = c :: tail :=
  skip_cons_of_solid (solid_plainHead hc).1 (solid_plainHead hc).2 tail

theorem plain_cons {c : Char} (hc : c ∈ plainHeads) (tail : List Char) : Plain (c :: tail) := by
  intro p hp
  rw [Refuses, skip_plainHead hc]
  exact fails_foreign hc tail p hp

theorem solid_of_plainHead {c : Char} {tail : List Char} (h : token.toList = c :: tail)
    (hc : c ∈ plainHeads) : Solid token :=
  solid_of_head h (solid_plainHead hc).1 (solid_plainHead hc).2

theorem plain_of_head {c : Char} {tail : List Char} (h : token.toList = c :: tail)
    (hc : c ∈ plainHeads) : Plain (trail (token :: tokens)) := by
  intro p hp
  refine refuses_token (solid_of_plainHead h hc) fun s _ => ?_
  rw [h]
  exact fails_foreign hc _ p hp

theorem fails_foreign_word {s : List Char} (hs : Spaced s) (h : token ∈ ["true", "false", "nil"]) :
    ∀ p ∈ foreign, rules.Fails p (token.toList ++ s) := by
  simp only [foreign, List.forall_mem_cons, List.not_mem_nil, false_imp_iff, implies_true, and_true]
  simp only [List.mem_cons, List.not_mem_nil, or_false] at h
  rcases h with rfl | rfl | rfl <;> rcases hs with rfl | ⟨tail, rfl⟩
  all_goals and_intros
  all_goals exact ⟨30, rfl⟩

theorem plain_word (h : token ∈ ["true", "false", "nil"]) : Plain (trail (token :: tokens)) := by
  intro p hp
  have hsolid : ∀ token ∈ ["true", "false", "nil"], Solid token := by decide
  exact refuses_token (hsolid token h) fun s hs => fails_foreign_word hs h p hp

theorem mem_plainHeads_of_isDigit {c : Char} (h : c.isDigit = true) : c ∈ plainHeads := by
  have hrange := toNat_of_isDigit h
  have hc : c = Char.ofNat c.toNat := (Char.ofNat_toNat c).symm
  have hcases : c.toNat = 48 ∨ c.toNat = 49 ∨ c.toNat = 50 ∨ c.toNat = 51 ∨ c.toNat = 52 ∨
      c.toNat = 53 ∨ c.toNat = 54 ∨ c.toNat = 55 ∨ c.toNat = 56 ∨ c.toNat = 57 := by omega
  rcases hcases with h | h | h | h | h | h | h | h | h | h
  all_goals
    rw [hc, h]
    decide

theorem IsDigits.head {w : List Char} (h : IsDigits w) (hne : w ≠ []) :
    ∃ c tail, w = c :: tail ∧ c ∈ plainHeads := by
  obtain ⟨c, tail, rfl⟩ := List.exists_cons_of_ne_nil hne
  exact ⟨c, tail, rfl, mem_plainHeads_of_isDigit (h c (by simp))⟩

theorem IsFloat.head {w : List Char} (h : IsFloat w) :
    ∃ c tail, w = c :: tail ∧ c ∈ plainHeads := by
  have hdigits : ∀ whole more : List Char, whole ≠ [] → IsDigits whole →
      ∃ c tail, whole ++ more = c :: tail ∧ c ∈ plainHeads := by
    intro whole more hne hwhole
    obtain ⟨c, tail, rfl, hc⟩ := hwhole.head hne
    exact ⟨c, tail ++ more, rfl, hc⟩
  rcases h with ⟨whole, fraction, exponent, rfl, -, hwhole, -⟩ |
    ⟨whole, exponent, rfl, hne, hwhole, -⟩
  · by_cases hempty : whole = []
    · exact ⟨'.', fraction ++ exponent, by simp [hempty], by decide⟩
    · exact hdigits whole _ hempty hwhole
  · exact hdigits whole exponent hne hwhole

theorem fails_float_of_digits {w : List Char} (hne : w ≠ []) (hw : IsDigits w) (hs : Spaced s) :
    rules.Fails (.rule .float) (w ++ s) := by
  have hdigits : rules.Reads (.oneOrMore (.char Char.isDigit)) .start w s [] :=
    reads_oneOrMore_char.2 ⟨hne, hw, hs.stops rfl, rfl⟩
  have hpoint : rules.Fails (.text ['.']) s := by
    rcases hs with rfl | ⟨tail, rfl⟩ <;> simp
  have hstart : rules.Fails (.text ['.']) (w ++ s) := by
    obtain ⟨d, tail, rfl⟩ := List.exists_cons_of_ne_nil hne
    refine fails_text_of_ne ?_
    rintro rfl
    exact absurd (hw '.' (by simp)) (by decide)
  refine fails_rule.2 (fails_alt.2 ⟨?_, fails_alt.2 ⟨fails_seq.2 (.inl hstart), ?_⟩⟩)
  · exact fails_seq.2 (.inr ⟨_, w, s, [], rfl, hdigits, fails_seq.2 (.inl hpoint)⟩)
  · exact fails_seq.2 (.inr ⟨_, w, s, [], rfl, hdigits, fails_exponent (hs.stops rfl)⟩)

/-! ## Behind an operand -/

/-- The tokens that close an expression. -/
def closers : List String :=
  [")", ";", "\x7b"]

/-- The tokens that may stand behind an operand. -/
def followers : List String :=
  closers ++ ["or", "and", "==", "!=", "<", "<=", ">", ">=", "+", "-", "*", "/", "%"]

/-- What is not found behind an operand: the rest of an update, a step or an assignment. -/
def continuations : List (Pattern Rule) :=
  [compoundOperator, .text ['+', '+'], .text ['-', '-'],
    .phrase [.word "=", .absent (.word "="), .rule .expression]]

theorem refuses_continuation (h : token ∈ followers) {p : Pattern Rule} (hp : p ∈ continuations) :
    Refuses p (trail (token :: tokens)) := by
  have hall : ∀ p ∈ continuations, ∀ s, Spaced s → rules.Fails p (token.toList ++ s) := by
    simp only [continuations, List.forall_mem_cons, List.not_mem_nil, false_imp_iff, implies_true,
      and_true]
    simp only [followers, closers, List.cons_append, List.nil_append, List.mem_cons,
      List.not_mem_nil, or_false] at h
    rcases h with rfl | rfl | rfl | rfl | rfl | rfl | rfl | rfl | rfl | rfl | rfl | rfl | rfl |
      rfl | rfl | rfl
    all_goals and_intros
    all_goals
      rintro s (rfl | ⟨tail, rfl⟩)
      all_goals exact ⟨20, rfl⟩
  have hsolid : ∀ token ∈ followers, Solid token := by decide
  exact refuses_token (hsolid token h) (hall p hp)

/-! ## Alternatives that are refused -/

/-- The statements that are tried before an assignment. -/
def statementForms : List (Pattern Rule) :=
  [.rule .block, .rule .ifStatement, .rule .whileStatement, .rule .forStatement,
    .rule .printStatement]

/-- The operands that are tried before a step behind a variable. -/
def updatesBefore : List (Pattern Rule) :=
  [.rule .compoundAssignment, .rule .preIncrement, .rule .preDecrement]

/-- The operands that update a variable, tried first. -/
def updateForms : List (Pattern Rule) :=
  updatesBefore ++ [.rule .postIncrement, .rule .postDecrement]

def literals : List (Pattern Rule) :=
  [.rule .float, .rule .integer, .rule .string, .rule .boolean, .rule .nilWord]

/-- What is not found where an expression begins: the other statements, and the second character of
a comparison. -/
def openers : List (Pattern Rule) :=
  statementForms ++ [.rule .assignment, .text ['=']]

theorem primary_eq : primary =
    .anyOf (updateForms ++ (literals ++ [.rule .identifier, .rule .parenthesized])) := rfl

theorem refuses_statementForms (hbrace : Refuses (.text ['\x7b']) s)
    (hwords : ∀ k ∈ ["if", "while", "for", "print_line", "print_value"], Refuses (wholeWord k) s) :
    ∀ p ∈ statementForms, Refuses p s := by
  simp only [statementForms, List.forall_mem_cons, List.not_mem_nil, false_imp_iff, implies_true,
    and_true]
  refine ⟨?_, ?_, ?_, ?_, ?_⟩
  · exact Refuses.rule (Refuses.seq_left hbrace)
  · have hword : Refuses (.rule .ifWord) s := Refuses.rule (hwords "if" (by simp))
    exact Refuses.rule (Refuses.seq_left (Refuses.rule (Refuses.seq_left hword)))
  · have hword : Refuses (.rule .whileWord) s := Refuses.rule (hwords "while" (by simp))
    exact Refuses.rule (Refuses.seq_left hword)
  · have hword : Refuses (.rule .forWord) s := Refuses.rule (hwords "for" (by simp))
    exact Refuses.rule (Refuses.seq_left hword)
  · have hline : Refuses (.rule .printLineWord) s := Refuses.rule (hwords "print_line" (by simp))
    have hvalue : Refuses (.rule .printValueWord) s :=
      Refuses.rule (hwords "print_value" (by simp))
    exact Refuses.rule (Refuses.seq_left (fails_alt.2 ⟨hline, hvalue⟩))

theorem refuses_leadingOperator (hnot : Refuses (.rule .notOperator) s)
    (hnegate : Refuses (.rule .negateOperator) s) : Refuses leadingOperator s :=
  refuses_anyOf (by simp) (by simp [hnot, hnegate])

section Plain

variable (h : Plain s)
include h

theorem Plain.identifier : Refuses (.rule .identifier) s :=
  h _ (by simp [foreign])

theorem Plain.statementForms : ∀ p ∈ statementForms, Refuses p s := by
  refine refuses_statementForms (h _ (by simp [foreign])) fun k hk => h _ ?_
  simp only [List.mem_cons, List.not_mem_nil, or_false] at hk
  rcases hk with rfl | rfl | rfl | rfl | rfl <;> simp [foreign]

theorem Plain.leadingOperator : Refuses leadingOperator s :=
  refuses_leadingOperator (h _ (by simp [foreign])) (h _ (by simp [foreign]))

theorem Plain.updateForms : ∀ p ∈ updateForms, Refuses p s := by
  have hup : Refuses (.text ['+', '+']) s := h _ (by simp [foreign])
  have hdown : Refuses (.text ['-', '-']) s := h _ (by simp [foreign])
  simp only [Grammar.updateForms, updatesBefore, List.cons_append, List.nil_append,
    List.forall_mem_cons, List.not_mem_nil, false_imp_iff, implies_true, and_true]
  exact ⟨.rule h.identifier.seq_left, .rule hup.seq_left, .rule hdown.seq_left,
    .rule h.identifier.seq_left, .rule h.identifier.seq_left⟩

theorem Plain.openers : ∀ p ∈ openers, Refuses p s := by
  refine List.forall_mem_append.2 ⟨h.statementForms, ?_⟩
  simp only [List.forall_mem_cons, List.not_mem_nil, false_imp_iff, implies_true, and_true]
  exact ⟨.rule h.identifier.seq_left, h _ (by simp [foreign])⟩

end Plain

section Identifier

variable (h : IsIdentifier name.toList)
include h

theorem IsIdentifier.statementForms : ∀ p ∈ statementForms, Refuses p (trail (name :: tokens)) := by
  refine refuses_statementForms (h.refuses_text rfl) fun k hk => h.refuses_keyword ?_
  revert k
  decide

theorem IsIdentifier.leadingOperator : Refuses leadingOperator (trail (name :: tokens)) := by
  refine refuses_leadingOperator (Refuses.rule ?_) (Refuses.rule ?_)
  · exact fails_alt.2 ⟨(h.refuses_text rfl).seq_left, h.refuses_keyword (by decide)⟩
  · exact (h.refuses_text rfl).seq_left

theorem IsIdentifier.literals : ∀ p ∈ literals, Refuses p (trail (name :: tokens)) := by
  simp only [Grammar.literals, List.forall_mem_cons, List.not_mem_nil, false_imp_iff, implies_true,
    and_true]
  have hdigit : Refuses (.oneOrMore (.char Char.isDigit)) (trail (name :: tokens)) := by
    refine refuses_token h.solid fun s _ => fails_oneOrMore_digit ?_
    obtain ⟨c, tail, hname, hc, -⟩ := h
    rw [hname]
    exact Peg.stops_cons.2 (isDigit_of_isWordStart hc)
  have hpoint : Refuses (.text ['.']) (trail (name :: tokens)) := h.refuses_text rfl
  have hquote : Refuses (.text ['"']) (trail (name :: tokens)) := h.refuses_text rfl
  have htrue : Refuses (.rule .trueWord) (trail (name :: tokens)) :=
    Refuses.rule (h.refuses_keyword (by decide))
  have hfalse : Refuses (.rule .falseWord) (trail (name :: tokens)) :=
    Refuses.rule (h.refuses_keyword (by decide))
  refine ⟨?_, .rule hdigit, .rule hquote.seq_left, .rule (fails_alt.2 ⟨htrue, hfalse⟩),
    .rule (h.refuses_keyword (by decide))⟩
  exact Refuses.rule (fails_alt.2 ⟨hdigit.seq_left, fails_alt.2 ⟨hpoint.seq_left, hdigit.seq_left⟩⟩)

/-- Behind an identifier the next token decides whether it is updated. -/
theorem IsIdentifier.updatesBefore (hoperator : Refuses compoundOperator (trail tokens)) :
    ∀ p ∈ updatesBefore, Refuses p (trail (name :: tokens)) := by
  simp only [Grammar.updatesBefore, List.forall_mem_cons, List.not_mem_nil, false_imp_iff,
    implies_true, and_true]
  exact ⟨.rule ((takes_identifier h).refuses_seq hoperator.seq_left),
    .rule (h.refuses_text rfl).seq_left, .rule (h.refuses_text rfl).seq_left⟩

theorem IsIdentifier.updateForms (hoperator : Refuses compoundOperator (trail tokens))
    (hup : Refuses (.text ['+', '+']) (trail tokens))
    (hdown : Refuses (.text ['-', '-']) (trail tokens)) :
    ∀ p ∈ updateForms, Refuses p (trail (name :: tokens)) := by
  refine List.forall_mem_append.2 ⟨h.updatesBefore hoperator, ?_⟩
  simp only [List.forall_mem_cons, List.not_mem_nil, false_imp_iff, implies_true, and_true]
  exact ⟨.rule ((takes_identifier h).refuses_seq hup),
    .rule ((takes_identifier h).refuses_seq hdown)⟩

theorem IsIdentifier.openers
    (hnext : Refuses (.phrase [.word "=", .absent (.word "="), .rule .expression]) (trail tokens)) :
    ∀ p ∈ openers, Refuses p (trail (name :: tokens)) := by
  refine List.forall_mem_append.2 ⟨h.statementForms, ?_⟩
  simp only [List.forall_mem_cons, List.not_mem_nil, false_imp_iff, implies_true, and_true]
  exact ⟨.rule ((takes_identifier h).refuses_seq hnext), h.refuses_text rfl⟩

end Identifier

theorem fails_openers_of_sign {c : Char} (hc : c ∈ ['!', '-', '+']) (s : List Char) :
    ∀ p ∈ openers, rules.Fails p (c :: s) := by
  simp only [openers, statementForms, List.cons_append, List.nil_append, List.forall_mem_cons,
    List.not_mem_nil, false_imp_iff, implies_true, and_true]
  simp only [List.mem_cons, List.not_mem_nil, or_false] at hc
  rcases hc with rfl | rfl | rfl
  all_goals and_intros
  all_goals exact ⟨20, rfl⟩

theorem refuses_openers_of_sign {c : Char} {tail : List Char} (hc : c ∈ ['-', '+'])
    (h : token.toList = c :: tail) : ∀ p ∈ openers, Refuses p (trail (token :: tokens)) := by
  have hsolid : Solid token := by
    simp only [List.mem_cons, List.not_mem_nil, or_false] at hc
    rcases hc with rfl | rfl <;> exact solid_of_head h rfl (by decide)
  intro p hp
  refine refuses_token hsolid fun s _ => ?_
  rw [h]
  exact fails_openers_of_sign (List.mem_cons_of_mem _ hc) _ p hp

theorem refuses_openers_not : ∀ p ∈ openers, Refuses p (trail ("not" :: tokens)) := by
  have hall : ∀ p ∈ openers, ∀ s, Spaced s → rules.Fails p ("not".toList ++ s) := by
    simp only [openers, statementForms, List.cons_append, List.nil_append, List.forall_mem_cons,
      List.not_mem_nil, false_imp_iff, implies_true, and_true]
    and_intros
    all_goals
      rintro s (rfl | ⟨tail, rfl⟩)
      all_goals exact ⟨30, rfl⟩
  exact fun p hp => refuses_token (by decide) (hall p hp)

end BlockScript.Grammar
