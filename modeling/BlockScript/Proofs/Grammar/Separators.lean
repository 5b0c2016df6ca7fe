import BlockScript.Proofs.Grammar.Tokens
import BlockScript.Tree.Span

/-!
# What stands between statements

Between the statements of a list there are only blanks, comments and semicolons, at most one behind
each statement.  Layout is what it is without the text around it, so this can be said of the text
between two statements alone.
-/

namespace BlockScript.Grammar

open Peg (Node Pattern)
open Peg.Grammar

/-! ## Layout -/

mutual

theorem layoutLength_le : ∀ s : List Char, layoutLength s ≤ s.length
  | [] => Nat.le_refl _
  | c :: s => by
    have hlayout := layoutLength_le s
    have hcomment := commentLength_le s
    rw [layoutLength, List.length_cons]
    split
    · omega
    · split <;> omega

theorem commentLength_le : ∀ s : List Char, commentLength s ≤ s.length
  | [] => Nat.le_refl _
  | c :: s => by
    have hlayout := layoutLength_le s
    have hcomment := commentLength_le s
    rw [commentLength, List.length_cons]
    split <;> omega

end

theorem skip_append_eq_iff {gap rest : List Char} :
    rules.skip (gap ++ rest) = rest ↔ layoutLength (gap ++ rest) = gap.length := by
  change (gap ++ rest).drop (layoutLength (gap ++ rest)) = rest ↔ _
  constructor
  · intro h
    have hlength := congrArg List.length h
    have hle := layoutLength_le (gap ++ rest)
    rw [List.length_drop, List.length_append] at hlength
    rw [List.length_append] at hle
    omega
  · intro h
    rw [h, List.drop_left]

mutual

theorem layoutLength_of_append : ∀ {gap rest : List Char},
    layoutLength (gap ++ rest) = gap.length → layoutLength gap = gap.length
  | [], _, _ => rfl
  | c :: gap, rest, h => by
    rw [List.cons_append, layoutLength, List.length_cons] at h
    rw [layoutLength, List.length_cons]
    split
    · rename_i hblank
      rw [if_pos hblank] at h
      rw [layoutLength_of_append (Nat.succ.inj h)]
    · rename_i hblank
      rw [if_neg hblank] at h
      split
      · rename_i hcomment
        rw [if_pos hcomment] at h
        rw [commentLength_of_append (Nat.succ.inj h)]
      · rename_i hcomment
        rw [if_neg hcomment] at h
        cases h

theorem commentLength_of_append : ∀ {gap rest : List Char},
    commentLength (gap ++ rest) = gap.length → commentLength gap = gap.length
  | [], _, _ => rfl
  | c :: gap, rest, h => by
    rw [List.cons_append, commentLength, List.length_cons] at h
    rw [commentLength, List.length_cons]
    split
    · rename_i hend
      rw [if_pos hend] at h
      rw [layoutLength_of_append (Nat.succ.inj h)]
    · rename_i hend
      rw [if_neg hend] at h
      rw [commentLength_of_append (Nat.succ.inj h)]

end

mutual

/-- Where layout stops at a character, what comes behind that character does not matter. -/
theorem layoutLength_replace {c : Char} {rest rest' : List Char} : ∀ {gap : List Char},
    layoutLength (gap ++ c :: rest) = gap.length → layoutLength (gap ++ c :: rest') = gap.length
  | [], h => by
    rw [List.nil_append, layoutLength] at h ⊢
    split at h
    · cases h
    · split at h
      · cases h
      · rename_i hblank hcomment
        rw [if_neg hblank, if_neg hcomment]
        rfl
  | d :: gap, h => by
    rw [List.cons_append, layoutLength, List.length_cons] at h ⊢
    split at h
    · rename_i hblank
      rw [if_pos hblank, layoutLength_replace (Nat.succ.inj h)]
    · rename_i hblank
      rw [if_neg hblank]
      split at h
      · rename_i hcomment
        rw [if_pos hcomment, commentLength_replace (Nat.succ.inj h)]
      · cases h

theorem commentLength_replace {c : Char} {rest rest' : List Char} : ∀ {gap : List Char},
    commentLength (gap ++ c :: rest) = gap.length → commentLength (gap ++ c :: rest') = gap.length
  | [], h => by
    rw [List.nil_append, commentLength] at h
    split at h <;> cases h
  | d :: gap, h => by
    rw [List.cons_append, commentLength, List.length_cons] at h ⊢
    split at h
    · rename_i hend
      rw [if_pos hend, layoutLength_replace (Nat.succ.inj h)]
    · rename_i hend
      rw [if_neg hend, commentLength_replace (Nat.succ.inj h)]

end

/-- Blanks and comments.  A comment goes from its sign up to the end of its line, or of the text. -/
inductive IsLayout : List Char → Prop
  | nil : IsLayout []
  | blank {c : Char} {rest : List Char} (hblank : isBlank c = true) (hrest : IsLayout rest) :
      IsLayout (c :: rest)
  | comment {body rest : List Char} (hbody : ∀ c ∈ body, isLineEnd c = false)
      (hend : rest = [] ∨ ∃ c more, rest = c :: more ∧ isLineEnd c = true)
      (hrest : IsLayout rest) : IsLayout ('#' :: (body ++ rest))

theorem isBlank_of_isLineEnd {c : Char} (h : isLineEnd c = true) : isBlank c = true := by
  simp only [isLineEnd, Bool.or_eq_true, decide_eq_true_eq] at h
  rcases h with rfl | rfl <;> rfl

mutual

theorem isLayout_of_length : ∀ {text : List Char}, layoutLength text = text.length → IsLayout text
  | [], _ => .nil
  | c :: text, h => by
    rw [layoutLength, List.length_cons] at h
    split at h
    · rename_i hblank
      exact .blank hblank (isLayout_of_length (Nat.succ.inj h))
    · split at h
      · rename_i hcomment
        obtain ⟨body, rest, rfl, hbody, hend, hrest⟩ := comment_of_length (Nat.succ.inj h)
        rw [hcomment]
        exact .comment hbody hend hrest
      · cases h

theorem comment_of_length : ∀ {text : List Char}, commentLength text = text.length →
    ∃ body rest, text = body ++ rest ∧ (∀ c ∈ body, isLineEnd c = false) ∧
      (rest = [] ∨ ∃ c more, rest = c :: more ∧ isLineEnd c = true) ∧ IsLayout rest
  | [], _ => ⟨[], [], rfl, by simp, .inl rfl, .nil⟩
  | c :: text, h => by
    rw [commentLength, List.length_cons] at h
    split at h
    · rename_i hend
      have hrest := isLayout_of_length (Nat.succ.inj h)
      exact ⟨[], c :: text, rfl, by simp, .inr ⟨c, text, rfl, hend⟩,
        .blank (isBlank_of_isLineEnd hend) hrest⟩
    · rename_i hend
      obtain ⟨body, rest, rfl, hbody, hrest⟩ := comment_of_length (Nat.succ.inj h)
      exact ⟨c :: body, rest, rfl, List.forall_mem_cons.2 ⟨Bool.eq_false_iff.2 hend, hbody⟩, hrest⟩

end

theorem isLayout_of_skip {gap rest : List Char} (h : rules.skip (gap ++ rest) = rest) :
    IsLayout gap :=
  isLayout_of_length (layoutLength_of_append (skip_append_eq_iff.1 h))

theorem skip_replace {gap rest : List Char} {c : Char}
    (h : rules.skip (gap ++ c :: rest) = c :: rest) (rest' : List Char) :
    rules.skip (gap ++ c :: rest') = c :: rest' :=
  skip_append_eq_iff.2 (layoutLength_replace (skip_append_eq_iff.1 h))

/-- Layout leaves no layout behind it. -/
theorem eq_nil_of_skip {gap next rest : List Char}
    (h : rules.skip (gap ++ (next ++ rest)) = next ++ rest)
    (hnext : rules.skip (next ++ rest) = rest) : next = [] := by
  have htwice := skip_skip (gap ++ (next ++ rest))
  rw [h, hnext] at htwice
  simpa using htwice

/-! ## Separators -/

/-- Layout with at most one semicolon in it. -/
def IsSeparator (text : List Char) : Prop :=
  IsLayout text ∨
    ∃ before behind, text = before ++ ';' :: behind ∧ IsLayout before ∧ IsLayout behind

/-- A text that begins at the offset `first` is made of the text of the spans, with a gap before the
first one, and separators behind each. -/
inductive Interleaved : (List Char → Prop) → Nat → List Span → List Char → Prop
  | last {Gap : List Char → Prop} {first : Nat} {gap : List Char} (hgap : Gap gap) :
      Interleaved Gap first [] gap
  | next {Gap : List Char → Prop} {first : Nat} {span : Span} {spans : List Span}
      {gap inside rest : List Char} (hgap : Gap gap) (hstart : span.start = first + byteLength gap)
      (hstop : span.stop = span.start + byteLength inside)
      (hrest : Interleaved IsSeparator span.stop spans rest) :
      Interleaved Gap first (span :: spans) (gap ++ (inside ++ rest))

/-- What a statement takes behind its node, before the text `rest`. -/
def Ends (tail rest : List Char) : Prop :=
  ∃ gap mark, tail = gap ++ mark ∧ (mark = [] ∨ mark = [';']) ∧
    rules.skip (gap ++ (mark ++ rest)) = mark ++ rest

theorem isSeparator_of_ends {tail next rest : List Char} (h : Ends tail (next ++ rest))
    (hnext : rules.skip (next ++ rest) = rest) : IsSeparator (tail ++ next) := by
  obtain ⟨gap, mark, rfl, rfl | rfl, hskip⟩ := h
  · rw [List.nil_append] at hskip
    obtain rfl := eq_nil_of_skip hskip hnext
    rw [List.nil_append] at hskip
    rw [List.append_nil, List.append_nil]
    exact .inl (isLayout_of_skip hskip)
  · exact .inr ⟨gap, next, by simp, isLayout_of_skip hskip, isLayout_of_skip hnext⟩

variable {pos : Position} {w rest : List Char} {nodes : List (Node Rule)}

/-- What a statement begins with is one node. -/
theorem node_of_part (h : rules.Reads (.anyOf [.rule .block, .rule .ifStatement,
      .rule .whileStatement, .rule .forStatement, .rule .printStatement, .rule .assignment,
      .rule .expressionStatement]) pos w rest nodes) :
    ∃ node, nodes = [node] ∧ node.start = pos ∧ node.stop = pos.afterAll w := by
  obtain ⟨p, hp, hread⟩ := h.of_anyOf
  simp only [List.mem_cons, List.not_mem_nil, or_false] at hp
  rcases hp with rfl | rfl | rfl | rfl | rfl | rfl | rfl
  all_goals
    obtain ⟨children, -, rfl⟩ := hread.node rfl
    exact ⟨_, rfl, rfl, rfl⟩

/-- A statement is one node and what ends it. -/
theorem ends_of_statement (h : rules.Reads statement pos w rest nodes) :
    ∃ node inside tail, nodes = [node] ∧ w = inside ++ tail ∧ node.start = pos ∧
      node.stop = pos.afterAll inside ∧ Ends tail rest := by
  obtain ⟨inside, _, before, _, rfl, rfl, hnode, htail⟩ := reads_seq.1 h
  obtain ⟨gap, mark, _, behind, rfl, rfl, hgap, hmark⟩ := reads_seq.1 htail
  obtain ⟨hskip, rfl⟩ := reads_layout.1 hgap
  obtain ⟨hsemicolon, rfl⟩ : (mark = [] ∨ mark = [';']) ∧ behind = [] := by
    rcases reads_opt.1 hmark with hmark | ⟨-, rfl, rfl⟩
    · obtain ⟨rfl, rfl⟩ := reads_text.1 hmark
      exact ⟨.inr rfl, rfl⟩
    · exact ⟨.inl rfl, rfl⟩
  obtain ⟨node, rfl, hstart, hstop⟩ := node_of_part hnode
  exact ⟨node, inside, gap ++ mark, rfl, rfl, hstart, hstop, gap, mark, rfl, hsemicolon, hskip⟩

def spanOf (node : Node Rule) : Span :=
  .between node.start node.stop

/-- The statements after the first one, behind the end `tail` of the one before them. -/
theorem interleaved_of_star (h : rules.Reads (.star (.seq .layout statement)) pos w rest nodes)
    {last more : List Char} (hrest : rest = last ++ more) (hlast : rules.skip rest = more) :
    ∀ tail first, Ends tail (w ++ rest) → pos.offset = first + byteLength tail →
      Interleaved IsSeparator first (nodes.map spanOf) (tail ++ (w ++ last)) := by
  apply h.star_induction (motive := fun pos w nodes =>
    ∀ tail first, Ends tail (w ++ rest) → pos.offset = first + byteLength tail →
      Interleaved IsSeparator first (nodes.map spanOf) (tail ++ (w ++ last)))
  · intro _ pos tail first hends _
    rw [List.nil_append, hrest] at hends
    rw [hrest] at hlast
    exact .last (isSeparator_of_ends hends hlast)
  · intro pos front back before behind hround hmore ih tail first hends hfirst
    obtain ⟨gap, text, _, _, rfl, rfl, hlayout, hstatement⟩ := reads_seq.1 hround
    obtain ⟨hskip, rfl⟩ := reads_layout.1 hlayout
    obtain ⟨node, inside, tail', rfl, rfl, hstart, hstop, hends'⟩ := ends_of_statement hstatement
    have hgap : IsSeparator (tail ++ gap) := by
      rw [List.append_assoc, List.append_assoc] at hends
      exact isSeparator_of_ends hends hskip
    have hnode : node.start.offset = first + byteLength (tail ++ gap) := by
      rw [hstart, Position.offset_afterAll, hfirst, byteLength_append, Nat.add_assoc]
    have hinside : node.stop.offset = node.start.offset + byteLength inside := by
      rw [hstop, hstart, Position.offset_afterAll]
    have hback : ((pos.afterAll (gap ++ (inside ++ tail'))).offset) =
        node.stop.offset + byteLength tail' := by
      simp only [hstop, Position.offset_afterAll, byteLength_append]
      omega
    have hall : Interleaved IsSeparator first (spanOf node :: behind.map spanOf)
        (tail ++ gap ++ (inside ++ (tail' ++ (back ++ last)))) :=
      .next hgap hnode hinside (ih tail' _ hends' hback)
    simpa using hall

/-- A list of statements, from the layout `gap` before it to the layout `last` behind it. -/
theorem interleaved_of_many (h : rules.Reads (.many statement) pos w rest nodes)
    {gap last more : List Char} (hgap : rules.skip (gap ++ (w ++ rest)) = w ++ rest)
    (hrest : rest = last ++ more) (hlast : rules.skip rest = more) {first : Nat}
    (hfirst : pos.offset = first + byteLength gap) :
    Interleaved IsLayout first (nodes.map spanOf) (gap ++ (w ++ last)) := by
  rcases reads_many.1 h with ⟨-, rfl, rfl⟩ | ⟨front, back, before, behind, rfl, rfl, hread, hmore⟩
  · rw [List.nil_append, hrest] at hgap
    rw [hrest] at hlast
    obtain rfl := eq_nil_of_skip hgap hlast
    rw [List.nil_append, List.append_nil]
    exact .last (isLayout_of_skip hgap)
  · obtain ⟨node, inside, tail, rfl, rfl, hstart, hstop, hends⟩ := ends_of_statement hread
    have hinside : node.stop.offset = node.start.offset + byteLength inside := by
      rw [hstop, hstart, Position.offset_afterAll]
    have hback : (pos.afterAll (inside ++ tail)).offset = node.stop.offset + byteLength tail := by
      simp only [hstop, Position.offset_afterAll, byteLength_append, Nat.add_assoc]
    have hlater := interleaved_of_star hmore hrest hlast tail _ hends hback
    have hall : Interleaved IsLayout first (spanOf node :: behind.map spanOf)
        (gap ++ (inside ++ (tail ++ (back ++ last)))) :=
      .next (isLayout_of_skip hgap) (by rw [← hfirst, ← hstart]; rfl) hinside hlater
    simpa using hall

theorem interleaved_of_program {statements : List (Node Rule)} {final : Node Rule}
    (h : rules.Reads (pattern .program) .start w rest (statements ++ [final])) :
    Interleaved IsLayout 0 (statements.map spanOf) w := by
  obtain ⟨gap, _, _, _, rfl, hnodes, hgap, hphrase⟩ := reads_seq.1 h
  obtain ⟨hskip, rfl⟩ := reads_layout.1 hgap
  obtain ⟨text, _, nodes, _, rfl, rfl, hmany, hrest⟩ := reads_seq.1 hphrase
  obtain ⟨last, _, _, _, rfl, rfl, hlast, hend⟩ := reads_seq.1 hrest
  obtain ⟨hskipLast, rfl⟩ := reads_layout.1 hlast
  obtain ⟨children, hfinish, rfl⟩ := hend.node rfl
  obtain ⟨rfl, rfl, rfl⟩ := reads_finish.1 hfinish
  simp only [List.nil_append] at hnodes
  obtain ⟨rfl, -⟩ := List.append_inj' hnodes rfl
  simp only [List.append_nil] at hskip hskipLast hmany ⊢
  exact interleaved_of_many hmany hskip (List.append_nil last).symm hskipLast
    (by rw [Position.offset_afterAll]; rfl)

/-- The statements of a block make up the text between its braces. -/
theorem interleaved_of_block (h : rules.Reads (pattern .block) pos w rest nodes) :
    ∃ inner, w = '\x7b' :: (inner ++ ['\x7d']) ∧
      Interleaved IsLayout (pos.offset + 1) (nodes.map spanOf) inner := by
  obtain ⟨_, _, _, _, rfl, rfl, hopen, hphrase⟩ := reads_seq.1 h
  obtain ⟨rfl, rfl⟩ := reads_text.1 hopen
  obtain ⟨gap, _, _, _, rfl, rfl, hgap, hbody⟩ := reads_seq.1 hphrase
  obtain ⟨hskip, rfl⟩ := reads_layout.1 hgap
  obtain ⟨text, _, nodes, _, rfl, rfl, hmany, hrest⟩ := reads_seq.1 hbody
  obtain ⟨last, _, _, _, rfl, rfl, hlast, hclose⟩ := reads_seq.1 hrest
  obtain ⟨hskipLast, rfl⟩ := reads_layout.1 hlast
  obtain ⟨rfl, rfl⟩ := reads_text.1 hclose
  refine ⟨gap ++ (text ++ last), by simp, ?_⟩
  simp only [List.append_assoc, List.nil_append, List.append_nil] at hskip hskipLast hmany ⊢
  exact interleaved_of_many hmany hskip rfl hskipLast
    (by rw [Position.offset_afterAll, Position.offset_afterAll]; rfl)

end BlockScript.Grammar
