import BlockScript.Proofs.Tree.Layout

/-!
# Programs one behind the other

No rule passes a semicolon that stands outside of all brackets.  So the statements of a program whose
last one is closed by a semicolon are read the same whatever follows, and the statements of a second
program behind a line break are read as in a text of their own, further down.
-/

namespace BlockScript

open Grammar Reader
open Peg (Node Pattern Alike Agree)
open Peg.Grammar
open Peg.Tree (placeAll textOf)

/-! ## Statements in front of another text -/

namespace Grammar

mutual

theorem layoutLength_line {t : List Char} : ∀ {s : List Char}, layoutLength s = s.length →
    layoutLength (s ++ '\n' :: t) = s.length + (layoutLength t + 1)
  | [], _ => by simp [layoutLength, isBlank]
  | c :: s, h => by
    rw [layoutLength, List.length_cons] at h
    rw [List.cons_append, layoutLength, List.length_cons]
    split at h
    · rename_i hblank
      rw [if_pos hblank, layoutLength_line (Nat.succ.inj h)]
      omega
    · rename_i hblank
      rw [if_neg hblank]
      split at h
      · rename_i hcomment
        rw [if_pos hcomment, commentLength_line (Nat.succ.inj h)]
        omega
      · cases h

theorem commentLength_line {t : List Char} : ∀ {s : List Char}, commentLength s = s.length →
    commentLength (s ++ '\n' :: t) = s.length + (layoutLength t + 1)
  | [], _ => by simp [commentLength, isLineEnd]
  | c :: s, h => by
    rw [commentLength, List.length_cons] at h
    rw [List.cons_append, commentLength, List.length_cons]
    split at h
    · rename_i hend
      rw [if_pos hend, layoutLength_line (Nat.succ.inj h)]
      omega
    · rename_i hend
      rw [if_neg hend, commentLength_line (Nat.succ.inj h)]
      omega

end

/-- A line break ends the layout of a text that is nothing else. -/
theorem skip_line {s gap t : List Char} (hs : rules.skip s = []) (ht : rules.skip (gap ++ t) = t) :
    rules.skip (s ++ '\n' :: gap ++ t) = t := by
  have hlength : layoutLength (s ++ []) = s.length := skip_append_eq_iff.1 (by simpa using hs)
  rw [List.append_nil] at hlength
  rw [skip_append_eq_iff]
  simp only [List.append_assoc, List.cons_append, List.length_append, List.length_cons]
  rw [layoutLength_line hlength, skip_append_eq_iff.1 ht]

variable {pos : Position} {w rest rest' : List Char} {nodes : List (Node Rule)} {p : Pattern Rule}

theorem Parallel.kept {hard : Bool} {depth : Nat} {gap : List Char}
    (h : Parallel Eq hard depth rest rest') (hskip : rules.skip (gap ++ rest) = rest) :
    Parallel Eq hard depth (gap ++ rest) (gap ++ rest') := by
  by_cases hne : gap = []
  · subst hne
    exact h
  · exact .gap rfl hne hne hskip (h.skip_eq hskip) h

/-- What is read without a bare semicolon is read before every parallel text. -/
theorem reads_of_parallel (hinert : IsInertPattern p)
    (hleads : leads (bracketsOf .program) false p .before = some .before)
    (h : rules.Reads p pos w rest nodes) (hrest : Parallel Eq true 0 rest rest') :
    rules.Reads p pos w rest' nodes ∧ Parallel Eq true 0 (w ++ rest) (w ++ rest') := by
  obtain ⟨fuel, trees, hrun, hplace⟩ := h
  have htext : textOf trees = w := List.append_cancel_right (textOf_run _ _ _ _ hrun)
  have hstaged := staged_of_run hinert hleads hrun
  have hparallel : Parallel Eq true 0 (w ++ rest) (w ++ rest') := by
    cases hstaged with
    | stay hnested =>
      rw [← htext]
      apply hnested.parallel _ (Alike.refl (fun _ => rfl) trees) hrest
      intro text text' heq
      exact .inl heq.symm
  have hagree : Agree Eq (Parallel Eq true 0) (rules.run fuel p (w ++ rest))
      (rules.run fuel p (w ++ rest')) :=
    @agree_of_parallel Eq true .program fuel p _ _ .before .before 0 hinert hleads hparallel
  refine ⟨⟨fuel, trees, ?_, hplace⟩, hparallel⟩
  rw [hrun] at hagree
  generalize hrun' : rules.run fuel p (w ++ rest') = outcome at hagree
  cases hagree with
  | matched htrees hmatched =>
    obtain rfl := htrees.eq_of_eq
    have htext' := textOf_run _ _ _ _ hrun'
    rw [htext] at htext'
    rw [List.append_cancel_left htext']

/-- In a text that begins at the position, the next token behind the node is a semicolon. -/
def Closes (pos : Position) (text : List Char) (node : Node Rule) : Prop :=
  ∀ front back, text = front ++ back → pos.offset + byteLength front = node.stop.offset →
    ∃ behind, rules.skip back = ';' :: behind

theorem Closes.behind {front text : List Char} {node : Node Rule}
    (h : Closes pos (front ++ text) node) : Closes (pos.afterAll front) text node := by
  intro a b htext hoffset
  apply h (front ++ a) b (by rw [htext, List.append_assoc])
  rw [byteLength_append, ← hoffset, Position.offset_afterAll, Nat.add_assoc]

/-- A statement that is closed, or that another one follows, is read before other texts too. -/
theorem reads_statement_before (h : rules.Reads statement pos w rest nodes)
    (hnext : Parallel Eq true 0 rest rest' ∨ ∀ node ∈ nodes, Closes pos (w ++ rest) node) :
    rules.Reads statement pos w rest' nodes ∧ Parallel Eq true 0 (w ++ rest) (w ++ rest') := by
  obtain ⟨inside, _, before, _, rfl, rfl, hpart, htail⟩ := reads_seq.1 h
  obtain ⟨gap, mark, _, behind, rfl, rfl, hgap, hmark⟩ := reads_seq.1 htail
  obtain ⟨hskip, rfl⟩ := reads_layout.1 hgap
  obtain ⟨node, rfl, -, hstop⟩ := node_of_part hpart
  have hclosed : Parallel Eq true 0 (mark ++ rest) (mark ++ rest') ∧
      rules.Reads (.opt (.word ";")) ((pos.afterAll inside).afterAll gap) mark rest' behind := by
    rcases reads_opt.1 hmark with hmark | ⟨hfails, rfl, rfl⟩
    · obtain ⟨rfl, rfl⟩ := reads_text.1 hmark
      exact ⟨.cut rfl, reads_opt.2 (.inl (reads_text.2 ⟨rfl, rfl⟩))⟩
    · have hparallel : Parallel Eq true 0 rest rest' := by
        rcases hnext with hparallel | hcloses
        · exact hparallel
        · obtain ⟨behind, hbehind⟩ := hcloses node (by simp) inside (gap ++ rest) (by simp)
            (by rw [hstop, Position.offset_afterAll])
          rw [List.nil_append] at hskip
          rw [hskip] at hbehind
          exact absurd ⟨behind, hbehind.symm⟩ (fails_text.1 hfails)
      refine ⟨hparallel, reads_opt.2 (.inr ⟨?_, rfl, rfl⟩)⟩
      rcases hparallel.head (layoutLength_of_skip hskip) with
        ⟨-, rfl⟩ | ⟨c, tail, tail', rfl, rfl, -⟩
      · exact fails_text.2 (by decide)
      · rw [Pattern.word, fails_text] at hfails ⊢
        simpa [List.cons_prefix_cons] using hfails
  obtain ⟨hparallel, hopt⟩ := hclosed
  have hskip' := hparallel.skip_eq hskip
  have hinert : IsInertPattern (pattern .program) := isInertPattern_pattern (.inr rfl) (by decide)
  rw [List.append_assoc] at hpart
  obtain ⟨hpart', hwhole⟩ :=
    reads_of_parallel hinert.2.1.1.1 (by decide) hpart (hparallel.kept hskip)
  refine ⟨?_, by simpa using hwhole⟩
  refine reads_seq.2 ⟨inside, gap ++ mark, [node], behind, rfl, rfl, ?_, ?_⟩
  · rwa [List.append_assoc]
  · exact reads_seq.2 ⟨gap, mark, [], behind, rfl, rfl, reads_layout.2 ⟨hskip', rfl⟩, hopt⟩

section

variable {before behind more : List (Node Rule)} {front back y : List Char}

/-- The same for the first of several statements, of which the last one is closed. -/
theorem reads_first_before (h : rules.Reads statement pos front (back ++ rest) before)
    (hcloses : ∀ node ∈ (before ++ behind).getLast?, Closes pos (front ++ (back ++ rest)) node)
    (hbehind : behind ≠ [] → Parallel Eq true 0 (back ++ rest) (back ++ rest')) :
    rules.Reads statement pos front (back ++ rest') before ∧
      Parallel Eq true 0 (front ++ (back ++ rest)) (front ++ (back ++ rest')) := by
  apply reads_statement_before h
  by_cases hlast : behind = []
  · right
    obtain ⟨node, _, _, rfl, -⟩ := ends_of_statement h
    subst hlast
    simpa using hcloses
  · exact .inl (hbehind hlast)

theorem closes_behind
    (h : ∀ node ∈ (before ++ behind).getLast?, Closes pos (front ++ (back ++ rest)) node) :
    ∀ node ∈ behind.getLast?, Closes (pos.afterAll front) (back ++ rest) node := by
  intro node hnode
  apply Closes.behind
  apply h
  simp [List.getLast?_append, Option.mem_def.1 hnode]

/-- Statements of which the last one is closed go on with the statements behind them. -/
theorem reads_star_before (h : rules.Reads (.star (.seq .layout statement)) pos w rest nodes) :
    (∀ node ∈ nodes.getLast?, Closes pos (w ++ rest) node) →
      rules.Reads (.star (.seq .layout statement)) (pos.afterAll w) y rest' more →
        rules.Reads (.star (.seq .layout statement)) pos (w ++ y) rest' (nodes ++ more) ∧
          (nodes ≠ [] → Parallel Eq true 0 (w ++ rest) (w ++ (y ++ rest'))) := by
  apply h.star_induction (motive := fun pos w nodes =>
    (∀ node ∈ nodes.getLast?, Closes pos (w ++ rest) node) →
      rules.Reads (.star (.seq .layout statement)) (pos.afterAll w) y rest' more →
        rules.Reads (.star (.seq .layout statement)) pos (w ++ y) rest' (nodes ++ more) ∧
          (nodes ≠ [] → Parallel Eq true 0 (w ++ rest) (w ++ (y ++ rest'))))
  · intro _ pos _ hmore
    exact ⟨hmore, fun hne => absurd rfl hne⟩
  · intro pos front back before behind hround hback ih hcloses hmore
    obtain ⟨gap, text, _, before, rfl, rfl, hlayout, hstatement⟩ := reads_seq.1 hround
    obtain ⟨hskip, rfl⟩ := reads_layout.1 hlayout
    rw [Position.afterAll_append] at hmore
    simp only [List.nil_append, List.append_assoc] at hcloses ⊢
    obtain ⟨hlater, hparallel⟩ := ih (closes_behind (by simpa using hcloses)) hmore
    obtain ⟨hfirst, hwhole⟩ := reads_first_before hstatement
      (fun node hnode => (hcloses node hnode).behind) hparallel
    have hround' : rules.Reads (.seq .layout statement) pos (gap ++ text) ((back ++ y) ++ rest')
        before := by
      rw [List.append_assoc]
      exact reads_seq.2
        ⟨gap, text, [], before, rfl, rfl, reads_layout.2 ⟨hwhole.skip_eq hskip, rfl⟩, hfirst⟩
    refine ⟨reads_star.2 (.inr ⟨gap ++ text, back ++ y, before, behind ++ more, ?_, rfl, hround',
      hlater⟩), fun _ => hwhole.kept hskip⟩
    rw [List.append_assoc]

theorem reads_many_before (h : rules.Reads (.many statement) pos w rest nodes) (hne : nodes ≠ [])
    (hcloses : ∀ node ∈ nodes.getLast?, Closes pos (w ++ rest) node)
    (hmore : rules.Reads (.star (.seq .layout statement)) (pos.afterAll w) y rest' more) :
    rules.Reads (.many statement) pos (w ++ y) rest' (nodes ++ more) ∧
      Parallel Eq true 0 (w ++ rest) (w ++ (y ++ rest')) := by
  rcases reads_many.1 h with ⟨-, -, rfl⟩ | ⟨front, back, before, behind, rfl, rfl, hread, hback⟩
  · exact absurd rfl hne
  · rw [List.append_assoc] at hcloses
    rw [Position.afterAll_append] at hmore
    obtain ⟨hlater, hparallel⟩ := reads_star_before hback (closes_behind hcloses) hmore
    obtain ⟨hfirst, hwhole⟩ := reads_first_before hread hcloses hparallel
    rw [← List.append_assoc back] at hfirst
    refine ⟨reads_many.2
      (.inr ⟨front, back ++ y, before, behind ++ more, ?_, ?_, hfirst, hlater⟩), ?_⟩
    · simp
    · simp
    · simpa using hwhole

theorem reads_star_of_many {gap : List Char}
    (h : rules.Reads (.many statement) (pos.afterAll gap) w rest nodes)
    (hgap : rules.skip (gap ++ (w ++ rest)) = w ++ rest) (hrest : rules.skip rest = []) :
    ∃ y last, y ++ last = gap ++ (w ++ rest) ∧ rules.skip last = [] ∧
      rules.Reads (.star (.seq .layout statement)) pos y last nodes := by
  rcases reads_many.1 h with
    ⟨hfails, rfl, rfl⟩ | ⟨front, back, before, behind, rfl, rfl, hread, hmore⟩
  · rw [List.nil_append] at hgap
    obtain rfl : rest = [] :=
      @eq_nil_of_skip gap rest [] (by rwa [List.append_nil]) (by rwa [List.append_nil])
    refine ⟨[], gap, by simp, by simpa using hgap, reads_star.2 (.inl ⟨?_, rfl, rfl⟩)⟩
    exact fails_seq.2 (.inr ⟨pos, gap, [], [], by simp, reads_layout.2 ⟨hgap, rfl⟩, hfails⟩)
  · have hround : rules.Reads (.seq .layout statement) pos (gap ++ front) (back ++ rest) before := by
      rw [List.append_assoc] at hgap
      exact reads_seq.2 ⟨gap, front, [], before, rfl, rfl, reads_layout.2 ⟨hgap, rfl⟩, hread⟩
    rw [← Position.afterAll_append] at hmore
    refine ⟨gap ++ front ++ back, rest, by simp, hrest, ?_⟩
    exact reads_star.2 (.inr ⟨_, back, before, behind, rfl, rfl, hround, hmore⟩)

end

/-- A text that is read whole has layout at most before and behind what is read. -/
theorem reads_entire {all : List (Node Rule)} :
    rules.Reads (.seq .layout (.phrase [p, .rule .endOfInput])) pos w [] all ↔
      ∃ gap text last nodes, w = gap ++ (text ++ last) ∧ rules.skip w = text ++ last ∧
        rules.skip last = [] ∧ rules.Reads p (pos.afterAll gap) text last nodes ∧
        all = nodes ++ [.mk .endOfInput (pos.afterAll w) (pos.afterAll w) [] []] := by
  constructor
  · intro h
    obtain ⟨gap, _, _, _, rfl, rfl, hgap, hphrase⟩ := reads_seq.1 h
    obtain ⟨hskip, rfl⟩ := reads_layout.1 hgap
    obtain ⟨text, _, nodes, _, rfl, rfl, hread, hrest⟩ := reads_seq.1 hphrase
    obtain ⟨last, _, _, _, rfl, rfl, hlast, hend⟩ := reads_seq.1 hrest
    obtain ⟨hskipLast, rfl⟩ := reads_layout.1 hlast
    obtain ⟨children, hfinish, rfl⟩ := hend.node rfl
    obtain ⟨rfl, -, rfl⟩ := reads_finish.1 hfinish
    simp only [List.append_nil] at hskip hskipLast hread ⊢
    refine ⟨gap, text, last, nodes, rfl, hskip, hskipLast, hread, ?_⟩
    simp [Position.afterAll_append]
  · rintro ⟨gap, text, last, nodes, rfl, hskip, hskipLast, hread, rfl⟩
    have hend : ∀ p, rules.Reads (.rule .endOfInput) p [] [] [.mk .endOfInput p p [] []] :=
      fun p => reads_rule.2 ⟨[], reads_finish.2 ⟨rfl, rfl, rfl⟩, rfl⟩
    simp only [Position.afterAll_append]
    refine reads_seq.2 ⟨gap, text ++ last, [], _, rfl, rfl, ?_, ?_⟩
    · exact reads_layout.2 ⟨by simpa using hskip, rfl⟩
    · refine reads_seq.2 ⟨text, last, nodes, _, rfl, rfl, by simpa using hread, ?_⟩
      refine reads_seq.2 ⟨last, [], [], _, by simp, rfl, ?_, hend _⟩
      exact reads_layout.2 ⟨by simpa using hskipLast, rfl⟩

theorem reads_program {all : List (Node Rule)} :
    rules.Reads (pattern .program) pos w [] all ↔
      ∃ gap text last nodes, w = gap ++ (text ++ last) ∧ rules.skip w = text ++ last ∧
        rules.skip last = [] ∧ rules.Reads (.many statement) (pos.afterAll gap) text last nodes ∧
        all = nodes ++ [.mk .endOfInput (pos.afterAll w) (pos.afterAll w) [] []] :=
  reads_entire

/-- The statements of a text come before those of a text on the next lines. -/
theorem reads_program_append {s t : List Char} {nodes nodes' : List (Node Rule)}
    {last last' : Node Rule} (hs : rules.Reads (pattern .program) pos s [] (nodes ++ [last]))
    (hcloses : ∀ node ∈ nodes.getLast?, Closes pos s node)
    (ht : rules.Reads (pattern .program) (pos.afterAll (s ++ ['\n'])) t [] (nodes' ++ [last'])) :
    ∃ final, rules.Reads (pattern .program) pos (s ++ '\n' :: t) [] (nodes ++ nodes' ++ [final]) ∧
      final.rule = .endOfInput := by
  obtain ⟨gap, text, rest, nodes, rfl, hskip, hrest, hmany, heq⟩ := reads_program.1 hs
  obtain ⟨rfl, -⟩ := List.append_inj' heq rfl
  obtain ⟨gap', text', rest', nodes', rfl, hskip', hrest', hmany', heq'⟩ := reads_program.1 ht
  obtain ⟨rfl, -⟩ := List.append_inj' heq' rfl
  rcases reads_many.1 hmany with ⟨-, rfl, rfl⟩ | ⟨_, _, before, behind, -, rfl, hfirst, -⟩
  · obtain rfl : rest = [] :=
      @eq_nil_of_skip gap rest [] (by simpa using hskip) (by rwa [List.append_nil])
    simp only [List.append_nil, List.nil_append] at hskip ht hmany' ⊢
    refine ⟨_, reads_program.2
      ⟨gap ++ '\n' :: gap', text', rest', nodes', by simp, ?_, hrest', ?_, rfl⟩, rfl⟩
    · simpa using skip_line hskip hskip'
    · simpa [Position.afterAll_append] using hmany'
  · have hne : before ++ behind ≠ [] := by
      obtain ⟨node, _, _, rfl, -⟩ := ends_of_statement hfirst
      exact List.cons_ne_nil _ _
    have hline : rules.skip (rest ++ '\n' :: gap' ++ (text' ++ rest')) = text' ++ rest' :=
      skip_line hrest hskip'
    have hlater : rules.Reads (.many statement)
        (((pos.afterAll gap).afterAll text).afterAll (rest ++ '\n' :: gap')) text' rest' nodes' := by
      simpa [Position.afterAll_append] using hmany'
    obtain ⟨y, final, htext, hfinal, hstar⟩ := reads_star_of_many hlater hline hrest'
    obtain ⟨hall, hparallel⟩ :=
      reads_many_before hmany hne (fun node hnode => (hcloses node hnode).behind) hstar
    have hwhole : gap ++ (text ++ rest) ++ '\n' :: (gap' ++ (text' ++ rest')) =
        gap ++ (text ++ y ++ final) := by
      simp [htext]
    refine ⟨_, reads_program.2 ⟨gap, text ++ y, final, _, hwhole, ?_, hfinal, hall, rfl⟩, rfl⟩
    rw [hwhole, List.append_assoc]
    exact hparallel.skip_eq hskip

end Grammar

/-! ## Trees further down -/

/-- The same column, further down. -/
def Position.below (p : Position) (bytes lines : Nat) : Position :=
  ⟨p.offset + bytes, p.line + lines, p.column⟩

/-- A tree in a text that begins that many bytes and lines further down. -/
def Move.below (bytes lines : Nat) : Move where
  offset n := n + bytes
  ends := Option.map fun (first, last) =>
    (⟨first.line + lines, first.column⟩, ⟨last.line + lines, last.column⟩)
  ends_none := rfl

theorem Position.afterAll_below (p : Position) (bytes lines : Nat) (text : List Char) :
    (p.below bytes lines).afterAll text = (p.afterAll text).below bytes lines := by
  induction text generalizing p with
  | nil => rfl
  | cons c text ih =>
    rw [afterAll_cons, afterAll_cons, ← ih]
    congr 1
    unfold after below
    split <;> simp only [Nat.add_right_comm]

theorem Position.afterAll_line (p : Position) (text : List Char) :
    p.afterAll (text ++ ['\n']) =
      ⟨p.offset + (byteLength text + 1), p.line + (text.count '\n' + 1), 1⟩ := by
  have hline : (p.afterAll text).line = p.line + text.count '\n' := by
    induction text generalizing p with
    | nil => rfl
    | cons c text ih =>
      rw [afterAll_cons, ih, List.count_cons]
      unfold after
      by_cases hc : c = '\n'
      · simp [hc, Nat.add_comm, Nat.add_left_comm]
      · simp [hc]
  rw [afterAll_append, afterAll_cons, afterAll_nil, after, if_pos rfl, offset_afterAll, hline]
  rfl

theorem carries_below (bytes lines : Nat) : Carries Eq fun p p' => p' = p.below bytes lines where
  text text hat := by rw [hat, Position.afterAll_below]
  gap := by
    rintro p _ text _ rfl rfl
    rw [Position.afterAll_below]
  empty := by
    rintro text _ rfl
    rfl

theorem meets_below (bytes lines : Nat) :
    Meets (fun p p' => p' = p.below bytes lines) (.below bytes lines) .still where
  offset := by
    rintro p _ rfl
    rfl
  span := by
    rintro p _ q _ rfl rfl
    rfl

/-- A program is read at every place, with its nodes further down. -/
theorem exists_reads_below {pos : Position} {w : List Char} {nodes : List (Node Rule)}
    (h : rules.Reads (pattern .program) pos w [] nodes) (bytes lines : Nat) :
    ∃ nodes', rules.Reads (pattern .program) (pos.below bytes lines) w [] nodes' ∧
      AllResemble (fun p p' => p' = p.below bytes lines) nodes nodes' := by
  obtain ⟨fuel, trees, hrun, rfl⟩ := h
  refine ⟨_, ⟨fuel, trees, hrun, rfl⟩, ?_⟩
  have hnested := nested_of_run hrun
  exact allResemble_of_alike (carries_below bytes lines) (Alike.refl (fun _ => rfl) trees)
    hnested.leafed rfl

namespace Reader

theorem readStatements_append {nodes nodes' : List (Node Rule)}
    {statements statements' : List Statement}
    (h : readStatements nodes = .ok statements) (h' : readStatements nodes' = .ok statements') :
    readStatements (nodes ++ nodes') = .ok (statements ++ statements') := by
  induction nodes generalizing statements with
  | nil =>
    cases h
    exact h'
  | cons node nodes ih =>
    obtain ⟨s, rest, hs, hrest, rfl⟩ := readStatements_cons_eq_ok.1 h
    rw [List.cons_append, readStatements, hs, ih hrest]
    rfl

end Reader

/-- The last statement, if there is one, has a semicolon behind it. -/
def Program.EndsInSemicolon (source : String) (p : Program) : Prop :=
  ∀ last ∈ p.statements.getLast?, ∃ front gap behind,
    source.toList = front ++ (gap ++ ';' :: behind) ∧ byteLength front = last.span.stop ∧
      IsClosedLayout gap

theorem append_inj_of_byteLength {a b a' b' : List Char} (h : a ++ b = a' ++ b')
    (hlength : byteLength a = byteLength a') : a = a' ∧ b = b' := by
  rcases List.append_eq_append_iff.1 h with ⟨c, rfl, rfl⟩ | ⟨c, rfl, rfl⟩
  all_goals
    rw [byteLength_append] at hlength
    obtain rfl := byteLength_eq_zero.1 (show byteLength c = 0 by omega)
    simp

theorem Program.EndsInSemicolon.closes {source : String} {p : Program} {nodes : List (Node Rule)}
    (h : p.EndsInSemicolon source) (hread : readStatements nodes = .ok p.statements) :
    ∀ node ∈ nodes.getLast?, Closes .start source.toList node := by
  intro node hnode a b htext hoffset
  have hspans := congrArg List.getLast? (readStatements_spans hread)
  rw [List.getLast?_map, List.getLast?_map, Option.mem_def.1 hnode] at hspans
  obtain ⟨last, hlast, hspan⟩ := Option.map_eq_some_iff.1 hspans
  obtain ⟨front, gap, behind, hsource, hfront, hgap⟩ := h last hlast
  have hlength : byteLength a = byteLength front := by
    rw [hfront, hspan]
    exact (Nat.zero_add _).symm.trans hoffset
  obtain ⟨-, rfl⟩ := append_inj_of_byteLength (htext.symm.trans hsource) hlength
  exact ⟨behind, hgap.skip rfl⟩

/-- A program whose last statement ends in a semicolon, and another one on the next lines, are a
program of both their statements, the latter ones moved down behind the first text. -/
theorem Program.parse_append {first second : String} {file file' : Option String} {p q : Program}
    (hp : Program.parse first file = .ok p) (hclosed : p.EndsInSemicolon first)
    (hq : Program.parse second file' = .ok q) (name : Option String) :
    ∃ r, Program.parse (first ++ "\n" ++ second) name = .ok r ∧
      r.statements = p.statements ++ Statement.movedAll
        (.below (byteLength first.toList + 1) (first.toList.count '\n' + 1)) q.statements := by
  obtain ⟨nodes, last, hread, hstatements, -⟩ := Program.reads_of_parse hp
  obtain ⟨nodes', last', hread', hstatements', -⟩ := Program.reads_of_parse hq
  obtain ⟨_, hbelow, hresemble⟩ := exists_reads_below hread' (byteLength first.toList + 1)
    (first.toList.count '\n' + 1)
  obtain ⟨moved, _, rfl, hmoved, hend⟩ := hresemble.of_append
  obtain ⟨final, _, rfl, -, hnil⟩ := hend.of_cons
  obtain rfl := hnil.of_nil
  obtain ⟨statements, hlater, hstill⟩ := readStatements_follows hmoved
    (fun node _ => (readStatement_follows (meets_below _ _) node).1) q.statements hstatements'
  rw [Statement.movedAll_still] at hstill
  have hstart : Position.start.afterAll (first.toList ++ ['\n']) = Position.start.below
      (byteLength first.toList + 1) (first.toList.count '\n' + 1) := Position.start.afterAll_line _
  rw [← hstart] at hbelow
  obtain ⟨close, hall, hclose⟩ := reads_program_append hread (hclosed.closes hstatements) hbelow
  have hreadAll := readStatements_append hstatements hlater
  have hsource : (first ++ "\n" ++ second).toList = first.toList ++ '\n' :: second.toList := by
    simp
  have hnode := nodeOf_of_reads_program hall
  rw [← hsource] at hnode
  have hparse := parse_eq_of_nodeOf hnode (rule_ne_endOfInput hreadAll) hclose name
  rw [hreadAll] at hparse
  exact ⟨_, hparse, by rw [hstill]⟩

/-- Without the semicolon, the two texts would be one difference. -/
theorem parse_append_negative : ∃ p q r, Program.parse "a=1;# 2" none = .ok p ∧
    p.EndsInSemicolon "a=1;# 2" ∧ Program.parse "-2" none = .ok q ∧
    Program.parse "a=1;# 2\n-2" none = .ok r ∧
      r.statements = p.statements ++ Statement.movedAll (.below 8 1) q.statements := by
  have hstop : (Program.parse "a=1;# 2" none).toOption.map
      (fun p => p.statements.getLast?.map fun s => s.span.stop) = some (some 3) := by decide +kernel
  have hread : (Program.parse "-2" none).isOk = true := by decide +kernel
  cases hp : Program.parse "a=1;# 2" none with
  | error e => simp [hp, Except.toOption] at hstop
  | ok p =>
    cases hq : Program.parse "-2" none with
    | error e => simp [hq, Except.isOk, Except.toBool] at hread
    | ok q =>
      have hclosed : p.EndsInSemicolon "a=1;# 2" := by
        intro last hlast
        simp only [hp, Except.toOption, Option.map_some, Option.mem_def.1 hlast,
          Option.some.injEq] at hstop
        exact ⟨"a=1".toList, [], "# 2".toList, rfl, hstop.symm, .nil⟩
      obtain ⟨r, hr, hstatements⟩ := Program.parse_append hp hclosed hq none
      exact ⟨p, q, r, rfl, hclosed, rfl, hr, hstatements⟩

end BlockScript
