import BlockScript.Proofs.Grammar.Tokens

/-!
# Phrases, layout apart

In a phrase every part starts behind the layout that the part before it left.  So what a part does
is said of texts up to the layout they begin with: `Takes` leads from the text before a part to the
text behind it, and `Refuses` says that the part does not match.
-/

namespace BlockScript.Grammar

open Peg (Node Pattern)
open Peg.Grammar

/-- From the first text to the second the pattern matches with nodes that satisfy `Q`. -/
def Takes (p : Pattern Rule) (s t : List Char) (Q : List (Node Rule) → Prop) : Prop :=
  ∀ pos, ∃ w rest nodes, rules.skip s = w ++ rest ∧ rules.skip rest = rules.skip t ∧
    rules.Reads p pos w rest nodes ∧ Q nodes

def Refuses (p : Pattern Rule) (s : List Char) : Prop :=
  rules.Fails p (rules.skip s)

/-- The nodes of two parts, one after the other. -/
def Appended (P Q : List (Node Rule) → Prop) (nodes : List (Node Rule)) : Prop :=
  ∃ front back, nodes = front ++ back ∧ P front ∧ Q back

/-- One node, which satisfies `P`. -/
def Single (P : Node Rule → Prop) (nodes : List (Node Rule)) : Prop :=
  ∃ node, nodes = [node] ∧ P node

/-- A node of a rule whose children satisfy `Q`. -/
def NodeOf (r : Rule) (Q : List (Node Rule) → Prop) : Node Rule → Prop
  | .mk rule _ _ _ children => rule = r ∧ Q children

variable {p q : Pattern Rule} {s t u : List Char} {P Q R : List (Node Rule) → Prop}

theorem Takes.imp (h : Takes p s t P) (hP : ∀ nodes, P nodes → Q nodes) : Takes p s t Q := by
  intro pos
  obtain ⟨w, rest, nodes, hs, hrest, hread, hnodes⟩ := h pos
  exact ⟨w, rest, nodes, hs, hrest, hread, hP nodes hnodes⟩

theorem exists_gap (s : List Char) : ∃ gap, s = gap ++ rules.skip s :=
  ⟨s.take (layoutLength s), (List.take_append_drop _ s).symm⟩

/-! ## Parts in a row -/

theorem Takes.seq (hp : Takes p s t P) (hq : Takes q t u Q) :
    Takes (.seq p (.seq .layout q)) s u (Appended P Q) := by
  intro pos
  obtain ⟨w, rest, before, hs, hrest, hread, hbefore⟩ := hp pos
  obtain ⟨gap, hgap⟩ := exists_gap rest
  obtain ⟨w', rest', behind, ht, hrest', hread', hbehind⟩ := hq ((pos.afterAll w).afterAll gap)
  have htext : rest = gap ++ (w' ++ rest') := by
    rw [← ht, ← hrest]
    exact hgap
  refine ⟨w ++ (gap ++ w'), rest', before ++ behind, by simp [hs, htext], hrest', ?_,
    before, behind, rfl, hbefore, hbehind⟩
  refine reads_seq.2 ⟨w, gap ++ w', before, behind, rfl, rfl, ?_, ?_⟩
  · simpa [htext] using hread
  · refine reads_seq.2 ⟨gap, w', [], behind, rfl, rfl, reads_layout.2 ⟨?_, rfl⟩, hread'⟩
    rw [← htext, hrest, ht]

theorem Refuses.seq_left (h : Refuses p s) : Refuses (.seq p q) s :=
  fails_seq.2 (.inl h)

theorem Takes.refuses_seq (hp : Takes p s t P) (hq : Refuses q t) :
    Refuses (.seq p (.seq .layout q)) s := by
  obtain ⟨w, rest, nodes, hs, hrest, hread, -⟩ := hp .start
  obtain ⟨gap, hgap⟩ := exists_gap rest
  refine fails_seq.2 (.inr ⟨_, w, rest, nodes, hs, hread, fails_seq.2 (.inr ?_)⟩)
  refine ⟨.start, gap, rules.skip rest, [], hgap, reads_layout.2 ⟨by rw [← hgap], rfl⟩, ?_⟩
  rwa [hrest]

theorem Takes.regroup {r : Pattern Rule} (h : Takes (.seq (.seq p (.seq .layout q)) r) s t Q) :
    Takes (.seq p (.seq .layout (.seq q r))) s t Q := by
  intro pos
  obtain ⟨w, rest, nodes, hs, hrest, hread, hnodes⟩ := h pos
  refine ⟨w, rest, nodes, hs, hrest, ?_, hnodes⟩
  obtain ⟨_, back, _, _, rfl, rfl, hread, hback⟩ := reads_seq.1 hread
  obtain ⟨front, _, _, _, rfl, rfl, hfront, hread⟩ := reads_seq.1 hread
  obtain ⟨gap, middle, _, _, rfl, rfl, hgap, hmiddle⟩ := reads_seq.1 hread
  rw [List.append_assoc, List.append_assoc, List.append_assoc, List.append_assoc]
  rw [Position.afterAll_append, Position.afterAll_append] at hback
  exact reads_seq.2 ⟨_, _, _, _, rfl, rfl, by simpa using hfront,
    reads_seq.2 ⟨_, _, _, _, rfl, rfl, by simpa using hgap,
      reads_seq.2 ⟨_, _, _, _, rfl, rfl, hmiddle, hback⟩⟩⟩

/-! ## Alternatives -/

theorem reads_anyOf {front back : List (Pattern Rule)} {pos : Position} {w rest : List Char}
    {nodes : List (Node Rule)} (h : rules.Reads p pos w rest nodes)
    (hfront : ∀ r ∈ front, rules.Fails r (w ++ rest)) :
    rules.Reads (.anyOf (front ++ p :: back)) pos w rest nodes := by
  induction front with
  | nil =>
    cases back with
    | nil => exact h
    | cons r back => exact reads_alt.2 (.inl h)
  | cons r front ih =>
    obtain ⟨hr, hfront⟩ := List.forall_mem_cons.1 hfront
    have hmore := ih hfront
    cases hrest : front ++ p :: back with
    | nil => simp at hrest
    | cons r' more =>
      rw [hrest] at hmore
      rw [List.cons_append, hrest]
      exact reads_alt.2 (.inr ⟨hr, hmore⟩)

theorem Takes.anyOf {front back : List (Pattern Rule)} (h : Takes p s t Q)
    (hfront : ∀ r ∈ front, Refuses r s) : Takes (.anyOf (front ++ p :: back)) s t Q := by
  intro pos
  obtain ⟨w, rest, nodes, hs, hrest, hread, hnodes⟩ := h pos
  refine ⟨w, rest, nodes, hs, hrest, reads_anyOf hread fun r hr => ?_, hnodes⟩
  rw [← hs]
  exact hfront r hr

theorem refuses_anyOf {patterns : List (Pattern Rule)} (hne : patterns ≠ [])
    (h : ∀ r ∈ patterns, Refuses r s) : Refuses (.anyOf patterns) s := by
  induction patterns with
  | nil => exact absurd rfl hne
  | cons r patterns ih =>
    obtain ⟨hr, hpatterns⟩ := List.forall_mem_cons.1 h
    cases patterns with
    | nil => exact hr
    | cons r' patterns => exact fails_alt.2 ⟨hr, ih (by simp) hpatterns⟩

theorem takes_opt (h : Takes p s t Q) : Takes (.opt p) s t Q := by
  intro pos
  obtain ⟨w, rest, nodes, hs, hrest, hread, hnodes⟩ := h pos
  exact ⟨w, rest, nodes, hs, hrest, reads_opt.2 (.inl hread), hnodes⟩

theorem takes_opt_of_refuses (h : Refuses p s) : Takes (.opt p) s s (· = []) := by
  intro pos
  exact ⟨[], rules.skip s, [], rfl, skip_skip s, reads_opt.2 (.inr ⟨h, rfl, rfl⟩), rfl⟩

theorem takes_absent (h : Refuses p s) : Takes (.absent p) s s (· = []) := by
  intro pos
  exact ⟨[], rules.skip s, [], rfl, skip_skip s, reads_absent.2 ⟨rfl, rfl, h⟩, rfl⟩

/-! ## Rules -/

theorem Takes.rule {r : Rule} (h : Takes (pattern r) s t Q) (hr : hidden r = false) :
    Takes (.rule r) s t (Single (NodeOf r Q)) := by
  intro pos
  obtain ⟨w, rest, nodes, hs, hrest, hread, hnodes⟩ := h pos
  refine ⟨w, rest, [.mk r pos (pos.afterAll w) w nodes], hs, hrest, ?_, _, rfl, rfl, hnodes⟩
  refine reads_rule.2 ⟨nodes, hread, ?_⟩
  simp [rules, hr]

theorem Takes.node {r : Rule} {P : Node Rule → Prop} (h : Takes (pattern r) s t Q)
    (hr : hidden r = false)
    (hP : ∀ start stop text children, Q children → P (.mk r start stop text children)) :
    Takes (.rule r) s t (Single P) := by
  refine (h.rule hr).imp ?_
  rintro _ ⟨⟨rule, start, stop, text, children⟩, rfl, rfl, hchildren⟩
  exact ⟨_, rfl, hP start stop text children hchildren⟩

theorem Refuses.rule {r : Rule} (h : Refuses (pattern r) s) : Refuses (.rule r) s :=
  fails_rule.2 h

/-! ## Repetitions -/

theorem takes_many_of_refuses (h : Refuses p s) : Takes (.many p) s s (· = []) := by
  intro pos
  exact ⟨[], rules.skip s, [], rfl, skip_skip s, reads_many.2 (.inl ⟨h, rfl, rfl⟩), rfl⟩

/-- One more round in front.  The layout behind it is taken only if another round follows. -/
theorem reads_many_cons {pos : Position} {w gap w' rest : List Char}
    {before behind : List (Node Rule)} (hp : rules.Reads p pos w (gap ++ (w' ++ rest)) before)
    (hgap : rules.skip (gap ++ (w' ++ rest)) = w' ++ rest)
    (hmore : rules.Reads (.many p) ((pos.afterAll w).afterAll gap) w' rest behind) :
    rules.Reads (.many p) pos (w ++ (gap ++ w')) rest (before ++ behind) ∨
      w' = [] ∧ behind = [] ∧ rules.Reads (.many p) pos w (gap ++ rest) before := by
  rcases reads_many.1 hmore with ⟨hfails, rfl, rfl⟩ |
    ⟨front, back, first, others, rfl, rfl, hread, hstar⟩
  · refine .inr ⟨rfl, rfl, reads_many.2 (.inr ⟨w, [], before, [], by simp, by simp, hp, ?_⟩)⟩
    refine reads_star.2 (.inl ⟨fails_seq.2 (.inr ?_), rfl, rfl⟩)
    exact ⟨pos, gap, rest, [], rfl, reads_layout.2 ⟨hgap, rfl⟩, hfails⟩
  · refine .inl (reads_many.2 (.inr ⟨w, gap ++ (front ++ back), before, first ++ others, rfl, rfl,
      by simpa using hp, reads_star.2 (.inr ?_)⟩))
    refine ⟨gap ++ front, back, first, others, by simp, rfl, ?_, ?_⟩
    · exact reads_seq.2 ⟨gap, front, [], first, rfl, rfl, reads_layout.2 ⟨by simpa using hgap, rfl⟩,
        hread⟩
    · rwa [Position.afterAll_append]

theorem Takes.many_cons (hp : Takes p s t P) (hmore : Takes (.many p) t u Q) :
    Takes (.many p) s u (Appended P Q) := by
  intro pos
  obtain ⟨w, rest, before, hs, hrest, hread, hbefore⟩ := hp pos
  obtain ⟨gap, hgap⟩ := exists_gap rest
  obtain ⟨w', rest', behind, ht, hrest', hread', hbehind⟩ := hmore ((pos.afterAll w).afterAll gap)
  have htext : rest = gap ++ (w' ++ rest') := by
    rw [← ht, ← hrest]
    exact hgap
  subst htext
  rcases reads_many_cons hread (hrest.trans ht) hread' with hall | ⟨rfl, rfl, hone⟩
  · exact ⟨_, rest', _, by simp [hs], hrest', hall, before, behind, rfl, hbefore, hbehind⟩
  · refine ⟨w, gap ++ rest', before, by simpa using hs, ?_, hone, before, [], by simp, hbefore,
      hbehind⟩
    calc
      rules.skip (gap ++ rest') = rules.skip t := by simpa using hrest
      _ = rules.skip (rules.skip t) := (skip_skip t).symm
      _ = rules.skip u := by rw [ht, List.nil_append, hrest']

/-- One more round in front of a repetition that something follows. -/
theorem Takes.many_seq_cons (hp : Takes p s t P)
    (hmore : Takes (.seq (.many p) (.seq .layout q)) t u Q) :
    Takes (.seq (.many p) (.seq .layout q)) s u (Appended P Q) := by
  intro pos
  obtain ⟨w, rest, before, hs, hrest, hread, hbefore⟩ := hp pos
  obtain ⟨gap, hgap⟩ := exists_gap rest
  obtain ⟨w', rest', behind, ht, hrest', hread', hbehind⟩ := hmore ((pos.afterAll w).afterAll gap)
  have htext : rest = gap ++ (w' ++ rest') := by
    rw [← ht, ← hrest]
    exact hgap
  subst htext
  obtain ⟨rounds, more, first, others, rfl, rfl, hmany, hmore⟩ := reads_seq.1 hread'
  obtain ⟨gap', last, _, final, rfl, rfl, hlayout, hlast⟩ := reads_seq.1 hmore
  obtain ⟨hskip, rfl⟩ := reads_layout.1 hlayout
  refine ⟨w ++ (gap ++ (rounds ++ (gap' ++ last))), rest', before ++ (first ++ ([] ++ final)),
    by simp [hs], hrest', ?_, before, _, rfl, hbefore, hbehind⟩
  have hstart : rules.skip (gap ++ (rounds ++ (gap' ++ last ++ rest'))) =
      rounds ++ (gap' ++ last ++ rest') := by simpa using hrest.trans ht
  rcases reads_many_cons (by simpa using hread) hstart hmany with hall | ⟨rfl, rfl, hone⟩
  · refine reads_seq.2 ⟨w ++ (gap ++ rounds), gap' ++ last, before ++ first, final, by simp,
      by simp, hall, reads_seq.2 ⟨gap', last, [], final, rfl, rfl, reads_layout.2 ⟨hskip, rfl⟩, ?_⟩⟩
    simpa [Position.afterAll_append] using hlast
  · -- no round follows, so all the layout stands before the last part
    have hgap' : gap' = [] := by
      have hsolid : rules.skip (gap' ++ last ++ rest') = gap' ++ last ++ rest' := by
        rw [List.nil_append] at hstart
        rw [← hstart, skip_skip]
      have hlength := congrArg List.length (hsolid.symm.trans (by simpa using hskip))
      simp only [List.length_append] at hlength
      exact List.eq_nil_of_length_eq_zero (by omega)
    subst hgap'
    refine reads_seq.2 ⟨w, gap ++ last, before, final, by simp, by simp, by simpa using hone,
      reads_seq.2 ⟨gap, last, [], final, rfl, rfl, reads_layout.2 ⟨by simpa using hstart, rfl⟩, ?_⟩⟩
    simpa [Position.afterAll_append] using hlast

/-! ## Tokens after blanks -/

/-- The text of tokens, each after a blank. -/
def trail (tokens : List String) : List Char :=
  tokens.flatMap fun token => ' ' :: token.toList

/-- The end of the text or a blank. -/
def Spaced (s : List Char) : Prop :=
  s = [] ∨ ∃ tail, s = ' ' :: tail

/-- The token is not empty and does not begin with layout. -/
def Solid (token : String) : Prop :=
  (token.toList.head?.any fun c => !isBlank c && c != '#') = true

instance : DecidablePred Solid :=
  fun _ => inferInstanceAs (Decidable (_ = true))

theorem solid_of_head {token : String} {c : Char} {tail : List Char} (h : token.toList = c :: tail)
    (hblank : isBlank c = false) (hcomment : c ≠ '#') : Solid token := by
  simp [Solid, h, hblank, hcomment]

theorem trail_cons (token : String) (tokens : List String) :
    trail (token :: tokens) = ' ' :: (token.toList ++ trail tokens) := by
  simp [trail]

theorem spaced_trail (tokens : List String) : Spaced (trail tokens) := by
  cases tokens with
  | nil => exact .inl rfl
  | cons token tokens => exact .inr ⟨_, trail_cons token tokens⟩

theorem Spaced.stops {test : Char → Bool} (h : Spaced s) (htest : test ' ' = false) :
    Peg.Stops test s := by
  rcases h with rfl | ⟨tail, rfl⟩
  · simp
  · simpa using htest

theorem skip_trail_cons {token : String} (h : Solid token) (tokens : List String) :
    rules.skip (trail (token :: tokens)) = token.toList ++ trail tokens := by
  rw [trail_cons, skip_cons_of_blank rfl]
  cases htoken : token.toList with
  | nil => simp [Solid, htoken] at h
  | cons c tail =>
    simp only [Solid, htoken, List.head?_cons, Option.any_some, Bool.and_eq_true, Bool.not_eq_true',
      bne_iff_ne] at h
    exact skip_cons_of_solid h.1 h.2 _

theorem takes_token {token : String} {tokens : List String} (h : Solid token)
    (hread : ∀ pos, ∃ nodes, rules.Reads p pos token.toList (trail tokens) nodes ∧ Q nodes) :
    Takes p (trail (token :: tokens)) (trail tokens) Q := by
  intro pos
  obtain ⟨nodes, hread, hnodes⟩ := hread pos
  exact ⟨token.toList, trail tokens, nodes, skip_trail_cons h tokens, rfl, hread, hnodes⟩

theorem refuses_token {token : String} {tokens : List String} (h : Solid token)
    (hfails : ∀ s, Spaced s → rules.Fails p (token.toList ++ s)) :
    Refuses p (trail (token :: tokens)) := by
  rw [Refuses, skip_trail_cons h]
  exact hfails _ (spaced_trail tokens)

theorem takes_text {token : String} (h : Solid token) (tokens : List String) :
    Takes (.text token.toList) (trail (token :: tokens)) (trail tokens) (· = []) :=
  takes_token h fun _ => ⟨[], reads_text.2 ⟨rfl, rfl⟩, rfl⟩

end BlockScript.Grammar
