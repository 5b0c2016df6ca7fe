import BlockScript.Proofs.Grammar.Separators

/-!
# Matching the grammar ends

Layout is what two loops take, one over blanks and one over comments with the blanks behind them.
With them the grammar has no repetition that could go round without taking a character, and no rule
comes back to itself before one is taken.  So every text is matched or fails, whatever it holds.
-/

namespace BlockScript.Grammar

open Peg (Node Pattern Stops)
open Peg.Grammar
open Peg.Pattern (tight)
open Relation (ReflTransGen TransGen)

variable {pos : Position} {w rest : List Char} {nodes : List (Node Rule)}

/-! ## Layout as loops -/

/-- Blanks, then comments with the blanks behind each of them. -/
def spacing : Pattern Rule :=
  tight [.star (pattern .blank), .star (tight [pattern .comment, .star (pattern .blank)])]

theorem skip_blanks {blanks : List Char} (h : ∀ c ∈ blanks, isBlank c = true) (s : List Char) :
    rules.skip (blanks ++ s) = rules.skip s := by
  induction blanks with
  | nil => rfl
  | cons c blanks ih =>
    obtain ⟨hc, hblanks⟩ := List.forall_mem_cons.1 h
    rw [List.cons_append, skip_cons_of_blank hc, ih hblanks]

theorem drop_commentLength {body s : List Char} (hbody : ∀ c ∈ body, isLineEnd c = false)
    (hs : Stops (fun c => !isLineEnd c) s) :
    (body ++ s).drop (commentLength (body ++ s)) = rules.skip s := by
  induction body with
  | nil =>
    cases s with
    | nil => rfl
    | cons c s =>
      have hend : isLineEnd c = true := by simpa using hs
      rw [skip_cons_of_blank (isBlank_of_isLineEnd hend), List.nil_append, commentLength,
        if_pos hend]
      rfl
  | cons c body ih =>
    obtain ⟨hc, hbody⟩ := List.forall_mem_cons.1 hbody
    rw [List.cons_append, commentLength, if_neg (by simp [hc]), List.drop_succ_cons, ih hbody]

theorem skip_comment {body s : List Char} (hbody : ∀ c ∈ body, isLineEnd c = false)
    (hs : Stops (fun c => !isLineEnd c) s) : rules.skip ('#' :: (body ++ s)) = rules.skip s := by
  rw [← drop_commentLength hbody hs]
  rfl

theorem reads_comment (h : rules.Reads (pattern .comment) pos w rest nodes) :
    ∃ body, w = '#' :: body ∧ (∀ c ∈ body, isLineEnd c = false) ∧
      Stops (fun c => !isLineEnd c) rest ∧ nodes = [] := by
  obtain ⟨_, body, _, _, rfl, rfl, hsign, hbody⟩ := reads_seq.1 h
  obtain ⟨rfl, rfl⟩ := reads_text.1 hsign
  obtain ⟨hall, hrest, rfl⟩ := reads_star_char.1 hbody
  exact ⟨body, rfl, by simpa using hall, hrest, rfl⟩

theorem fails_comment {s : List Char} (h : rules.Fails (pattern .comment) s) :
    ∀ tail, s ≠ '#' :: tail := by
  rintro tail rfl
  rcases fails_seq.1 h with hsign | ⟨_, _, _, _, _, _, hbody⟩
  · exact fails_text.1 hsign ⟨tail, rfl⟩
  · exact not_fails_star hbody

theorem skip_eq_self {s : List Char} (hblank : Stops isBlank s)
    (hcomment : ∀ tail, s ≠ '#' :: tail) : rules.skip s = s := by
  cases s with
  | nil => rfl
  | cons c s =>
    apply skip_cons_of_solid (Peg.stops_cons.1 hblank)
    rintro rfl
    exact hcomment s rfl

/-- The loop over comments, started behind blanks, takes all layout. -/
theorem skip_of_comments
    (h : rules.Reads (.star (tight [pattern .comment, .star (pattern .blank)])) pos w rest nodes)
    (hblank : Stops isBlank (w ++ rest)) : rules.skip (w ++ rest) = rest ∧ nodes = [] := by
  revert hblank
  apply h.star_induction
    (motive := fun _ w nodes =>
      Stops isBlank (w ++ rest) → rules.skip (w ++ rest) = rest ∧ nodes = [])
  · intro hfails _ hblank
    refine ⟨skip_eq_self hblank ?_, rfl⟩
    rcases fails_seq.1 hfails with hcomment | ⟨_, _, _, _, _, _, hblanks⟩
    · exact fails_comment hcomment
    · exact absurd hblanks not_fails_star
  · intro pos front back before behind hround _ ih _
    obtain ⟨_, blanks, _, _, rfl, rfl, hcomment, hblanks⟩ := reads_seq.1 hround
    obtain ⟨body, rfl, hbody, hend, rfl⟩ := reads_comment hcomment
    obtain ⟨hall, hstops, rfl⟩ := reads_star_char.1 hblanks
    obtain ⟨hskip, rfl⟩ := ih hstops
    refine ⟨?_, rfl⟩
    calc
      rules.skip (('#' :: body ++ blanks ++ back) ++ rest) =
          rules.skip ('#' :: (body ++ (blanks ++ (back ++ rest)))) := by simp
      _ = rules.skip (blanks ++ (back ++ rest)) := skip_comment hbody hend
      _ = rules.skip (back ++ rest) := skip_blanks hall _
      _ = rest := hskip

theorem skip_of_spacing (h : rules.Reads spacing pos w rest nodes) :
    rules.skip (w ++ rest) = rest ∧ nodes = [] := by
  obtain ⟨blanks, back, _, _, rfl, rfl, hblanks, hcomments⟩ := reads_seq.1 h
  obtain ⟨hall, hstops, rfl⟩ := reads_star_char.1 hblanks
  obtain ⟨hskip, rfl⟩ := skip_of_comments hcomments hstops
  rw [List.append_assoc, skip_blanks hall]
  exact ⟨hskip, rfl⟩

theorem guarded_spacing : spacing.guarded ranking.consuming = true := rfl

theorem exists_reads_spacing (s : List Char) :
    ∃ pos w rest nodes, s = w ++ rest ∧ rules.Reads spacing pos w rest nodes := by
  apply Classical.byContradiction
  intro hnone
  have hfails : rules.Fails spacing s := by
    apply ranking.fails_of_not_reads guarded_spacing
    intro pos w rest nodes hs hread
    exact hnone ⟨pos, w, rest, nodes, hs, hread⟩
  rcases fails_seq.1 hfails with hblanks | ⟨_, _, _, _, _, _, hcomments⟩
  · exact not_fails_star hblanks
  · exact not_fails_star hcomments

/-- The loops take exactly the layout that a text begins with. -/
theorem reads_layout_iff_spacing :
    rules.Reads .layout pos w rest nodes ↔ rules.Reads spacing pos w rest nodes := by
  rw [reads_layout]
  constructor
  · rintro ⟨hskip, rfl⟩
    obtain ⟨pos', w', rest', nodes', hs, hread⟩ := exists_reads_spacing (w ++ rest)
    obtain ⟨hskip', -⟩ := skip_of_spacing hread
    rw [← hs, hskip] at hskip'
    subst hskip'
    obtain rfl := List.append_cancel_right hs
    obtain ⟨nodes, hread⟩ := hread.at pos
    obtain ⟨-, rfl⟩ := skip_of_spacing hread
    exact hread
  · exact skip_of_spacing

/-! ## All rules -/

/-- Matching a rule ends for every text, with a match or a failure that no more fuel changes.  Fuel
counts how deep calls go, and every call leaves less text or goes to a lower pattern: a rule that is
reached again has less text left, and what is repeated takes a character in each round, in the loops
over layout too. -/
theorem matching_ends (rule : Rule) (text : List Char) :
    ((∃ trees rest, rules.parse rule text = .matched trees rest) ∨
      rules.parse rule text = .failed) ∧
    (∀ fuel, rules.fuelFor text ≤ fuel →
      rules.run fuel (.rule rule) text = rules.parse rule text) ∧
    (∀ fuel, rules.run fuel (.rule rule) text = .exhausted ↔
      rules.Deep fuel (.rule rule, text)) ∧
    (∀ c d, ReflTransGen rules.Calls (.rule rule, text) c → rules.Calls c d →
      ranking.Descends c d) ∧
    (∀ r s t, TransGen rules.Calls (rules.pattern r, s) (rules.pattern r, t) →
      t.length < s.length) ∧
    (∀ p, p = spacing ∨ (∃ r, p = rules.pattern r) → ∀ body ∈ p.repeated, ∀ pos w rest nodes,
      rules.Reads body pos w rest nodes → w ≠ []) ∧
    ∀ pos w rest nodes,
      rules.Reads .layout pos w rest nodes ↔ rules.Reads spacing pos w rest nodes := by
  have hends := ranking.parse_ne_exhausted (s := text) rule
  refine ⟨?_, ?_, ?_, ?_, ?_, ?_, ?_⟩
  · cases hparse : rules.parse rule text with
    | matched trees rest => exact .inl ⟨trees, rest, rfl⟩
    | failed => exact .inr rfl
    | exhausted => exact absurd hparse hends
  · intro fuel hfuel
    exact run_mono rules hends hfuel
  · intro fuel
    exact run_exhausted_iff_deep
  · intro c d hreached hcalls
    exact ranking.descends_of_transGen (.single hcalls)
      (ranking.guarded_of_reflTransGen hreached rfl)
  · intro r s t hagain
    exact ranking.length_lt_of_transGen hagain (ranking.guarded r)
  · intro p hp body hbody pos w rest nodes hread
    have hguarded : p.guarded ranking.consuming = true := by
      rcases hp with rfl | ⟨r, rfl⟩
      · exact guarded_spacing
      · exact ranking.guarded r
    exact ranking.ne_nil_of_reads hread (Pattern.consumes_of_mem_repeated hguarded hbody)
  · intro pos w rest nodes
    exact reads_layout_iff_spacing

end BlockScript.Grammar
