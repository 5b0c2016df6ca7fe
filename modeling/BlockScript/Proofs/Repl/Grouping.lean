import BlockScript.Proofs.Repl.Completeness
import Mathlib.Data.List.Forall2

/-!
# Lines fall into inputs

Lines at the prompt are taken together until they are complete.  What is pending is always the text
of the lines since the last input, and no beginning of these lines is complete.  So an input has the
text of the shortest group of lines that is complete, a blank line at a fresh prompt apart, which is
an empty input.  The groups follow each other without a gap, and only lines that never become
complete are left over.
-/

namespace BlockScript.Repl

/-- Neither the lines nor a part of them from the first line on are complete. -/
def Unfinished (lines : List String) : Prop :=
  ∀ front back, lines = front ++ back → front ≠ [] → isComplete (unlines front) = false

/-- The lines, read at a fresh prompt, are a group that makes the input. -/
inductive Makes : List String → String → Prop
  | blank {line : String} (hblank : trimmed line.toList = []) : Makes [line] ""
  | shortest {line : String} {rest : List String} (hvisible : trimmed line.toList ≠ [])
      (hcomplete : isComplete (unlines (line :: rest)) = true)
      (hshortest : ∀ front back, line :: rest = front ++ back → front ≠ [] → back ≠ [] →
        isComplete (unlines front) = false) :
      Makes (line :: rest) (unlines (line :: rest))

@[simp] theorem unlines_singleton (line : String) : unlines [line] = line :=
  String.intercalate_singleton

theorem unlines_concat {lines : List String} (h : lines ≠ []) (line : String) :
    unlines (lines ++ [line]) = unlines lines ++ "\n" ++ line := by
  rw [unlines, String.intercalate_append_of_ne_nil h (by simp)]
  simp [unlines]

/-! ## Pending lines -/

section Pending

variable {front : List String}

theorem unfinished_nil : Unfinished [] := by
  intro front back hsplit hfront
  exact absurd (List.append_eq_nil_iff.1 hsplit.symm).1 hfront

theorem Unfinished.isComplete_eq_false (h : Unfinished front) (hfront : front ≠ []) :
    isComplete (unlines front) = false :=
  h front [] (List.append_nil front).symm hfront

/-- The text of pending lines is not empty, since the empty text is complete. -/
theorem Unfinished.isEmpty_unlines_iff (h : Unfinished front) :
    (unlines front).isEmpty = true ↔ front = [] := by
  constructor
  · intro hempty
    by_contra hfront
    have hopen := h.isComplete_eq_false hfront
    rw [String.isEmpty_iff.1 hempty] at hopen
    cases hopen
  · rintro rfl
    rfl

/-- A line is added to the pending lines as one more line. -/
theorem Unfinished.joined_unlines (h : Unfinished front) (line : String) :
    joined (unlines front) line = unlines (front ++ [line]) := by
  by_cases hfront : front = []
  · rw [joined, if_pos (h.isEmpty_unlines_iff.2 hfront), hfront]
    simp
  · rw [joined, if_neg (mt h.isEmpty_unlines_iff.1 hfront), unlines_concat hfront]

/-- One more line completes nothing that ends before it. -/
theorem Unfinished.isComplete_before (h : Unfinished front) {line : String}
    {before behind : List String} (hsplit : front ++ [line] = before ++ behind)
    (hbefore : before ≠ []) (hbehind : behind ≠ []) : isComplete (unlines before) = false := by
  obtain ⟨more, last, rfl⟩ := (List.eq_nil_or_concat behind).resolve_left hbehind
  rw [List.concat_eq_append, ← List.append_assoc] at hsplit
  exact h before more (List.append_inj_left' hsplit rfl) hbefore

theorem Unfinished.concat (h : Unfinished front) {line : String}
    (hline : isComplete (unlines (front ++ [line])) = false) : Unfinished (front ++ [line]) := by
  intro before behind hsplit hbefore
  by_cases hbehind : behind = []
  · rw [hbehind, List.append_nil] at hsplit
    rw [← hsplit]
    exact hline
  · exact h.isComplete_before hsplit hbefore hbehind

/-- With a line that completes them, the pending lines are a shortest complete group. -/
theorem Unfinished.makes (h : Unfinished front) {line : String}
    (hline : isComplete (unlines (front ++ [line])) = true)
    (hvisible : front = [] → trimmed line.toList ≠ []) :
    Makes (front ++ [line]) (unlines (front ++ [line])) := by
  cases front with
  | nil => exact .shortest (hvisible rfl) hline fun _ _ => h.isComplete_before
  | cons first rest =>
    refine .shortest ?_ hline fun _ _ => h.isComplete_before
    -- a blank first line would have been complete alone
    intro hblank
    have hopen := h [first] rest rfl (by simp)
    rw [unlines_singleton, isComplete_of_blank hblank] at hopen
    cases hopen

/-- What a line does to the pending lines: it ends their group or is pending with them. -/
theorem feed_unfinished (h : Unfinished front) (line : String) :
    (∃ input, Makes (front ++ [line]) input ∧ feed (unlines front) line = .input input) ∨
      Unfinished (front ++ [line]) ∧
        feed (unlines front) line = .pending (unlines (front ++ [line])) := by
  by_cases hblank : front = [] ∧ trimmed line.toList = []
  · obtain ⟨rfl, hline⟩ := hblank
    refine .inl ⟨"", .blank hline, ?_⟩
    simp [feed, unlines, hline]
  · have hvisible : ¬((unlines front).isEmpty && (trimmed line.toList).isEmpty) = true := by
      rwa [Bool.and_eq_true, h.isEmpty_unlines_iff, List.isEmpty_iff]
    rw [feed_of_visible hvisible, h.joined_unlines]
    by_cases hcomplete : isComplete (unlines (front ++ [line])) = true
    · rw [if_pos hcomplete]
      exact .inl ⟨_, h.makes hcomplete fun hfront hline => hblank ⟨hfront, hline⟩, rfl⟩
    · rw [if_neg hcomplete]
      exact .inr ⟨h.concat (Bool.eq_false_iff.2 hcomplete), rfl⟩

/-- Reading goes on to the end of the first group, or to the end of the lines if there is none. -/
theorem readInput_unfinished (h : Unfinished front) (lines : List String) :
    (∃ back rest input, lines = back ++ rest ∧ Makes (front ++ back) input ∧
        readInput (unlines front) lines = some (input, rest)) ∨
      Unfinished (front ++ lines) ∧ readInput (unlines front) lines = none := by
  induction lines generalizing front with
  | nil =>
    rw [List.append_nil]
    exact .inr ⟨h, rfl⟩
  | cons line lines ih =>
    rcases feed_unfinished h line with ⟨input, hmakes, hfeed⟩ | ⟨hopen, hfeed⟩
    · exact .inl ⟨[line], lines, input, rfl, hmakes, by rw [readInput, hfeed]⟩
    · have hread : readInput (unlines front) (line :: lines) =
          readInput (unlines (front ++ [line])) lines := by
        rw [readInput, hfeed]
      rw [hread, List.append_cons front line lines]
      rcases ih hopen with ⟨back, rest, input, rfl, hmakes, hrest⟩ | hnone
      · refine .inl ⟨line :: back, rest, input, rfl, ?_, hrest⟩
        rwa [List.append_cons]
      · exact .inr hnone

end Pending

/-! ## One group after the other -/

section Groups

variable {group other rest more : List String} {input : String}

theorem Makes.isComplete (h : Makes group input) : isComplete (unlines group) = true := by
  cases h with
  | blank hblank =>
    rw [unlines_singleton]
    exact isComplete_of_blank hblank
  | shortest _ hcomplete _ => exact hcomplete

theorem Makes.ne_nil (h : Makes group input) : group ≠ [] := by
  cases h <;> simp

theorem Makes.isComplete_front (h : Makes group input) {front back : List String}
    (hsplit : group = front ++ back) (hfront : front ≠ []) (hback : back ≠ []) :
    Repl.isComplete (unlines front) = false := by
  cases h with
  | blank hblank =>
    rcases List.append_eq_singleton_iff.1 hsplit.symm with ⟨hnil, -⟩ | ⟨-, hnil⟩
    · exact absurd hnil hfront
    · exact absurd hnil hback
  | shortest _ _ hshortest => exact hshortest front back hsplit hfront hback

theorem Makes.not_unfinished (h : Makes group input) : ¬Unfinished (group ++ rest) := by
  intro hopen
  have hgroup := hopen group rest rfl h.ne_nil
  rw [h.isComplete] at hgroup
  cases hgroup

/-- Lines begin with one group at most. -/
theorem Makes.unique {input' : String} (h : Makes group input) (h' : Makes other input')
    (heq : group ++ rest = other ++ more) : group = other ∧ rest = more ∧ input = input' := by
  have hgroup : group = other ∧ rest = more := by
    rcases List.append_eq_append_iff.1 heq with ⟨tail, hother, hrest⟩ | ⟨tail, hgroup, hmore⟩
    · by_cases htail : tail = []
      · subst htail
        simp [hother, hrest]
      · have hopen := h'.isComplete_front hother h.ne_nil htail
        rw [h.isComplete] at hopen
        cases hopen
    · by_cases htail : tail = []
      · subst htail
        simp [hgroup, hmore]
      · have hopen := h.isComplete_front hgroup h'.ne_nil htail
        rw [h'.isComplete] at hopen
        cases hopen
  obtain ⟨rfl, rfl⟩ := hgroup
  refine ⟨rfl, rfl, ?_⟩
  cases h with
  | blank hblank =>
    cases h' with
    | blank => rfl
    | shortest hvisible => exact absurd hblank hvisible
  | shortest hvisible =>
    cases h' with
    | blank hblank => exact absurd hblank hvisible
    | shortest => rfl

theorem readInput_of_makes (h : Makes group input) :
    readInput "" (group ++ rest) = some (input, rest) := by
  rcases readInput_unfinished unfinished_nil (group ++ rest) with
    ⟨other, more, input', hlines, hmakes, hread⟩ | ⟨hopen, -⟩
  · obtain ⟨-, rfl, rfl⟩ := h.unique hmakes hlines
    exact hread
  · exact absurd hopen h.not_unfinished

theorem readInput_of_unfinished (h : Unfinished rest) : readInput "" rest = none := by
  rcases readInput_unfinished unfinished_nil rest with
    ⟨group, more, input, rfl, hmakes, -⟩ | ⟨-, hread⟩
  · exact absurd h hmakes.not_unfinished
  · exact hread

theorem inputs_of_some {lines : List String} (h : readInput "" lines = some (input, rest)) :
    inputs lines = input :: inputs rest := by
  rw [inputs]
  split
  · rename_i hnone
    rw [h] at hnone
    cases hnone
  · rename_i hsome
    rw [h] at hsome
    cases hsome
    rfl

theorem inputs_of_none {lines : List String} (h : readInput "" lines = none) :
    inputs lines = [] := by
  rw [inputs]
  split
  · rfl
  · rename_i hsome
    rw [h] at hsome
    cases hsome

theorem inputs_of_groups {groups : List (List String)} {results : List String}
    (hgroups : List.Forall₂ Makes groups results) (hrest : Unfinished rest) :
    inputs (groups.flatten ++ rest) = results := by
  induction hgroups with
  | nil => exact inputs_of_none (readInput_of_unfinished hrest)
  | cons hmakes _ ih =>
    rw [List.flatten_cons, List.append_assoc, inputs_of_some (readInput_of_makes hmakes), ih]

/-- All lines fall into groups, up to some that are not finished. -/
theorem exists_groups (lines : List String) :
    ∃ groups results rest, lines = groups.flatten ++ rest ∧ List.Forall₂ Makes groups results ∧
      Unfinished rest := by
  induction hlength : lines.length using Nat.strongRecOn generalizing lines with
  | _ length ih =>
    rcases readInput_unfinished unfinished_nil lines with
      ⟨group, more, input, rfl, hmakes, hread⟩ | ⟨hopen, -⟩
    · obtain ⟨groups, results, rest, rfl, hgroups, hrest⟩ :=
        ih more.length (hlength ▸ length_lt_of_readInput hread) more rfl
      exact ⟨group :: groups, input :: results, rest, by simp, .cons hmakes hgroups, hrest⟩
    · exact ⟨[], [], lines, rfl, .nil, hopen⟩

end Groups

/-- The inputs that lines make are those of the groups that the lines fall into, in order.  No line
is lost or taken twice, but for lines at the end that never become complete: these make no input. -/
theorem inputs_eq_iff_groups (lines results : List String) :
    inputs lines = results ↔
      ∃ groups rest, lines = groups.flatten ++ rest ∧ List.Forall₂ Makes groups results ∧
        Unfinished rest := by
  constructor
  · rintro rfl
    obtain ⟨groups, results, rest, rfl, hgroups, hrest⟩ := exists_groups lines
    rw [inputs_of_groups hgroups hrest]
    exact ⟨groups, rest, rfl, hgroups, hrest⟩
  · rintro ⟨groups, rest, rfl, hgroups, hrest⟩
    exact inputs_of_groups hgroups hrest

end BlockScript.Repl
