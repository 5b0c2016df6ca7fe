import BlockScript.Proofs.Peg.Reading

/-!
# Calls of a match

Matching a pattern calls for matching others: its parts, from left to right as far as the text goes
along, and the pattern of a rule.  Fuel runs out exactly where calls go as deep as there is fuel.
-/

namespace BlockScript.Peg

variable {ρ : Type}

namespace Grammar

/-- To match the first pattern at its text, the second one is matched at its own. -/
inductive Calls (g : Grammar ρ) : Pattern ρ × List Char → Pattern ρ × List Char → Prop
  | first {p q : Pattern ρ} {s : List Char} : Calls g (.seq p q, s) (p, s)
  | second {p q : Pattern ρ} {pos : Position} {w rest : List Char} {nodes : List (Node ρ)}
      (h : g.Reads p pos w rest nodes) : Calls g (.seq p q, w ++ rest) (q, rest)
  | choice {p q : Pattern ρ} {s : List Char} : Calls g (.alt p q, s) (p, s)
  | otherwise {p q : Pattern ρ} {s : List Char} (h : g.Fails p s) : Calls g (.alt p q, s) (q, s)
  | round {p : Pattern ρ} {s : List Char} : Calls g (.star p, s) (p, s)
  | again {p : Pattern ρ} {pos : Position} {w rest : List Char} {nodes : List (Node ρ)}
      (h : g.Reads p pos w rest nodes) : Calls g (.star p, w ++ rest) (.star p, rest)
  | option {p : Pattern ρ} {s : List Char} : Calls g (.opt p, s) (p, s)
  | absence {p : Pattern ρ} {s : List Char} : Calls g (.absent p, s) (p, s)
  | rule {r : ρ} {s : List Char} : Calls g (.rule r, s) (g.pattern r, s)

theorem Calls.suffix {g : Grammar ρ} {c d : Pattern ρ × List Char} (h : g.Calls c d) :
    d.2 <:+ c.2 := by
  cases h with
  | second | again => exact List.suffix_append _ _
  | _ => exact List.suffix_refl _

/-- There are so many calls, each one below the call before it. -/
def Deep (g : Grammar ρ) : Nat → Pattern ρ × List Char → Prop
  | 0, _ => True
  | n + 1, c => ∃ d, g.Calls c d ∧ g.Deep n d

variable {g : Grammar ρ} {p : Pattern ρ} {s w rest : List Char} {pos : Position}
  {nodes : List (Node ρ)} {fuel : Nat}

theorem Reads.run_cases (h : g.Reads p pos w rest nodes) (fuel : Nat) :
    g.run fuel p (w ++ rest) = .exhausted ∨
      ∃ trees, g.run fuel p (w ++ rest) = .matched trees rest := by
  obtain ⟨trees, hgives, -⟩ := reads_iff_gives.1 h
  rcases hgives.run_cases fuel with hrun | hrun
  · exact .inl hrun
  · exact .inr ⟨trees, hrun⟩

/-- A call that runs out of fuel exhausts the match that makes it. -/
theorem Calls.run_exhausted {c d : Pattern ρ × List Char} (h : g.Calls c d)
    (hd : g.run fuel d.1 d.2 = .exhausted) : g.run (fuel + 1) c.1 c.2 = .exhausted := by
  cases h with
  | first | choice | round | option | absence | rule =>
    change g.run fuel _ _ = .exhausted at hd
    simp only [run, hd]
  | second hread | again hread =>
    change g.run fuel _ _ = .exhausted at hd
    rcases hread.run_cases fuel with hrun | ⟨trees, hrun⟩
    · simp only [run, hrun]
    · simp only [run, hrun, hd]
  | otherwise hfails =>
    change g.run fuel _ _ = .exhausted at hd
    rcases (fails_iff_gives.1 hfails).run_cases fuel with hrun | hrun
    · simp only [run, hrun]
    · simp only [run, hrun, hd]

/-- An exhausted match has made a call that ran out of fuel. -/
theorem exists_calls_of_exhausted (h : g.run (fuel + 1) p s = .exhausted) :
    ∃ d, g.Calls (p, s) d ∧ g.run fuel d.1 d.2 = .exhausted := by
  cases p with
  | text chars =>
    rw [run] at h
    split at h <;> cases h
  | char test =>
    cases s with
    | nil => cases h
    | cons c s =>
      rw [run] at h
      split at h <;> cases h
  | layout => cases h
  | finish =>
    rw [run] at h
    split at h <;> cases h
  | seq first second =>
    rw [run] at h
    split at h
    · rename_i hfirst
      split at h
      · cases h
      · cases h
      · rename_i hsecond
        rw [← textOf_run g _ _ _ hfirst]
        exact ⟨_, .second (reads_of_run .start hfirst), hsecond⟩
    · cases h
    · rename_i hfirst
      exact ⟨_, .first, hfirst⟩
  | alt first second =>
    rw [run] at h
    split at h
    · cases h
    · rename_i hfirst
      exact ⟨_, .otherwise ⟨fuel, hfirst⟩, h⟩
    · rename_i hfirst
      exact ⟨_, .choice, hfirst⟩
  | star body =>
    rw [run] at h
    split at h
    · rename_i hbody
      split at h
      · cases h
      · cases h
      · rename_i hmore
        rw [← textOf_run g _ _ _ hbody]
        exact ⟨_, .again (reads_of_run .start hbody), hmore⟩
    · cases h
    · rename_i hbody
      exact ⟨_, .round, hbody⟩
  | opt body =>
    rw [run] at h
    split at h
    · cases h
    · cases h
    · rename_i hbody
      exact ⟨_, .option, hbody⟩
  | absent body =>
    rw [run] at h
    split at h
    · cases h
    · cases h
    · rename_i hbody
      exact ⟨_, .absence, hbody⟩
  | rule r =>
    rw [run] at h
    split at h
    · cases h
    · cases h
    · rename_i hbody
      exact ⟨_, .rule, hbody⟩

/-- Fuel runs out exactly if calls go as deep as there is fuel. -/
theorem run_exhausted_iff_deep :
    g.run fuel p s = .exhausted ↔ g.Deep fuel (p, s) := by
  induction fuel generalizing p s with
  | zero => exact iff_of_true rfl trivial
  | succ fuel ih =>
    constructor
    · intro h
      obtain ⟨⟨q, t⟩, hcalls, hd⟩ := exists_calls_of_exhausted h
      exact ⟨(q, t), hcalls, ih.1 hd⟩
    · rintro ⟨⟨q, t⟩, hcalls, hd⟩
      exact hcalls.run_exhausted (ih.2 hd)

end Grammar

end BlockScript.Peg
