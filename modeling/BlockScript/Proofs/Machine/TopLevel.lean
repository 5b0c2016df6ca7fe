import BlockScript.Proofs.Machine.Scope

/-!
# Statements outside of all blocks

At the root nothing is ever released: what a run leaves bound there are the names that were bound
before, and behind them the names that its statements added themselves, in their order.  The names
that blocks bind meanwhile are gone, also when the run is cut short.
-/

namespace BlockScript

/-! ## Environments without an open block -/

namespace Environment

/-- No block is open, and the root has declared exactly these names. -/
structure Rooted (env : Environment) (names : List String) : Prop where
  consistent : env.Consistent
  frames : env.frames = [names]

/-- What can be seen of an environment without an open block. -/
structure AtRoot (env : Environment) (names : List String) : Prop where
  depth : env.depth = 0
  declared : env.declaredAt? 0 = some names
  nodup : names.Nodup
  bound_iff : ∀ name, env.isBound name ↔ name ∈ names

theorem rooted_empty : empty.Rooted [] :=
  ⟨consistent_empty, rfl⟩

theorem Rooted.grows {env later : Environment} {names new : List String} (h : env.Rooted names)
    (hgrows : env.Grows later new) : later.Rooted (names ++ new) := by
  have hframes := h.frames
  rw [frames_eq] at hframes
  obtain ⟨hinnermost, houter⟩ := List.cons.inj hframes
  refine ⟨hgrows.consistent, ?_⟩
  rw [hgrows.frames, hinnermost, houter]

theorem Rooted.atRoot {env : Environment} {names : List String} (h : env.Rooted names) :
    env.AtRoot names := by
  have hdeclared : env.declared = names := by
    rw [Environment.declared, h.frames]
    simp
  refine ⟨?_, ?_, ?_, ?_⟩
  · rw [depth_eq, outer, h.frames]
    rfl
  · rw [declaredAt?_eq, declarations_eq, h.frames]
    rfl
  · rw [← hdeclared]
    exact h.consistent.nodup
  · intro name
    rw [← hdeclared]
    exact (h.consistent.declared_iff name).symm

end Environment

/-! ## The names that statements add -/

variable {σ : Type}

/-- The names that statements add to the innermost block, each statement that is started the one
it adds itself. -/
def Statement.newNames [Writer σ] (fuel : Nat) : List Statement → Machine σ → List String
  | [], _ => []
  | statement :: rest, m =>
    (statement.newName? m.environment).toList ++
      match statement.exec fuel m with
      | .ok _ later => Statement.newNames fuel rest later
      | .error _ _ => []

namespace Statement

variable [Writer σ] {fuel : Nat} {statement : Statement} {rest : List Statement}
  {m later : Machine σ}

theorem execAll_cons_of_ok {value : Option Value} (h : statement.exec fuel m = .ok value later) :
    execAll fuel (statement :: rest) m = execAll fuel rest later := by
  rw [execAll, bind_of_ok (discard_of_ok h)]

theorem execAll_cons_of_error {halt : Halt} (h : statement.exec fuel m = .error halt later) :
    execAll fuel (statement :: rest) m = .error halt later := by
  rw [execAll, bind_of_error (discard_of_error h)]

/-- However a run of statements ends, the innermost block has gained the names that the statements
added themselves. -/
theorem grows_execAll (fuel : Nat) (statements : List Statement) (m : Machine σ)
    (h : m.environment.Consistent) :
    m.environment.Grows (finalState (execAll fuel statements) m).environment
      (newNames fuel statements m) := by
  induction statements generalizing m with
  | nil =>
    rw [execAll, newNames]
    exact .refl h
  | cons statement rest ih =>
    have hfirst : m.environment.Grows (finalState (statement.exec fuel) m).environment
        (statement.newName? m.environment).toList := statement.growsBy_exec fuel m h
    rw [finalState, newNames]
    cases hrun : statement.exec fuel m with
    | ok value later =>
      rw [finalState_of_ok hrun] at hfirst
      rw [execAll_cons_of_ok hrun]
      exact hfirst.trans (ih later hfirst.consistent)
    | error halt later =>
      rw [finalState_of_error hrun] at hfirst
      rw [execAll_cons_of_error hrun, List.append_nil]
      exact hfirst

/-- An added name is the one that some statement adds after the statements before it have come to
their end. -/
theorem exists_of_mem_newNames {statements : List Statement} {m : Machine σ} {name : String}
    (h : name ∈ newNames fuel statements m) :
    ∃ before statement rest later, statements = before ++ statement :: rest ∧
      execAll fuel before m = .ok () later ∧ statement.newName? later.environment = some name := by
  induction statements generalizing m with
  | nil => cases h
  | cons statement rest ih =>
    rw [newNames, List.mem_append, Option.mem_toList] at h
    rcases h with hfirst | hrest
    · exact ⟨[], statement, rest, m, rfl, by rw [execAll]; rfl, hfirst⟩
    · cases hrun : statement.exec fuel m with
      | ok value later =>
        rw [hrun] at hrest
        obtain ⟨before, next, behind, last, rfl, hbefore, hnext⟩ := ih hrest
        exact ⟨statement :: before, next, behind, last, rfl,
          (execAll_cons_of_ok hrun).trans hbefore, hnext⟩
      | error halt later =>
        rw [hrun] at hrest
        cases hrest

end Statement

end BlockScript
