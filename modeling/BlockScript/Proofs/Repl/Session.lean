import BlockScript.Proofs.Machine.TopLevel
import BlockScript.Output.Buffer
import BlockScript.Repl.Session

/-!
# Sessions from input to input

Between two inputs of a session no block is open.  An input that is no program leaves the machine
alone, and a program only adds the names that its own statements bind, also when it fails.  So the
names of a session are always those bound since the start or since they were last cleared, in the
order in which that happened.
-/

namespace BlockScript

theorem trimmed_prefix (text : List Char) : trimmed text <+: text.dropWhile isWhiteSpace := by
  have hsuffix := List.dropWhile_suffix (l := (text.dropWhile isWhiteSpace).reverse) isWhiteSpace
  rw [← List.reverse_prefix, List.reverse_reverse] at hsuffix
  exact hsuffix

theorem isWhiteSpace_of_trimmed {text rest : List Char} {c : Char}
    (h : trimmed text = c :: rest) : isWhiteSpace c = false := by
  obtain ⟨behind, hbehind⟩ := trimmed_prefix text
  rw [h, List.cons_append] at hbehind
  have hhead := List.head?_dropWhile_not isWhiteSpace text
  rw [← hbehind] at hhead
  simpa using hhead

theorem firstWord_cons {c : Char} (h : isWhiteSpace c = false) (rest : List Char) :
    firstWord (c :: rest) = c :: rest.takeWhile fun d => !isWhiteSpace d := by
  simp [firstWord, h]

namespace Repl

variable {σ : Type}

/-! ## What an input does to the machine -/

/-- Whether an input is the command that forgets all the variables. -/
def clears (input : String) : Bool :=
  firstWord (trimmed input.toList) == "/clear".toList

/-- The statements that an input runs.  A blank, a comment and a command have none. -/
def statementsOf (input : String) : List Statement :=
  match trimmed input.toList with
  | [] | '#' :: _ | '/' :: _ => []
  | _ =>
    match Program.parse input (some "<repl>") with
    | .ok program => program.statements
    | .error _ => []

/-- How an input can end on a session, and what becomes of its machine. -/
inductive Effect [Writer σ] (fuel : Nat) (input : String) (s : Session σ) :
    EStateM.Result Failure (Session σ) Reply → Prop
  | ran {reply : Reply} {later : Session σ} (hclears : clears input = false)
      (hrun : Statement.execAll fuel (statementsOf input) s.machine = .ok () later.machine) :
      Effect fuel input s (.ok reply later)
  | failed {halt : Halt} {later : Session σ} (hclears : clears input = false)
      (hrun : Statement.execAll fuel (statementsOf input) s.machine = .error halt later.machine) :
      Effect fuel input s (.error (.ofHalt halt) later)
  | refused {failure : Failure} {later : Session σ} (hclears : clears input = false)
      (hnone : statementsOf input = []) (hmachine : later.machine = s.machine) :
      Effect fuel input s (.error failure later)
  | cleared {reply : Reply} {later : Session σ} (hclears : clears input = true)
      (hmachine : later.machine = { s.machine with environment := .empty }) :
      Effect fuel input s (.ok reply later)

theorem clears_of_head {input : String} {c : Char} {rest : List Char}
    (h : trimmed input.toList = c :: rest) (hc : c ≠ '/') : clears input = false := by
  rw [clears, h, firstWord_cons (isWhiteSpace_of_trimmed h)]
  simp [hc]

theorem Effect.idle [Writer σ] {fuel : Nat} {input : String} {s later : Session σ} {reply : Reply}
    (hclears : clears input = false) (hnone : statementsOf input = [])
    (hmachine : later.machine = s.machine) : Effect fuel input s (.ok reply later) := by
  refine .ran hclears ?_
  rw [hnone, Statement.execAll, hmachine]
  rfl

/-- An input that fails without a run leaves the machine as it was. -/
theorem Effect.machine_eq [Writer σ] {fuel : Nat} {input : String} {s later : Session σ}
    {r : EStateM.Result Failure (Session σ) Reply} {failure : Failure} (h : Effect fuel input s r)
    (hr : r = .error failure later) (hfailure : ∀ halt, failure ≠ .ofHalt halt) :
    later.machine = s.machine := by
  cases h with
  | failed hclears hrun =>
    cases hr
    exact absurd rfl (hfailure _)
  | refused hclears hnone hmachine =>
    cases hr
    exact hmachine
  | _ => cases hr

theorem command_effect [Writer σ] (fuel : Nat) (input : String) (s : Session σ)
    {rest : List Char} (h : trimmed input.toList = '/' :: rest) :
    Effect fuel input s (command (String.ofList (firstWord ('/' :: rest))) s) := by
  have hnone : statementsOf input = [] := by
    simp only [statementsOf, h]
  have hclears : clears input = decide (String.ofList (firstWord ('/' :: rest)) = "/clear") := by
    rw [clears, h, Bool.eq_iff_iff, beq_iff_eq, decide_eq_true_iff, ← String.toList_inj]
    simp only [String.toList_ofList]
  generalize String.ofList (firstWord ('/' :: rest)) = name at hclears
  unfold command
  dsimp only
  split
  case h_5 => exact .cleared hclears rfl
  case h_11 => exact .refused (hclears.trans (decide_eq_false (by assumption))) hnone rfl
  all_goals exact .idle hclears hnone rfl

/-- Statements run for their replies end like the same statements run alone. -/
theorem replies_end [Writer σ] (fuel : Nat) (statements : List Statement) (m : Machine σ) :
    (∃ reply later, replies fuel statements m = .ok reply later ∧
        Statement.execAll fuel statements m = .ok () later) ∨
      ∃ halt later, replies fuel statements m = .error halt later ∧
        Statement.execAll fuel statements m = .error halt later := by
  unfold replies
  generalize Reply.nothing = first
  induction statements generalizing first m with
  | nil =>
    rw [List.foldlM_nil, Statement.execAll]
    exact .inl ⟨first, m, rfl, rfl⟩
  | cons statement rest ih =>
    rw [List.foldlM_cons]
    cases hrun : statement.exec fuel m with
    | ok value later =>
      have hreply : (do return replyOf statement (← statement.exec fuel) : Execution σ Reply) m =
          .ok (replyOf statement value) later := bind_of_ok hrun _
      rw [bind_of_ok hreply, Statement.execAll_cons_of_ok hrun]
      exact ih later (replyOf statement value)
    | error halt later =>
      have hreply : (do return replyOf statement (← statement.exec fuel) : Execution σ Reply) m =
          .error halt later := bind_of_error hrun _
      rw [bind_of_error hreply, Statement.execAll_cons_of_error hrun]
      exact .inr ⟨halt, later, rfl, rfl⟩

theorem runInput_effect [Writer σ] (fuel : Nat) (input : String) (s : Session σ)
    (hclears : clears input = false)
    (hstatements : statementsOf input =
      match Program.parse input (some "<repl>") with
      | .ok program => program.statements
      | .error _ => []) :
    Effect fuel input s (runInput fuel input s) := by
  unfold runInput
  cases hparse : Program.parse input (some "<repl>") with
  | error error =>
    rw [hparse] at hstatements
    exact .refused hclears hstatements rfl
  | ok program =>
    rw [hparse] at hstatements
    rcases replies_end fuel program.statements s.machine with
      ⟨reply, later, hreplies, hrun⟩ | ⟨halt, later, hreplies, hrun⟩
    · simp only [hreplies]
      exact .ran hclears (by rw [hstatements, hrun])
    · simp only [hreplies]
      exact .failed hclears (by rw [hstatements, hrun])

theorem evaluate_effect [Writer σ] (fuel : Nat) (input : String) (s : Session σ) :
    Effect fuel input s (evaluate fuel input s) := by
  cases htext : trimmed input.toList with
  | nil =>
    simp only [evaluate, htext]
    exact .idle (by simp [clears, htext, firstWord]) (by simp only [statementsOf, htext]) rfl
  | cons c rest =>
    by_cases hcommand : c = '/'
    · subst hcommand
      simp only [evaluate, htext]
      exact command_effect fuel input s htext
    · have hclears := clears_of_head htext hcommand
      by_cases hcomment : c = '#'
      · subst hcomment
        simp only [evaluate, htext]
        exact .idle hclears (by simp only [statementsOf, htext]) rfl
      · have hprogram : evaluate fuel input s = runInput fuel input s := by
          simp [evaluate, htext, hcommand, hcomment]
        rw [hprogram]
        refine runInput_effect fuel input s hclears ?_
        simp [statementsOf, htext, hcommand, hcomment]

/-! ## Sequences of inputs -/

namespace Session

variable [Writer σ]

/-- The session after an input, however that ends. -/
def next (fuel : Nat) (s : Session σ) (input : String) : Session σ :=
  finalState (evaluate fuel input) s

/-- The session after inputs, one after the other. -/
def after (fuel : Nat) (s : Session σ) (inputs : List String) : Session σ :=
  inputs.foldl (next fuel) s

/-- The names that inputs bind, in the order in which they do so first.  Those in `names` are bound
before, and clearing forgets what came before it. -/
def bindingOrder (fuel : Nat) : Session σ → List String → List String → List String
  | _, names, [] => names
  | s, names, input :: rest =>
    bindingOrder fuel (s.next fuel input)
      (if clears input then []
        else names ++ Statement.newNames fuel (statementsOf input) s.machine) rest

/-- What an input leaves of the machine of a session.  Where it failed and has bound a name, this
was done by one of its own statements and not by a statement inside of another. -/
structure Preserves (fuel : Nat) (s : Session σ) (input : String) : Prop where
  unread : ∀ error later, evaluate fuel input s = .error (.parse error) later →
    later.machine = s.machine
  unknown : ∀ name later, evaluate fuel input s = .error (.unknownCommand name) later →
    later.machine = s.machine
  kept : clears input = false → ∀ name, s.machine.environment.isBound name →
    (s.next fuel input).machine.environment.isBound name
  added : ∀ failure later, evaluate fuel input s = .error failure later →
    ∀ name, ¬s.machine.environment.isBound name → later.machine.environment.isBound name →
      ∃ before statement rest m, statementsOf input = before ++ statement :: rest ∧
        Statement.execAll fuel before s.machine = .ok () m ∧
        statement.newName? m.environment = some name

variable (fuel : Nat) {s : Session σ} {names : List String}

/-- No input that is not a clearing takes a name, and the names that it adds come last. -/
theorem next_rooted (input : String) (h : s.machine.environment.Rooted names) :
    (s.next fuel input).machine.environment.Rooted
      (if clears input then []
        else names ++ Statement.newNames fuel (statementsOf input) s.machine) := by
  have hgrows := Statement.grows_execAll fuel (statementsOf input) s.machine h.consistent
  have heffect := evaluate_effect fuel input s
  rw [next, finalState]
  generalize evaluate fuel input s = r at heffect
  cases heffect with
  | ran hclears hrun =>
    rw [finalState_of_ok hrun] at hgrows
    rw [if_neg (by simp [hclears])]
    exact h.grows hgrows
  | failed hclears hrun =>
    rw [finalState_of_error hrun] at hgrows
    rw [if_neg (by simp [hclears])]
    exact h.grows hgrows
  | refused hclears hnone hmachine =>
    rw [if_neg (by simp [hclears]), hnone, Statement.newNames, List.append_nil, hmachine]
    exact h
  | cleared hclears hmachine =>
    rw [if_pos hclears, hmachine]
    exact Environment.rooted_empty

theorem after_rooted (h : s.machine.environment.Rooted names) (inputs : List String) :
    (s.after fuel inputs).machine.environment.Rooted (s.bindingOrder fuel names inputs) := by
  induction inputs generalizing s names with
  | nil => exact h
  | cons input rest ih => exact ih (next_rooted fuel input h)

theorem preserves_of_rooted (input : String) (h : s.machine.environment.Rooted names) :
    s.Preserves fuel input := by
  have hnext := (next_rooted fuel input h).atRoot
  have heffect := evaluate_effect fuel input s
  refine ⟨?_, ?_, ?_, ?_⟩
  · intro error later hparse
    apply heffect.machine_eq hparse
    intro halt heq
    cases halt <;> cases heq
  · intro name later hunknown
    apply heffect.machine_eq hunknown
    intro halt heq
    cases halt <;> cases heq
  · intro hclears name hbound
    rw [if_neg (by simp [hclears])] at hnext
    rw [hnext.bound_iff]
    exact List.mem_append_left _ ((h.atRoot.bound_iff name).1 hbound)
  · intro failure later hfailed name hunbound hbound
    have hlater : s.next fuel input = later := finalState_of_error hfailed
    rw [← hlater, hnext.bound_iff] at hbound
    rw [h.atRoot.bound_iff] at hunbound
    split at hbound
    · cases hbound
    · rcases List.mem_append.1 hbound with hold | hnew
      · exact absurd hold hunbound
      · exact Statement.exists_of_mem_newNames hnew

/-- After any inputs no block is open, and the root has declared the bound names, each once and in
the order in which they were first bound since the start or the last clearing.  Whatever input
comes next, it leaves the machine alone if it cannot be read or names no command, it takes no name
unless it clears them all, and if it fails it has added names by its own statements only. -/
theorem after_atRoot_preserves (fuel : Nat) (output : σ) (config : Config)
    (inputs : List String) :
    ((new output config).after fuel inputs).machine.environment.AtRoot
        ((new output config).bindingOrder fuel [] inputs) ∧
      ∀ input, ((new output config).after fuel inputs).Preserves fuel input := by
  have hstart : (new output config).machine.environment.Rooted [] := Environment.rooted_empty
  have hafter := after_rooted fuel hstart inputs
  exact ⟨hafter.atRoot, fun input => preserves_of_rooted fuel input hafter⟩

example : (new Buffer.unbounded .standard).bindingOrder 3 []
    ["x = 1", "/clear", "b = 1; \x7b c = b \x7d", "a = b; d = a / 0", "b ="] = ["b", "a"] := by
  decide +kernel

end Session

end Repl

end BlockScript
