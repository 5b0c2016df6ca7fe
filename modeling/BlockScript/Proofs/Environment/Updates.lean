import BlockScript.Proofs.Environment.Growth

/-!
# What an evaluation can change

An evaluation assigns to variables that it has just read, and only to the targets of the steps and
updates in its expression.  It opens and closes no block and declares no name, so all that can be
different afterwards are the values of these targets.  This holds however the evaluation ends, since
it holds for each of its assignments.
-/

namespace BlockScript

namespace Environment

/-- The later environment has the same blocks, declarations and names, and other values for the
targets at most. -/
structure UpdatedIn (targets : List String) (env later : Environment) : Prop where
  depth : later.depth = env.depth
  declared : ∀ k, later.declaredAt? k = env.declaredAt? k
  bound : ∀ name, later.isBound name = env.isBound name
  values : ∀ name ∉ targets, later.get? name = env.get? name

theorem depth_eq_of_frames {env later : Environment} (h : later.frames = env.frames) :
    later.depth = env.depth := by
  rw [depth_eq, depth_eq, outer, outer, h]

theorem declaredAt?_eq_of_frames {env later : Environment} (h : later.frames = env.frames) (k : Nat) :
    later.declaredAt? k = env.declaredAt? k := by
  rw [declaredAt?_eq, declaredAt?_eq, declarations_eq, declarations_eq, h]

end Environment

namespace Expr

open Environment

/-- Evaluating an expression leaves the declaration sets as they are. -/
theorem frames_eval (e : Expr) (env : Environment) :
    (finalState e.eval env).frames = env.frames := by
  apply e.moves_eval (R := fun env later => later.frames = env.frames)
  · exact ⟨fun _ => rfl, fun hfirst hsecond => hsecond.trans hfirst⟩
  · intro env name value hbound
    rw [frames_assign, if_pos hbound]

theorem get?_eval {e : Expr} {name : String} (h : name ∉ e.targets) (env : Environment) :
    (finalState e.eval env).get? name = env.get? name := by
  apply e.moves_eval_targets (R := fun env later => later.get? name = env.get? name)
  · exact ⟨fun _ => rfl, fun hfirst hsecond => hsecond.trans hfirst⟩
  · intro env value target htarget _
    have hne : name ≠ target := by
      intro heq
      rw [heq] at h
      exact h htarget
    rw [get?_assign, if_neg hne]

theorem finalState_eval_of_no_targets {e : Expr} (h : e.targets = []) (env : Environment) :
    finalState e.eval env = env := by
  apply e.moves_eval_targets (R := fun env later => later = env)
  · exact ⟨fun _ => rfl, fun hfirst hsecond => hsecond.trans hfirst⟩
  · intro env value target htarget
    rw [h] at htarget
    exact absurd htarget List.not_mem_nil

/-- However an evaluation ends, it has changed nothing but values of targets of the expression.  An
expression without targets leaves the environment as it is, so evaluating it once more ends in the
same way. -/
theorem eval_updates_targets (e : Expr) (env : Environment) :
    env.UpdatedIn e.targets (finalState e.eval env) ∧
      (e.targets = [] →
        finalState e.eval env = env ∧ e.eval (finalState e.eval env) = e.eval env) := by
  have hframes := e.frames_eval env
  refine ⟨⟨?_, ?_, ?_, ?_⟩, ?_⟩
  · exact depth_eq_of_frames hframes
  · exact declaredAt?_eq_of_frames hframes
  · exact e.isBound_eval env
  · intro name hname
    exact get?_eval hname env
  · intro hnone
    have hsame := finalState_eval_of_no_targets hnone env
    exact ⟨hsame, by rw [hsame]⟩

end Expr

/-- A step is kept although the division by zero behind it fails. -/
theorem eval_updates_targets_division :
    let span : Span := ⟨0, 0, none⟩
    let zero : Expr := .integer 0 span
    let stepped : Expr := .binary .divide (.step .up .after ⟨"x", span⟩ span) zero span
    let plain : Expr := .binary .divide (.name ⟨"x", span⟩) zero span
    let env := Environment.after [.assign "y" .nil, .enter, .assign "x" (.integer 1)]
    (finalState stepped.eval env).get? "x" = some (.integer 2) ∧
      env.UpdatedIn ["x"] (finalState stepped.eval env) ∧
      plain.eval (finalState plain.eval env) = plain.eval env := by
  intro span zero stepped plain env
  refine ⟨by decide +kernel, (Expr.eval_updates_targets stepped env).1, ?_⟩
  exact ((Expr.eval_updates_targets plain env).2 rfl).2

end BlockScript
