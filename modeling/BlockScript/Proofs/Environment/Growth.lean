import BlockScript.Proofs.Computation
import BlockScript.Proofs.Environment.Consistency
import BlockScript.Evaluate

/-!
# Growing environments

Whatever runs between the opening and the closing of a block can only add names to the innermost
declaration set.  Closing the block takes away exactly the names that were added.  Evaluating an
expression adds no name at all.
-/

namespace BlockScript

namespace Environment

/-- The later environment has the names `new` in addition, and they belong to the innermost
block. -/
structure Grows (env later : Environment) (new : List String) : Prop where
  consistent : later.Consistent
  frames : later.frames = (env.innermost ++ new) :: env.outer
  bound_iff : ∀ name, later.isBound name ↔ env.isBound name ∨ name ∈ new

namespace Grows

variable {env later last : Environment} {new more : List String}

theorem refl (h : env.Consistent) : env.Grows env [] := by
  refine ⟨h, ?_, ?_⟩
  · rw [List.append_nil]
    exact env.frames_eq
  · intro name
    simp

theorem innermost_eq (h : env.Grows later new) : later.innermost = env.innermost ++ new := by
  have hframes := h.frames
  rw [later.frames_eq, List.cons.injEq] at hframes
  exact hframes.1

theorem outer_eq (h : env.Grows later new) : later.outer = env.outer := by
  have hframes := h.frames
  rw [later.frames_eq, List.cons.injEq] at hframes
  exact hframes.2

theorem trans (hfirst : env.Grows later new) (hsecond : later.Grows last more) :
    env.Grows last (new ++ more) := by
  refine ⟨hsecond.consistent, ?_, ?_⟩
  · rw [hsecond.frames, hfirst.innermost_eq, hfirst.outer_eq, List.append_assoc]
  · intro name
    rw [hsecond.bound_iff, hfirst.bound_iff, List.mem_append, or_assoc]

theorem unbound (h : env.Grows later new) (hconsistent : env.Consistent) {name : String}
    (hname : name ∈ new) : ¬env.isBound name := by
  intro hbound
  have hnodup := h.consistent.nodup
  rw [declared_eq, h.innermost_eq, h.outer_eq, List.append_assoc] at hnodup
  obtain ⟨-, hrest, hinner⟩ := List.nodup_append.1 hnodup
  obtain ⟨-, -, houter⟩ := List.nodup_append.1 hrest
  have hdeclared := (hconsistent.declared_iff name).2 hbound
  rw [declared_eq, List.mem_append] at hdeclared
  rcases hdeclared with hmem | hmem
  · exact hinner name hmem name (List.mem_append_left _ hname) rfl
  · exact houter name hname name hmem rfl

theorem blocks_ne_nil (h : env.enter.Grows later new) : later.blocks ≠ [] := by
  intro hblocks
  have hlength := congrArg List.length h.outer_eq
  rw [← depth_eq, ← depth_eq, depth, hblocks] at hlength
  simp [depth, enter] at hlength

/-- Closing the block that was opened takes away what was added since. -/
theorem exit (h : env.enter.Grows later new) (hconsistent : env.Consistent) :
    env.Grows later.exit [] := by
  have hblocks := h.blocks_ne_nil
  have hinner : later.innermost = new := h.innermost_eq
  have houter : later.outer = env.frames := h.outer_eq
  refine ⟨h.consistent.exit, ?_, ?_⟩
  · rw [frames_exit hblocks, houter, List.append_nil]
    exact env.frames_eq
  · intro name
    have hafter := h.consistent.exit.declared_iff name
    rw [declared, frames_exit hblocks, houter] at hafter
    rw [← hafter, ← hconsistent.declared_iff name]
    simp [declared]

theorem assign_of_bound (h : env.Consistent) {name : String} (hbound : env.isBound name)
    (value : Value) : env.Grows (env.assign name value) [] := by
  refine ⟨h.assign name value, ?_, ?_⟩
  · rw [frames_assign, if_pos hbound, List.append_nil]
    exact env.frames_eq
  · intro other
    rw [isBound_assign]
    by_cases heq : other = name
    · simp [heq, hbound]
    · simp [heq]

theorem assign_of_unbound (h : env.Consistent) {name : String} (hunbound : ¬env.isBound name)
    (value : Value) : env.Grows (env.assign name value) [name] := by
  refine ⟨h.assign name value, ?_, ?_⟩
  · rw [frames_assign, if_neg hunbound]
  · intro other
    rw [isBound_assign, List.mem_singleton]
    simp [or_comm]

end Grows

/-- Nothing is added, if the environment is consistent. -/
def Keeps (env later : Environment) : Prop :=
  env.Consistent → env.Grows later []

theorem keeps_progression : Progression Keeps where
  refl := fun _ => Grows.refl
  trans := by
    intro env later last hfirst hsecond hconsistent
    have hgrown := hfirst hconsistent
    exact hgrown.trans (hsecond hgrown.consistent)

end Environment

/-! ## Evaluation -/

namespace Evaluation

variable {α : Type}

theorem finalState_within (span : Span) (x : Evaluation α) (env : Environment) :
    finalState (within span x) env = finalState x env := by
  cases hrun : x env with
  | ok a later => simp only [finalState, within, hrun]
  | error fault later => simp only [finalState, within, hrun]

theorem moves_within {R : Environment → Environment → Prop} {x : Evaluation α}
    (h : Moves R x) (span : Span) : Moves R (within span x) := by
  intro env
  rw [finalState_within]
  exact h env

theorem within_of_ok {span : Span} {x : Evaluation α} {env later : Environment} {a : α}
    (h : x env = .ok a later) : within span x env = .ok a later := by
  rw [within, h]

theorem moves_result {R : Environment → Environment → Prop} (h : Progression R)
    (r : Except Cause α) : Moves R (result r) := by
  cases r with
  | ok a => exact h.pure a
  | error cause => exact h.throw _

theorem moves_variableValue {R : Environment → Environment → Prop} (h : Progression R)
    (id : Identifier) : Moves R (variableValue id) := by
  refine h.bind h.get ?_
  intro env
  cases env.get? id.name with
  | none => exact h.throw _
  | some value => exact h.pure value

/-- A variable that has a value is bound, and reading it changes nothing. -/
theorem variableValue_ok {id : Identifier} {env later : Environment} {value : Value}
    (h : variableValue id env = .ok value later) :
    later = env ∧ env.get? id.name = some value := by
  rw [variableValue, get_bind] at h
  cases hget : env.get? id.name with
  | none =>
    rw [hget] at h
    cases h
  | some found =>
    rw [hget] at h
    cases h
    exact ⟨rfl, rfl⟩

theorem variableValue_of_get? {id : Identifier} {env : Environment} {value : Value}
    (h : env.get? id.name = some value) : variableValue id env = .ok value env := by
  rw [variableValue, get_bind, h]
  rfl

/-- What comes after reading a variable may rely on it being bound. -/
theorem moves_variableValue_bind {R : Environment → Environment → Prop} (h : Progression R)
    {id : Identifier} {f : Value → Evaluation α}
    (hf : ∀ value env, env.isBound id.name → R env (finalState (f value) env)) :
    Moves R (variableValue id >>= f) := by
  intro env
  cases hread : variableValue id env with
  | ok value later =>
    obtain ⟨rfl, hvalue⟩ := variableValue_ok hread
    rw [finalState, bind_of_ok hread]
    refine hf value later ?_
    rw [Environment.isBound, hvalue, Option.isSome_some]
  | error fault later =>
    have hstays := moves_variableValue h id env
    rw [finalState_of_error hread] at hstays
    rw [finalState, bind_of_error hread]
    exact hstays

theorem result_assign {R : Environment → Environment → Prop} (h : Progression R) {name : String}
    {env : Environment} (hassign : ∀ value, R env (env.assign name value))
    (r : Except Cause Value) (answer : Value → Value) :
    R env (finalState (do
      let new ← result r
      assign name new
      return answer new : Evaluation Value) env) := by
  cases r with
  | error cause => exact h.refl env
  | ok value => exact hassign value

end Evaluation

/-- The names that an expression updates. -/
def Expr.targets : Expr → List String
  | .integer _ _ | .float _ _ | .string _ _ | .boolean _ _ | .nil _ | .name _ => []
  | .group inner _ => inner.targets
  | .unary _ operand _ => operand.targets
  | .binary _ left right _ => left.targets ++ right.targets
  | .step _ _ target _ => [target.name]
  | .update _ target value _ => target.name :: value.targets

open Evaluation in
/-- An evaluation does nothing but assign to targets of the expression that are bound. -/
theorem Expr.moves_eval_targets {R : Environment → Environment → Prop} (h : Progression R) (e : Expr)
    (hassign : ∀ env value, ∀ name ∈ e.targets, env.isBound name → R env (env.assign name value)) :
    Moves R e.eval := by
  induction e with
  | integer value span => exact h.pure _
  | float value span => exact h.pure _
  | string token span => exact h.pure _
  | boolean value span => exact h.pure _
  | nil span => exact h.pure _
  | name id => exact moves_variableValue h id
  | group inner span ih => exact moves_within (ih hassign) span
  | unary op operand span ih =>
    refine moves_within ?_ span
    exact h.bind (ih hassign) fun value => moves_result h _
  | binary op left right span ihLeft ihRight =>
    have hleft := ihLeft fun env value name hname =>
      hassign env value name (List.mem_append_left _ hname)
    have hright := ihRight fun env value name hname =>
      hassign env value name (List.mem_append_right _ hname)
    refine moves_within ?_ span
    refine h.bind hleft fun a => ?_
    exact h.bind hright fun b => moves_result h _
  | step direction fixity target span =>
    refine moves_within (moves_variableValue_bind h ?_) span
    intro old env hbound
    exact result_assign h (fun value => hassign env value _ List.mem_cons_self hbound) _ _
  | update op target operand span ih =>
    have hoperand := ih fun env value name hname =>
      hassign env value name (List.mem_cons_of_mem _ hname)
    refine moves_within ?_ span
    refine h.bind hoperand fun value => moves_variableValue_bind h ?_
    intro old env hbound
    exact result_assign h (fun value => hassign env value _ List.mem_cons_self hbound) _ id

/-- An evaluation does nothing but assign to names that are bound. -/
theorem Expr.moves_eval {R : Environment → Environment → Prop} (h : Progression R)
    (hassign : ∀ env name value, env.isBound name → R env (env.assign name value)) (e : Expr) :
    Moves R e.eval :=
  e.moves_eval_targets h fun env value name _ hbound => hassign env name value hbound

open Environment (Keeps keeps_progression) in
/-- Evaluating an expression adds no name. -/
theorem Expr.eval_keeps (e : Expr) : Moves Keeps e.eval := by
  apply e.moves_eval keeps_progression
  intro env name value hbound hconsistent
  exact .assign_of_bound hconsistent hbound value

/-- A name is bound after an evaluation if and only if it was before. -/
theorem Expr.isBound_eval (e : Expr) (env : Environment) (name : String) :
    (finalState e.eval env).isBound name = env.isBound name := by
  apply e.moves_eval (R := fun env later => later.isBound name = env.isBound name)
  · exact ⟨fun _ => rfl, fun hfirst hsecond => hsecond.trans hfirst⟩
  · intro env target value hbound
    rw [Environment.isBound_assign]
    by_cases heq : name = target
    · simp [heq, hbound]
    · simp [heq]

end BlockScript
