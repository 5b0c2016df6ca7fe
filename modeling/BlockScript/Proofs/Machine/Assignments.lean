import BlockScript.Proofs.Environment.Updates
import BlockScript.Proofs.Machine.Termination
import BlockScript.Proofs.Machine.Scope
import BlockScript.Proofs.Tree.Canonical

/-!
# Updates as assignments

Spans decide nothing in an evaluation but the place of its fault, so trees are compared here with
their spans erased and faults without their places.  An update reads its variable behind its
operand, and an assignment of the same operation reads it before.  An operand that does not update
the variable itself leaves its value as it is, so both operations get the same values.
-/

namespace BlockScript

open Execution

variable {ε ε' σ α β : Type}

/-! ## Faults without their places -/

def Fault.unplaced : Fault → Fault
  | .operation cause _ => .operation cause none
  | .output message => .output message

def Halt.unplaced : Halt → Halt
  | .fault raised => .fault raised.unplaced
  | .exhausted => .exhausted

theorem Fault.unplaced_placed (fault : Fault) (span : Span) :
    (fault.placed span).unplaced = fault.unplaced := by
  cases fault with
  | operation cause place => cases place <;> rfl
  | output message => rfl

theorem adaptExcept_of_ok {f : ε → ε'} {x : EStateM ε σ α} {s later : σ} {a : α}
    (h : x s = .ok a later) : x.adaptExcept f s = .ok a later := by
  rw [EStateM.adaptExcept, h]

theorem adaptExcept_of_error {f : ε → ε'} {x : EStateM ε σ α} {s later : σ} {e : ε}
    (h : x s = .error e later) : x.adaptExcept f s = .error (f e) later := by
  rw [EStateM.adaptExcept, h]

theorem adaptExcept_bind (f : ε → ε') (x : EStateM ε σ α) (g : α → EStateM ε σ β) :
    (x >>= g).adaptExcept f = x.adaptExcept f >>= fun a => (g a).adaptExcept f := by
  funext s
  cases hrun : x s with
  | ok a later =>
    rw [bind_of_ok (adaptExcept_of_ok hrun), EStateM.adaptExcept, bind_of_ok hrun,
      EStateM.adaptExcept]
  | error e later =>
    rw [bind_of_error (adaptExcept_of_error hrun)]
    exact adaptExcept_of_error (bind_of_error hrun g)

/-- The evaluation with the place of its fault forgotten. -/
def Evaluation.unplaced (x : Evaluation α) : Evaluation α :=
  x.adaptExcept Fault.unplaced

/-- The computation with the place of its fault forgotten. -/
def Execution.unplaced (x : Execution σ α) : Execution σ α :=
  x.adaptExcept Halt.unplaced

namespace Evaluation

theorem unplaced_of_ok {x : Evaluation α} {env later : Environment} {a : α}
    (h : x env = .ok a later) : unplaced x env = .ok a later :=
  adaptExcept_of_ok h

theorem unplaced_of_error {x : Evaluation α} {env later : Environment} {fault : Fault}
    (h : x env = .error fault later) : unplaced x env = .error fault.unplaced later :=
  adaptExcept_of_error h

theorem unplaced_bind (x : Evaluation α) (g : α → Evaluation β) :
    unplaced (x >>= g) = unplaced x >>= fun a => unplaced (g a) :=
  adaptExcept_bind Fault.unplaced x g

theorem unplaced_within (span : Span) (x : Evaluation α) :
    unplaced (within span x) = unplaced x := by
  funext env
  cases hrun : x env with
  | ok a later => simp only [unplaced, EStateM.adaptExcept, within, hrun]
  | error fault later =>
    simp only [unplaced, EStateM.adaptExcept, within, hrun, fault.unplaced_placed]

theorem unplaced_variableValue (id : Identifier) :
    unplaced (variableValue id.erase) = unplaced (variableValue id) := by
  funext env
  unfold unplaced EStateM.adaptExcept variableValue
  rw [get_bind, get_bind, Identifier.erase]
  cases env.get? id.name <;> rfl

end Evaluation

open Evaluation in
/-- Spans do not matter for an evaluation, the place of its fault apart. -/
theorem Expr.unplaced_eval_erase (e : Expr) : unplaced e.erase.eval = unplaced e.eval := by
  induction e with
  | integer value span => rfl
  | float value span => rfl
  | string token span => rfl
  | boolean value span => rfl
  | nil span => rfl
  | name id => exact unplaced_variableValue id
  | group inner span ih =>
    rw [Expr.erase, Expr.eval, Expr.eval, unplaced_within, unplaced_within, ih]
  | unary op operand span ih =>
    rw [Expr.erase, Expr.eval, Expr.eval, unplaced_within, unplaced_within, unplaced_bind,
      unplaced_bind, ih]
  | binary op left right span ihLeft ihRight =>
    rw [Expr.erase, Expr.eval, Expr.eval, unplaced_within, unplaced_within, unplaced_bind,
      unplaced_bind, ihLeft]
    simp only [unplaced_bind, ihRight]
  | step direction fixity target span =>
    rw [Expr.erase, Expr.eval, Expr.eval, unplaced_within, unplaced_within, unplaced_bind,
      unplaced_bind, unplaced_variableValue]
    rfl
  | update op target operand span ih =>
    rw [Expr.erase, Expr.eval, Expr.eval, unplaced_within, unplaced_within, unplaced_bind,
      unplaced_bind, ih]
    simp only [unplaced_bind, unplaced_variableValue]
    rfl

theorem Expr.unplaced_eval_eq {e e' : Expr} (h : e.erase = e'.erase) :
    e.eval.unplaced = e'.eval.unplaced := by
  rw [← e.unplaced_eval_erase, h, e'.unplaced_eval_erase]

/-- What has a value has it whatever the spans are. -/
theorem Expr.eval_ok_of_erase {e e' : Expr} {env later : Environment} {a : Value}
    (h : e.erase = e'.erase) (hrun : e'.eval env = .ok a later) : e.eval env = .ok a later := by
  have hsame : e.eval.unplaced env = .ok a later := by
    rw [Expr.unplaced_eval_eq h]
    exact Evaluation.unplaced_of_ok hrun
  cases heval : e.eval env with
  | ok b last =>
    rw [Evaluation.unplaced_of_ok heval] at hsame
    exact hsame
  | error fault last =>
    rw [Evaluation.unplaced_of_error heval] at hsame
    cases hsame

/-! ## Updates -/

namespace Evaluation

/-- Applies the operation to the old value of a variable and an operand, and assigns the result. -/
def replacing (name : String) (op : UpdateOp) (old operand : Value) : Evaluation Value := do
  let new ← result (old.arithmetic op.binary operand)
  assign name new
  return new

theorem unplaced_replacing (name : String) (op : UpdateOp) (old operand : Value) :
    unplaced (replacing name op old operand) = replacing name op old operand := by
  funext env
  unfold replacing
  cases old.arithmetic op.binary operand <;> rfl

end Evaluation

/-- Evaluates the value of an assignment and makes the assignment. -/
def Assignment.eval (a : Assignment) : Evaluation Value := do
  let value ← a.value.eval
  Evaluation.assign a.target.name value
  return value

theorem Assignment.unplaced_eval_eq {a a' : Assignment} (h : a.erase = a'.erase) :
    a.eval.unplaced = a'.eval.unplaced := by
  obtain ⟨target, value, span⟩ := a
  obtain ⟨target', value', span'⟩ := a'
  simp only [Assignment.erase, Identifier.erase, Assignment.mk.injEq, Identifier.mk.injEq,
    and_true] at h
  obtain ⟨htarget, hvalue⟩ := h
  rw [Assignment.eval, Assignment.eval, Evaluation.unplaced_bind, Evaluation.unplaced_bind,
    Expr.unplaced_eval_eq hvalue, htarget]

theorem UpdateOp.apply_binary (op : UpdateOp) (a b : Value) :
    op.binary.apply a b = a.arithmetic op.binary b := by
  cases op <;> rfl

section

open Evaluation

variable {name : String} {op : UpdateOp} {e : Expr} {env : Environment} {old : Value}

/-- The assignment `name = name op (e)`. -/
def Assignment.applying (name : String) (op : UpdateOp) (e : Expr) : Assignment where
  target := ⟨name, default⟩
  value := .binary op.binary (.name ⟨name, default⟩) (.group e default) default
  span := default

/-- The assignment reads the variable before it evaluates the operand. -/
theorem Assignment.unplaced_eval_applying (hold : env.get? name = some old) :
    unplaced (Assignment.applying name op e).eval env =
      (unplaced e.eval >>= replacing name op old) env := by
  have hread : unplaced (variableValue ⟨name, default⟩) env = .ok old env :=
    unplaced_of_ok (variableValue_of_get? hold)
  have htail : ∀ operand, (do
      let new ← unplaced (result (op.binary.apply old operand))
      unplaced (assign name new)
      unplaced (pure new)) = replacing name op old operand := by
    intro operand
    rw [op.apply_binary, ← unplaced_replacing, replacing]
    simp only [unplaced_bind]
  simp only [Assignment.eval, applying, Expr.eval, unplaced_bind, unplaced_within, bind_assoc]
  rw [bind_of_ok hread]
  simp only [htail]

/-- The update `name op= e` evaluates the operand first, and then the variable still has its
value. -/
theorem Expr.unplaced_eval_update (hold : env.get? name = some old) (he : name ∉ e.targets) :
    unplaced (Expr.update op ⟨name, default⟩ e default).eval env =
      (unplaced e.eval >>= replacing name op old) env := by
  rw [Expr.eval, unplaced_within, unplaced_bind]
  cases hrun : e.eval env with
  | error fault later =>
    rw [bind_of_error (unplaced_of_error hrun), bind_of_error (unplaced_of_error hrun)]
  | ok operand later =>
    have hkept : later.get? name = some old := by
      rw [← finalState_of_ok hrun, Expr.get?_eval he, hold]
    have hread : unplaced (variableValue ⟨name, default⟩) later = .ok old later :=
      unplaced_of_ok (variableValue_of_get? hkept)
    rw [bind_of_ok (unplaced_of_ok hrun), bind_of_ok (unplaced_of_ok hrun), unplaced_bind,
      bind_of_ok hread, ← unplaced_replacing, replacing]

end

/-! ## Statements -/

namespace Execution

theorem evaluating_bind (x : Evaluation α) (f : α → Evaluation β) :
    (evaluating (x >>= f) : Execution σ β) = evaluating x >>= fun a => evaluating (f a) := by
  funext m
  cases hrun : x m.environment with
  | ok a env =>
    rw [bind_of_ok (evaluating_of_ok hrun), evaluating, bind_of_ok hrun]
    rfl
  | error fault env =>
    rw [bind_of_error (evaluating_of_error hrun)]
    exact evaluating_of_error (bind_of_error hrun f)

theorem assigning_eq (a : Assignment) : (assigning a : Execution σ Value) = evaluating a.eval := by
  rw [Assignment.eval, evaluating_bind]
  simp only [evaluating_bind]
  rfl

/-- Counts a statement that has the value of an evaluation. -/
def yielding (x : Evaluation Value) : Execution σ (Option Value) := do
  count
  return some (← evaluating x)

theorem unplaced_yielding (x : Evaluation Value) :
    (unplaced (yielding x) : Execution σ (Option Value)) = yielding x.unplaced := by
  have hevaluating : (unplaced (evaluating x) : Execution σ Value) = evaluating x.unplaced := by
    funext m
    cases hrun : x m.environment with
    | ok value env =>
      rw [evaluating_of_ok (Evaluation.unplaced_of_ok hrun)]
      exact adaptExcept_of_ok (evaluating_of_ok hrun)
    | error fault env =>
      rw [evaluating_of_error (Evaluation.unplaced_of_error hrun)]
      exact adaptExcept_of_error (evaluating_of_error hrun)
  rw [yielding, yielding, ← hevaluating, unplaced, adaptExcept_bind]
  simp only [adaptExcept_bind]
  rfl

theorem yielding_congr {x y : Evaluation Value} {m : Machine σ}
    (h : x m.environment = y m.environment) : yielding x m = yielding y m := by
  have hevaluating : (evaluating x : Execution σ Value) { m with executed := m.executed + 1 } =
      evaluating y { m with executed := m.executed + 1 } := by
    simp only [evaluating, h]
  change (evaluating x >>= fun value => pure (some value)) { m with executed := m.executed + 1 } =
    (evaluating y >>= fun value => pure (some value)) { m with executed := m.executed + 1 }
  change EStateM.bind _ _ _ = EStateM.bind _ _ _
  simp only [EStateM.bind, hevaluating]

end Execution

section

variable [Writer σ]

theorem Statement.exec_expression (fuel : Nat) (e : Expr) (span : Span) :
    ((Statement.expression e span).exec fuel : Execution σ (Option Value)) = yielding e.eval := by
  rw [Statement.exec, yielding]

theorem Statement.exec_assign (fuel : Nat) (a : Assignment) :
    ((Statement.assign a).exec fuel : Execution σ (Option Value)) = yielding a.eval := by
  rw [Statement.exec, yielding, assigning_eq]

/-- The statement `name op= e`. -/
def Statement.updating (name : String) (op : UpdateOp) (e : Expr) : Statement :=
  .expression (.update op ⟨name, default⟩ e default) default

theorem Statement.unplaced_exec_updating {name : String} {op : UpdateOp} {e : Expr} {s : Statement}
    (hs : s.erase = (Statement.updating name op e).erase) (fuel : Nat) :
    (unplaced (s.exec fuel) : Execution σ (Option Value)) =
      yielding (Expr.update op ⟨name, default⟩ e default).eval.unplaced := by
  cases s with
  | expression value span =>
    have hvalue : value.erase = (Expr.update op ⟨name, default⟩ e default).erase := by
      simpa [Statement.updating, Statement.erase] using hs
    rw [Statement.exec_expression, unplaced_yielding, Expr.unplaced_eval_eq hvalue]
  | _ => simp [Statement.updating, Statement.erase] at hs

theorem Statement.unplaced_exec_assign {a : Assignment} {s : Statement}
    (hs : s.erase = (Statement.assign a).erase) (fuel : Nat) :
    (unplaced (s.exec fuel) : Execution σ (Option Value)) = yielding a.eval.unplaced := by
  cases s with
  | assign a' =>
    have ha : a'.erase = a.erase := by simpa [Statement.erase] using hs
    rw [Statement.exec_assign, unplaced_yielding, Assignment.unplaced_eval_eq ha]
  | _ => simp [Statement.erase] at hs

end

/-! ## Steps -/

/-- The operation with which a step changes an integer by one. -/
def Direction.update : Direction → UpdateOp
  | .up => .add
  | .down => .subtract

section

open Evaluation

variable {env : Environment} {n : Int64}

theorem Expr.eval_step_integer (direction : Direction) (span : Span) {target : Identifier}
    (h : env.get? target.name = some (.integer n)) :
    (Expr.step direction .before target span).eval env =
      .ok (.integer (n + direction.delta))
        (env.assign target.name (.integer (n + direction.delta))) := by
  rw [Expr.eval, within, bind_of_ok (variableValue_of_get? h)]
  rfl

theorem Expr.eval_update_one (direction : Direction) (span one : Span) {target : Identifier}
    (h : env.get? target.name = some (.integer n)) :
    (Expr.update direction.update target (.integer 1 one) span).eval env =
      .ok (.integer (n + direction.delta))
        (env.assign target.name (.integer (n + direction.delta))) := by
  have hvalue : (Value.integer n).arithmetic direction.update.binary (.integer 1) =
      .ok (.integer (n + direction.delta)) := by
    cases direction with
    | up => rfl
    | down => exact congrArg (fun n => Except.ok (Value.integer n)) (Int64.sub_eq_add_neg n 1)
  rw [Expr.eval, within, Expr.eval, pure_bind, bind_of_ok (variableValue_of_get? h), hvalue]
  rfl

end

/-- If `name` is bound and `e` does not update it, then `name op= e` and `name = name op (e)` end
with the same value or with the same fault, its place apart, and on the same machine.  A step of an
integer is the update by one, also where it wraps around. -/
theorem Statement.updating_agrees_applying [Writer σ] (name : String) :
    (∀ (op : UpdateOp) (e : Expr) (update assignment : Statement) (fuel : Nat) (m : Machine σ),
      m.environment.isBound name = true → name ∉ e.targets →
      update.erase = (Statement.updating name op e).erase →
      assignment.erase = (Statement.assign (.applying name op e)).erase →
        unplaced (update.exec fuel) m = unplaced (assignment.exec fuel) m) ∧
    ∀ (direction : Direction) (step update : Expr) (env : Environment) (n : Int64),
      env.get? name = some (.integer n) →
      step.erase = (Expr.step direction .before ⟨name, default⟩ default).erase →
      update.erase =
        (Expr.update direction.update ⟨name, default⟩ (.integer 1 default) default).erase →
        step.eval env = update.eval env ∧
          step.eval env = .ok (.integer (n + direction.delta))
            (env.assign name (.integer (n + direction.delta))) := by
  constructor
  · intro op e update assignment fuel m hbound he hupdate hassignment
    obtain ⟨old, hold⟩ := Option.isSome_iff_exists.1 hbound
    rw [Statement.unplaced_exec_updating hupdate, Statement.unplaced_exec_assign hassignment]
    apply yielding_congr
    rw [Expr.unplaced_eval_update hold he, Assignment.unplaced_eval_applying hold]
  · intro direction step update env n hn hstep hupdate
    have hsteps := Expr.eval_ok_of_erase hstep (Expr.eval_step_integer direction default hn)
    have hupdates := Expr.eval_ok_of_erase hupdate
      (Expr.eval_update_one direction default default hn)
    exact ⟨hsteps.trans hupdates.symm, hsteps⟩

/-- The operand counts `y` down to zero, so that both divisions fail behind it; `z` is stepped
past the greatest integer. -/
theorem updating_agrees_applying_division :
    let update : Statement :=
      .expression (.update .divide ⟨"x", ⟨0, 1, none⟩⟩
        (.step .down .before ⟨"y", ⟨7, 8, none⟩⟩ ⟨5, 8, none⟩) ⟨0, 8, none⟩) ⟨0, 8, none⟩
    let assignment : Statement :=
      .assign ⟨⟨"x", ⟨0, 1, none⟩⟩, .binary .divide (.name ⟨"x", ⟨4, 5, none⟩⟩)
        (.group (.step .down .before ⟨"y", ⟨11, 12, none⟩⟩ ⟨9, 12, none⟩) ⟨8, 13, none⟩)
        ⟨4, 13, none⟩, ⟨0, 13, none⟩⟩
    let env := Environment.after [.assign "x" (.integer 8), .enter, .assign "y" (.integer 1),
      .assign "z" (.integer Int64.maxValue)]
    let m : Machine Buffer := ⟨env, .unbounded, 0⟩
    Ending.halt? (update.exec 1 m) = some (.fault (.operation .divisionByZero (some ⟨0, 8⟩))) ∧
      Ending.halt? (assignment.exec 1 m) =
        some (.fault (.operation .divisionByZero (some ⟨4, 9⟩))) ∧
      unplaced (update.exec 1) m = unplaced (assignment.exec 1) m ∧
      (Expr.step .up .before ⟨"z", default⟩ default).eval env =
        .ok (.integer Int64.minValue) (env.assign "z" (.integer Int64.minValue)) := by
  intro update assignment env m
  have hx := Statement.updating_agrees_applying (σ := Buffer) "x"
  have hz := Statement.updating_agrees_applying (σ := Buffer) "z"
  refine ⟨by decide +kernel, by decide +kernel, ?_, ?_⟩
  · exact hx.1 .divide (.step .down .before ⟨"y", default⟩ default) update assignment 1 m
      (by decide +kernel) (by decide +kernel) rfl rfl
  · exact (hz.2 .up _ (.update .add ⟨"z", default⟩ (.integer 1 default) default) env
      Int64.maxValue (by decide +kernel) rfl rfl).2

end BlockScript
