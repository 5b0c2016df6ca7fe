import BlockScript.Proofs.Machine.Scope
import BlockScript.Proofs.Machine.Termination

/-!
# Where faults point

A fault is raised by one node of a tree and travels outward with the place that it got first.  To
say which node that is, a run is followed from each part of the program to the parts that it starts:
an evaluation starts the evaluations of its operands, a statement starts its parts, and a loop
starts itself again after every round.  A run that fails has reached a part that failed by itself,
and the fault points there.
-/

namespace BlockScript

/-! ## Operations on values -/

/-- The operands are of the wrong kinds, or the divisor is zero. -/
inductive Cause.OfOperands : Cause → Prop
  | operandType (operation : String) (kinds : List String) :
      OfOperands (.operandType operation kinds)
  | divisionByZero : OfOperands .divisionByZero

open Cause.OfOperands

theorem Value.arithmetic_error (op : UpdateOp) {a b : Value} {cause : Cause}
    (h : a.arithmetic op.binary b = .error cause) : cause.OfOperands := by
  cases op with
  | add =>
    change a.add b = .error cause at h
    unfold Value.add at h
    split at h
    · cases h
    · cases h
    · split at h <;> cases h
      exact operandType _ _
  | subtract =>
    change a.subtract b = .error cause at h
    unfold Value.subtract at h
    split at h <;> cases h
    exact operandType _ _
  | multiply =>
    change a.multiply b = .error cause at h
    unfold Value.multiply at h
    split at h <;> cases h
    exact operandType _ _
  | divide =>
    change a.divide b = .error cause at h
    unfold Value.divide at h
    split at h
    · split at h <;> cases h
      exact divisionByZero
    · cases h
    · cases h
      exact operandType _ _
  | modulo =>
    change a.modulo b = .error cause at h
    unfold Value.modulo at h
    split at h
    · split at h <;> cases h
      exact divisionByZero
    · cases h
    · cases h
      exact operandType _ _

theorem Value.compare_error (op : BinaryOp) (hop : op.precedence = 4) {a b : Value} {cause : Cause}
    (h : a.compare op b = .error cause) : cause.OfOperands := by
  unfold Value.compare at h
  split at h
  · cases op <;> cases hop <;> cases h
  · cases h
    exact operandType _ _

theorem Value.step_error {delta : Int64} {a : Value} {cause : Cause}
    (h : a.step delta = .error cause) : cause.OfOperands := by
  cases a <;> cases h <;> exact operandType _ _

theorem UnaryOp.apply_error {op : UnaryOp} {a : Value} {cause : Cause}
    (h : op.apply a = .error cause) : cause.OfOperands := by
  cases op <;> cases a <;> cases h <;> exact operandType _ _

/-- An operator of the language is never unknown to the operation that it selects. -/
theorem BinaryOp.apply_error {op : BinaryOp} {a b : Value} {cause : Cause}
    (h : op.apply a b = .error cause) : cause.OfOperands := by
  cases op with
  | or | and => cases a <;> cases b <;> cases h <;> exact operandType _ _
  | equal | notEqual => cases h
  | less => exact Value.compare_error .less rfl h
  | lessEqual => exact Value.compare_error .lessEqual rfl h
  | greater => exact Value.compare_error .greater rfl h
  | greaterEqual => exact Value.compare_error .greaterEqual rfl h
  | add => exact Value.arithmetic_error .add h
  | subtract => exact Value.arithmetic_error .subtract h
  | multiply => exact Value.arithmetic_error .multiply h
  | divide => exact Value.arithmetic_error .divide h
  | modulo => exact Value.arithmetic_error .modulo h

/-! ## Expressions -/

namespace Expr

/-- Evaluating the first expression in the first environment evaluates the second one, an operand of
the first, in the second environment. -/
inductive Starts : Expr → Environment → Expr → Environment → Prop
  | group {inner : Expr} {span : Span} {env : Environment} :
      Starts (.group inner span) env inner env
  | operand {op : UnaryOp} {operand : Expr} {span : Span} {env : Environment} :
      Starts (.unary op operand span) env operand env
  | left {op : BinaryOp} {left right : Expr} {span : Span} {env : Environment} :
      Starts (.binary op left right span) env left env
  | right {op : BinaryOp} {left right : Expr} {span : Span} {env later : Environment} {a : Value}
      (h : left.eval env = .ok a later) : Starts (.binary op left right span) env right later
  | value {op : UpdateOp} {target : Identifier} {operand : Expr} {span : Span} {env : Environment} :
      Starts (.update op target operand span) env operand env

/-- Evaluating the first expression comes, operand by operand, to the second one. -/
inductive Reaches : Expr → Environment → Expr → Environment → Prop
  | refl (e : Expr) (env : Environment) : Reaches e env e env
  | next {e d part : Expr} {env mid later : Environment} (hstarts : Starts e env d mid)
      (hreaches : Reaches d mid part later) : Reaches e env part later

/-- The identifier that an expression refers to or updates itself, its operands apart. -/
def ownName? : Expr → Option Identifier
  | .name id => some id
  | .step _ _ target _ => some target
  | .update _ target _ _ => some target
  | _ => none

/-- The expression is an operation, and everything that it is applied to has a value. -/
def OperandsSucceed : Expr → Environment → Prop
  | .unary _ operand _, env => ∃ a later, operand.eval env = .ok a later
  | .binary _ left right _, env =>
    ∃ a b mid later, left.eval env = .ok a mid ∧ right.eval mid = .ok b later
  | .step _ _ target _, env => env.isBound target.name = true
  | .update _ target operand _, env =>
    ∃ a later, operand.eval env = .ok a later ∧ later.isBound target.name = true
  | _, _ => False

/-- The fault points at the part of the expression that raised it: an identifier whose name is
unbound, or an operation that fails although its operands have values. -/
inductive Raises (e : Expr) (env : Environment) : Fault → Prop
  | unbound {part : Expr} {later : Environment} {id : Identifier}
      (hreaches : e.Reaches env part later) (hname : part.ownName? = some id)
      (hunbound : env.isBound id.name = false) :
      Raises e env (.operation (.undefinedSymbol id.name) (some id.span.region))
  | operation {part : Expr} {later last : Environment} {cause : Cause}
      (hreaches : e.Reaches env part later) (hoperands : part.OperandsSucceed later)
      (hcause : cause.OfOperands)
      (hfails : part.eval later = .error (.operation cause (some part.span.region)) last) :
      Raises e env (.operation cause (some part.span.region))

variable {e d : Expr} {env mid later : Environment} {fault : Fault}

theorem isBound_of_eval_ok {a : Value} (h : e.eval env = .ok a later) (name : String) :
    later.isBound name = env.isBound name := by
  rw [← e.isBound_eval env name, finalState_of_ok h]

theorem Starts.isBound_eq (h : Starts e env d mid) (name : String) :
    mid.isBound name = env.isBound name := by
  cases h with
  | right hleft => exact isBound_of_eval_ok hleft name
  | _ => rfl

theorem Raises.of_starts (hstarts : Starts e env d mid) (h : d.Raises mid fault) :
    e.Raises env fault := by
  cases h with
  | unbound hreaches hname hunbound =>
    rw [hstarts.isBound_eq] at hunbound
    exact .unbound (.next hstarts hreaches) hname hunbound
  | operation hreaches hoperands hcause hfails =>
    exact .operation (.next hstarts hreaches) hoperands hcause hfails

/-- A fault that was raised in a part has its place already. -/
theorem Raises.placed (h : e.Raises env fault) (span : Span) : fault.placed span = fault := by
  cases h <;> rfl

end Expr

namespace Evaluation

variable {α : Type} {env later : Environment} {fault : Fault}

theorem within_error {span : Span} {x : Evaluation α} (h : within span x env = .error fault later) :
    ∃ raised, x env = .error raised later ∧ fault = raised.placed span := by
  unfold within at h
  split at h
  · cases h
  · rename_i raised last hrun
    cases h
    exact ⟨raised, hrun, rfl⟩

theorem result_error {r : Except Cause α} (h : result r env = .error fault later) :
    ∃ cause, r = .error cause ∧ fault = .operation cause none := by
  cases r with
  | ok a => cases h
  | error cause =>
    cases h
    exact ⟨cause, rfl, rfl⟩

theorem variableValue_error {id : Identifier} (h : variableValue id env = .error fault later) :
    env.isBound id.name = false ∧
      fault = .operation (.undefinedSymbol id.name) (some id.span.region) := by
  rw [variableValue, get_bind] at h
  cases hget : env.get? id.name with
  | none =>
    rw [hget] at h
    cases h
    exact ⟨by rw [Environment.isBound, hget, Option.isSome_none], rfl⟩
  | some found =>
    rw [hget] at h
    cases h

/-- Reading, changing and storing a variable fails only in the change. -/
theorem result_assign_error {r : Except Cause Value} {name : String} {answer : Value → Value}
    (h : (do
      let new ← result r
      assign name new
      return answer new : Evaluation Value) env = .error fault later) :
    ∃ cause, r = .error cause ∧ fault = .operation cause none := by
  rcases bind_eq_error.1 h with h | ⟨new, mid, -, h⟩
  · exact result_error h
  · cases h

end Evaluation

open Evaluation in
/-- A failing evaluation points at the node that raised the fault. -/
theorem Expr.raises_of_eval_error {e : Expr} {env later : Environment} {fault : Fault}
    (h : e.eval env = .error fault later) : e.Raises env fault := by
  induction e generalizing env later fault with
  | integer value span => cases h
  | float value span => cases h
  | string token span => cases h
  | boolean value span => cases h
  | nil span => cases h
  | name id =>
    obtain ⟨hunbound, rfl⟩ := variableValue_error h
    exact .unbound (.refl _ env) rfl hunbound
  | group inner span ih =>
    obtain ⟨raised, hinner, rfl⟩ := within_error h
    have hraises := ih hinner
    rw [hraises.placed]
    exact hraises.of_starts .group
  | unary op operand span ih =>
    obtain ⟨raised, hrun, rfl⟩ := within_error h
    rcases bind_eq_error.1 hrun with hoperand | ⟨a, mid, hoperand, hresult⟩
    · have hraises := ih hoperand
      rw [hraises.placed]
      exact hraises.of_starts .operand
    · obtain ⟨cause, hcause, rfl⟩ := result_error hresult
      exact .operation (.refl _ env) ⟨a, mid, hoperand⟩ (UnaryOp.apply_error hcause) h
  | binary op left right span ihLeft ihRight =>
    obtain ⟨raised, hrun, rfl⟩ := within_error h
    rcases bind_eq_error.1 hrun with hleft | ⟨a, mid, hleft, hrun⟩
    · have hraises := ihLeft hleft
      rw [hraises.placed]
      exact hraises.of_starts .left
    rcases bind_eq_error.1 hrun with hright | ⟨b, last, hright, hresult⟩
    · have hraises := ihRight hright
      rw [hraises.placed]
      exact hraises.of_starts (.right hleft)
    · obtain ⟨cause, hcause, rfl⟩ := result_error hresult
      have hoperands : OperandsSucceed (.binary op left right span) env :=
        ⟨a, b, mid, last, hleft, hright⟩
      exact .operation (.refl _ env) hoperands (BinaryOp.apply_error hcause) h
  | step direction fixity target span =>
    obtain ⟨raised, hrun, rfl⟩ := within_error h
    rcases bind_eq_error.1 hrun with hread | ⟨old, mid, hread, hchange⟩
    · obtain ⟨hunbound, rfl⟩ := variableValue_error hread
      exact .unbound (.refl _ env) rfl hunbound
    · obtain ⟨rfl, hold⟩ := variableValue_ok hread
      obtain ⟨cause, hcause, rfl⟩ := result_assign_error hchange
      have hbound : mid.isBound target.name = true := by
        rw [Environment.isBound, hold, Option.isSome_some]
      exact .operation (.refl _ mid) hbound (Value.step_error hcause) h
  | update op target operand span ih =>
    obtain ⟨raised, hrun, rfl⟩ := within_error h
    rcases bind_eq_error.1 hrun with hoperand | ⟨a, mid, hoperand, hrun⟩
    · have hraises := ih hoperand
      rw [hraises.placed]
      exact hraises.of_starts .value
    rcases bind_eq_error.1 hrun with hread | ⟨old, last, hread, hchange⟩
    · obtain ⟨hunbound, rfl⟩ := variableValue_error hread
      rw [isBound_of_eval_ok hoperand] at hunbound
      exact .unbound (.refl _ env) rfl hunbound
    · obtain ⟨rfl, hold⟩ := variableValue_ok hread
      obtain ⟨cause, hcause, rfl⟩ := result_assign_error hchange
      have hbound : last.isBound target.name = true := by
        rw [Environment.isBound, hold, Option.isSome_some]
      have hoperands : OperandsSucceed (.update op target operand span) env :=
        ⟨a, last, hoperand, hbound⟩
      exact .operation (.refl _ env) hoperands (Value.arithmetic_error op hcause) h

/-! ## Statements -/

/-- What a machine can be busy with. -/
inductive Activity where
  | statement (s : Statement)
  | statements (all : List Statement)
  | block (body : Block)
  | arms (arms : Arms)
  /-- The rounds of a loop that are left: the body each, and then the update if there is one. -/
  | loop (test : Expr) (body : Block) (update : Option Expr)
  | condition (test : Expr)
  | expression (e : Expr)

variable {σ α β : Type}

/-- The machine when a statement has been counted. -/
def Machine.counted (m : Machine σ) : Machine σ :=
  { m with executed := m.executed + 1 }

/-- The machine in a new block. -/
def Machine.entered (m : Machine σ) : Machine σ :=
  { m with environment := m.environment.enter }

def PrintMode.write [Writer σ] (text : String) : PrintMode → EStateM String σ Unit
  | .value => Writer.writeText text
  | .line => Writer.writeLine text

/-- One round of a loop whose test holds. -/
def Execution.round [Writer σ] (fuel : Nat) (body : Block) : Option Expr → Execution σ Unit
  | none => body.exec fuel
  | some update => do
    body.exec fuel
    discard (evaluating update.eval)

open Execution

namespace Activity

/-- A machine that is busy with the first activity turns to the second one, a part of it. -/
inductive Starts [Writer σ] : Activity → Machine σ → Activity → Machine σ → Prop
  | assign {a : Assignment} {m : Machine σ} :
      Starts (.statement (.assign a)) m (.expression a.value) m.counted
  | print {mode : PrintMode} {e : Expr} {span : Span} {m : Machine σ} :
      Starts (.statement (.print mode e span)) m (.expression e) m.counted
  | expression {e : Expr} {span : Span} {m : Machine σ} :
      Starts (.statement (.expression e span)) m (.expression e) m.counted
  | block {body : Block} {m : Machine σ} :
      Starts (.statement (.block body)) m (.block body) m.counted
  | conditional {arms : Arms} {span : Span} {m : Machine σ} :
      Starts (.statement (.conditional arms span)) m (.arms arms) m.counted
  | whileLoop {test : Expr} {body : Block} {span : Span} {m : Machine σ} :
      Starts (.statement (.whileLoop test body span)) m (.loop test body none) m.counted
  | initializer {a : Assignment} {test update : Expr} {body : Block} {span : Span} {m : Machine σ}
      (h : m.environment.isBound a.target.name = false) :
      Starts (.statement (.forLoop (some a) test update body span)) m (.expression a.value)
        m.counted
  | forLoop {init : Option Assignment} {test update : Expr} {body : Block} {span : Span}
      {m later : Machine σ} (h : initializing init m.counted = .ok () later) :
      Starts (.statement (.forLoop init test update body span)) m (.loop test body (some update))
        later
  | body {all : List Statement} {span : Span} {m : Machine σ} :
      Starts (.block (.mk all span)) m (.statements all) m.entered
  | first {s : Statement} {rest : List Statement} {m : Machine σ} :
      Starts (.statements (s :: rest)) m (.statement s) m
  | rest {s : Statement} {rest : List Statement} {m later : Machine σ} {fuel : Nat}
      {value : Option Value} (h : s.exec fuel m = .ok value later) :
      Starts (.statements (s :: rest)) m (.statements rest) later
  | otherwise {body : Block} {m : Machine σ} : Starts (.arms (.otherwise body)) m (.block body) m
  | armTest {test : Expr} {body : Block} {span : Span} {rest : Arms} {m : Machine σ} :
      Starts (.arms (.arm test body span rest)) m (.condition test) m
  | arm {test : Expr} {body : Block} {span : Span} {rest : Arms} {m later : Machine σ}
      (h : Execution.condition test m = .ok true later) :
      Starts (.arms (.arm test body span rest)) m (.block body) later
  | nextArm {test : Expr} {body : Block} {span : Span} {rest : Arms} {m later : Machine σ}
      (h : Execution.condition test m = .ok false later) :
      Starts (.arms (.arm test body span rest)) m (.arms rest) later
  | loopTest {test : Expr} {body : Block} {update : Option Expr} {m : Machine σ} :
      Starts (.loop test body update) m (.condition test) m
  | loopBody {test : Expr} {body : Block} {update : Option Expr} {m later : Machine σ}
      (h : Execution.condition test m = .ok true later) :
      Starts (.loop test body update) m (.block body) later
  | loopUpdate {test : Expr} {body : Block} {update : Expr} {m mid later : Machine σ} {fuel : Nat}
      (h : Execution.condition test m = .ok true mid) (hbody : body.exec fuel mid = .ok () later) :
      Starts (.loop test body (some update)) m (.expression update) later
  | again {test : Expr} {body : Block} {update : Option Expr} {m mid later : Machine σ} {fuel : Nat}
      (h : Execution.condition test m = .ok true mid)
      (hround : round fuel body update mid = .ok () later) :
      Starts (.loop test body update) m (.loop test body update) later
  | test {test : Expr} {m : Machine σ} : Starts (.condition test) m (.expression test) m

/-- A machine that is busy with the first activity comes, part by part, to the second one. -/
inductive Reaches [Writer σ] : Activity → Machine σ → Activity → Machine σ → Prop
  | refl (activity : Activity) (m : Machine σ) : Reaches activity m activity m
  | next {activity next part : Activity} {m mid later : Machine σ}
      (hstarts : Starts activity m next mid) (hreaches : Reaches next mid part later) :
      Reaches activity m part later

/-- The fault points at the part of the activity that raised it: a node of an expression, or a
condition with a value that is no boolean.  It has no place where the output of a print statement
fails. -/
inductive Raises [Writer σ] (activity : Activity) (m : Machine σ) : Fault → Prop
  | expression {e : Expr} {site : Machine σ} {fault : Fault}
      (hreaches : activity.Reaches m (.expression e) site)
      (hraises : e.Raises site.environment fault) :
      Raises activity m fault
  | condition {test : Expr} {site : Machine σ} {value : Value} {later : Environment}
      (hreaches : activity.Reaches m (.condition test) site)
      (hvalue : test.eval site.environment = .ok value later) (hkind : value.kind ≠ .boolean) :
      Raises activity m (.operation (.operandType "condition" [value.kind.name])
        (some test.span.region))
  | output {mode : PrintMode} {e : Expr} {span : Span} {site : Machine σ} {value : Value}
      {later : Environment} {message : String} {written : σ}
      (hreaches : activity.Reaches m (.statement (.print mode e span)) site)
      (hvalue : e.eval site.environment = .ok value later)
      (hwrite : mode.write value.render site.output = .error message written) :
      Raises activity m (.output message)

theorem Raises.of_starts [Writer σ] {activity part : Activity} {m mid : Machine σ} {fault : Fault}
    (hstarts : Starts activity m part mid) (h : part.Raises mid fault) :
    activity.Raises m fault := by
  cases h with
  | expression hreaches hraises => exact .expression (.next hstarts hreaches) hraises
  | condition hreaches hvalue hkind => exact .condition (.next hstarts hreaches) hvalue hkind
  | output hreaches hvalue hwrite => exact .output (.next hstarts hreaches) hvalue hwrite

/-- Every fault of the computation is raised by a part of the activity. -/
def Explains [Writer σ] (activity : Activity) (x : Execution σ α) : Prop :=
  ∀ m fault later, x m = .error (.fault fault) later → activity.Raises m fault

end Activity

namespace Execution

variable {m later : Machine σ} {halt : Halt} {fault : Fault}

theorem count_bind (x : Execution σ α) : (count >>= fun _ => x) m = x m.counted := rfl

theorem error_of_map {x : Execution σ α} {f : α → β}
    (h : (x >>= fun a => pure (f a)) m = .error halt later) : x m = .error halt later := by
  rcases bind_eq_error.1 h with h | ⟨a, mid, -, h⟩
  · exact h
  · cases h

theorem discard_error {x : Execution σ α}
    (h : (discard x : Execution σ PUnit) m = .error halt later) : x m = .error halt later := by
  rw [discard_eq_bind] at h
  exact error_of_map h

theorem ok_of_discard {x : Execution σ α}
    (h : (discard x : Execution σ PUnit) m = .ok ⟨⟩ later) : ∃ a, x m = .ok a later := by
  cases hrun : x m with
  | ok a mid =>
    rw [discard_of_ok hrun] at h
    cases h
    exact ⟨a, rfl⟩
  | error halt mid =>
    rw [discard_of_error hrun] at h
    cases h

theorem evaluating_error {x : Evaluation α} (h : evaluating x m = .error (.fault fault) later) :
    ∃ env, x m.environment = .error fault env := by
  unfold evaluating at h
  split at h
  · cases h
  · rename_i env hrun
    cases h
    exact ⟨env, hrun⟩

theorem evaluating_ok {x : Evaluation α} {a : α} (h : evaluating x m = .ok a later) :
    ∃ env, x m.environment = .ok a env ∧ later = { m with environment := env } := by
  unfold evaluating at h
  split at h
  · rename_i env hrun
    cases h
    exact ⟨env, hrun, rfl⟩
  · cases h

theorem inBlock_error {x : Execution σ α} (h : inBlock x m = .error halt later) :
    ∃ last, x m.entered = .error halt last := by
  unfold inBlock at h
  split at h
  · cases h
  · rename_i halt last hrun
    cases h
    exact ⟨last, hrun⟩

theorem assigning_error {a : Assignment} (h : assigning a m = .error (.fault fault) later) :
    ∃ env, a.value.eval m.environment = .error fault env := by
  rcases bind_eq_error.1 h with h | ⟨value, mid, -, h⟩
  · exact evaluating_error h
  · cases h

theorem initializing_error {init : Option Assignment}
    (h : initializing init m = .error (.fault fault) later) :
    ∃ a env, init = some a ∧ m.environment.isBound a.target.name = false ∧
      a.value.eval m.environment = .error fault env := by
  cases init with
  | none => cases h
  | some a =>
    by_cases hbound : m.environment.isBound a.target.name
    · rw [initializing_of_bound hbound] at h
      cases h
    · rw [initializing_of_unbound hbound] at h
      obtain ⟨env, hvalue⟩ := assigning_error (discard_error h)
      exact ⟨a, env, rfl, Bool.eq_false_iff.2 hbound, hvalue⟩

open Activity (Explains)

variable [Writer σ]

theorem explains_condition (test : Expr) :
    Explains (.condition test) (condition test : Execution σ Bool) := by
  intro m fault later h
  rcases bind_eq_error.1 h with h | ⟨value, mid, hvalue, h⟩
  · obtain ⟨env, herror⟩ := evaluating_error h
    exact .expression (.next .test (.refl _ _)) (Expr.raises_of_eval_error herror)
  · obtain ⟨env, hok, rfl⟩ := evaluating_ok hvalue
    cases value with
    | boolean b => cases h
    | _ =>
      cases h
      refine .condition (.refl _ _) hok ?_
      intro hkind
      cases hkind

theorem explains_printing (mode : PrintMode) (e : Expr) (span : Span) {m later : Machine σ}
    {fault : Fault} (h : printing mode e m.counted = .error (.fault fault) later) :
    Activity.Raises (.statement (.print mode e span)) m fault := by
  rcases bind_eq_error.1 h with h | ⟨value, mid, hvalue, h⟩
  · obtain ⟨env, herror⟩ := evaluating_error h
    exact .expression (.next .print (.refl _ _)) (Expr.raises_of_eval_error herror)
  · obtain ⟨env, hok, rfl⟩ := evaluating_ok hvalue
    have hwrite : writing (mode.write value.render) { m.counted with environment := env } =
        .error (.fault fault) later := by
      cases mode <;> exact error_of_map h
    unfold writing at hwrite
    split at hwrite
    · cases hwrite
    · rename_i message written hrun
      cases hwrite
      exact .output (.refl _ _) hok hrun

/-- A fault in a loop is one of the test, of the body, of the update, or of a later round. -/
theorem explains_repeatWhile (test : Expr) {body : Block} (update : Option Expr) {fuel : Nat}
    (hbody : Explains (.block body) (body.exec fuel : Execution σ Unit)) (rounds : Nat) :
    Explains (.loop test body update)
      (repeatWhile (condition test) (round fuel body update) rounds : Execution σ Unit) := by
  induction rounds with
  | zero =>
    intro m fault later h
    cases h
  | succ rounds ih =>
    intro m fault later h
    rw [repeatWhile] at h
    rcases bind_eq_error.1 h with h | ⟨holds, mid, htest, h⟩
    · exact (explains_condition test m fault later h).of_starts .loopTest
    · cases holds with
      | false => cases h
      | true =>
        rcases bind_eq_error.1 h with h | ⟨⟨⟩, last, hround, h⟩
        · cases update with
          | none => exact (hbody mid fault later h).of_starts (.loopBody htest)
          | some update =>
            rcases bind_eq_error.1 h with h | ⟨⟨⟩, last, hblock, h⟩
            · exact (hbody mid fault later h).of_starts (.loopBody htest)
            · obtain ⟨env, herror⟩ := evaluating_error (discard_error h)
              exact .expression (.next (.loopUpdate htest hblock) (.refl _ _))
                (Expr.raises_of_eval_error herror)
        · exact (ih last fault later h).of_starts (.again htest hround)

end Execution

open Activity (Explains)

mutual

theorem Statement.explains_exec [Writer σ] (fuel : Nat) : ∀ s : Statement,
    Explains (.statement s) (s.exec fuel : Execution σ (Option Value))
  | .assign a => by
    intro m fault later h
    rw [Statement.exec, count_bind] at h
    obtain ⟨env, herror⟩ := assigning_error (error_of_map h)
    exact .expression (.next .assign (.refl _ _)) (Expr.raises_of_eval_error herror)
  | .print mode value span => by
    intro m fault later h
    rw [Statement.exec, count_bind] at h
    exact explains_printing mode value span (error_of_map h)
  | .block body => by
    intro m fault later h
    rw [Statement.exec, count_bind] at h
    exact (Block.explains_exec fuel body m.counted fault later (error_of_map h)).of_starts .block
  | .conditional arms span => by
    intro m fault later h
    rw [Statement.exec, count_bind] at h
    have hraises := Arms.explains_exec fuel arms m.counted fault later (error_of_map h)
    exact hraises.of_starts .conditional
  | .whileLoop test body span => by
    intro m fault later h
    rw [Statement.exec, count_bind] at h
    have hloop := explains_repeatWhile test none (Block.explains_exec fuel body) fuel
    exact (hloop m.counted fault later (error_of_map h)).of_starts .whileLoop
  | .forLoop init test update body span => by
    intro m fault later h
    rw [Statement.exec, count_bind] at h
    have hloop := explains_repeatWhile test (some update) (Block.explains_exec fuel body) fuel
    rcases bind_eq_error.1 h with h | ⟨⟨⟩, mid, hinit, h⟩
    · obtain ⟨a, env, rfl, hunbound, herror⟩ := initializing_error h
      exact .expression (.next (.initializer hunbound) (.refl _ _))
        (Expr.raises_of_eval_error herror)
    · exact (hloop mid fault later (error_of_map h)).of_starts (.forLoop hinit)
  | .expression value span => by
    intro m fault later h
    rw [Statement.exec, count_bind] at h
    obtain ⟨env, herror⟩ := evaluating_error (error_of_map h)
    exact .expression (.next .expression (.refl _ _)) (Expr.raises_of_eval_error herror)

theorem Block.explains_exec [Writer σ] (fuel : Nat) : ∀ body : Block,
    Explains (.block body) (body.exec fuel : Execution σ Unit)
  | .mk statements span => by
    intro m fault later h
    rw [Block.exec] at h
    obtain ⟨last, hrun⟩ := inBlock_error h
    exact (Statement.explains_execAll fuel statements m.entered fault last hrun).of_starts .body

theorem Arms.explains_exec [Writer σ] (fuel : Nat) : ∀ arms : Arms,
    Explains (.arms arms) (arms.exec fuel : Execution σ Unit)
  | .done => by
    intro m fault later h
    rw [Arms.exec] at h
    cases h
  | .otherwise body => by
    intro m fault later h
    rw [Arms.exec] at h
    exact (Block.explains_exec fuel body m fault later h).of_starts .otherwise
  | .arm test body span rest => by
    intro m fault later h
    rw [Arms.exec] at h
    rcases bind_eq_error.1 h with h | ⟨holds, mid, htest, h⟩
    · exact (explains_condition test m fault later h).of_starts .armTest
    · cases holds with
      | false => exact (Arms.explains_exec fuel rest mid fault later h).of_starts (.nextArm htest)
      | true => exact (Block.explains_exec fuel body mid fault later h).of_starts (.arm htest)

theorem Statement.explains_execAll [Writer σ] (fuel : Nat) : ∀ statements : List Statement,
    Explains (.statements statements) (Statement.execAll fuel statements : Execution σ Unit)
  | [] => by
    intro m fault later h
    rw [Statement.execAll] at h
    cases h
  | statement :: rest => by
    intro m fault later h
    rw [Statement.execAll] at h
    rcases bind_eq_error.1 h with h | ⟨⟨⟩, mid, hfirst, h⟩
    · have hfails := discard_error h
      exact (Statement.explains_exec fuel statement m fault later hfails).of_starts .first
    · obtain ⟨value, hfirst⟩ := ok_of_discard hfirst
      exact (Statement.explains_execAll fuel rest mid fault later h).of_starts (.rest hfirst)

end

/-- A failing evaluation points at an unbound identifier of the expression or at an operation whose
operands have values.  A terminating statement that fails points in the same way into one of its
expressions, or at one of its conditions that has a value which is no boolean; only the output of a
print statement fails without a place. -/
theorem faults_point_where_raised :
    (∀ (e : Expr) (env later : Environment) (fault : Fault),
      e.eval env = .error fault later → e.Raises env fault) ∧
    ∀ (σ : Type) [Writer σ] (s : Statement) (m later : Machine σ) (halt : Halt),
      s.Ends m (.error halt later) →
        ∃ fault, halt = .fault fault ∧ (Activity.statement s).Raises m fault := by
  refine ⟨fun e env later fault => Expr.raises_of_eval_error, ?_⟩
  rintro σ _ s m later halt ⟨fuel, hrun, hsettled⟩
  cases halt with
  | exhausted => exact absurd rfl hsettled
  | fault fault => exact ⟨fault, rfl, Statement.explains_exec fuel s m fault later hrun⟩

/-- The text `2 + (-y / 0)`. -/
def nestedDivision : Expr :=
  .binary .add (.integer 2 ⟨0, 1, none⟩)
    (.group
      (.binary .divide (.unary .negate (.name ⟨"y", ⟨6, 7, none⟩⟩) ⟨5, 7, none⟩)
        (.integer 0 ⟨10, 11, none⟩) ⟨5, 11, none⟩)
      ⟨4, 12, none⟩)
    ⟨0, 12, none⟩

/-- The text `while c { c = 1 }`. -/
def selfSpoilingLoop : Statement :=
  .whileLoop (.name ⟨"c", ⟨6, 7, none⟩⟩)
    (.mk [.assign ⟨⟨"c", ⟨10, 11, none⟩⟩, .integer 1 ⟨14, 15, none⟩, ⟨10, 15, none⟩⟩] ⟨8, 17, none⟩)
    ⟨0, 17, none⟩

/-- The division fails inside a group and a sum, and the condition in the second round. -/
theorem faults_point_where_raised_inside :
    nestedDivision.Raises (.after [.assign "y" (.integer 3)])
        (.operation .divisionByZero (some ⟨5, 6⟩)) ∧
      (Activity.statement selfSpoilingLoop).Raises
        (⟨.after [.assign "c" (.boolean true)], .unbounded, 0⟩ : Machine Buffer)
        (.operation (.operandType "condition" ["Integer"]) (some ⟨6, 1⟩)) := by
  have hdivision := faults_point_where_raised.1 nestedDivision (.after [.assign "y" (.integer 3)])
    (.after [.assign "y" (.integer 3)]) _ rfl
  refine ⟨hdivision, ?_⟩
  obtain ⟨fault, hfault, hraises⟩ := faults_point_where_raised.2 Buffer selfSpoilingLoop
    ⟨.after [.assign "c" (.boolean true)], .unbounded, 0⟩
    ⟨.after [.assign "c" (.integer 1)], .unbounded, 2⟩ _ ⟨2, rfl, by decide +kernel⟩
  cases hfault
  exact hraises

end BlockScript
