import BlockScript.Proofs.Environment.Growth
import BlockScript.Machine

/-!
# Runs in lockstep

The course of a run depends on the values of the names that occur in the program, and on nothing
else in the environment.  So a relation between environments that keeps these values equal, and that
every operation on environments preserves, relates two whole runs of one program.  The relation may
depend on the number of blocks opened since the runs started.
-/

namespace BlockScript

/-! ## The names of a program -/

/-- The names that occur in an expression. -/
def Expr.names : Expr → List String
  | .integer _ _ | .float _ _ | .string _ _ | .boolean _ _ | .nil _ => []
  | .name id => [id.name]
  | .group inner _ => inner.names
  | .unary _ operand _ => operand.names
  | .binary _ left right _ => left.names ++ right.names
  | .step _ _ target _ => [target.name]
  | .update _ target value _ => target.name :: value.names

def Assignment.names (a : Assignment) : List String :=
  a.target.name :: a.value.names

mutual

/-- The names that occur in a statement. -/
def Statement.names : Statement → List String
  | .assign a => a.names
  | .print _ value _ => value.names
  | .block body => body.names
  | .conditional arms _ => arms.names
  | .whileLoop test body _ => test.names ++ body.names
  | .forLoop init test update body _ =>
    (init.map Assignment.names).getD [] ++ test.names ++ update.names ++ body.names
  | .expression value _ => value.names

def Block.names : Block → List String
  | .mk statements _ => Statement.namesOfAll statements

def Arms.names : Arms → List String
  | .done => []
  | .otherwise body => body.names
  | .arm test body _ rest => test.names ++ body.names ++ rest.names

def Statement.namesOfAll : List Statement → List String
  | [] => []
  | statement :: rest => statement.names ++ Statement.namesOfAll rest

end

/-! ## Related environments -/

/-- A relation between environments, one for each number of open blocks, under which the names of
`N` have equal values and which every operation preserves. -/
structure Bisimulation (N : String → Prop) (R : Nat → Environment → Environment → Prop) :
    Prop where
  get : ∀ {k env env'}, R k env env' → ∀ name, N name → env.get? name = env'.get? name
  assign : ∀ {k env env'}, R k env env' → ∀ name value, N name →
    R k (env.assign name value) (env'.assign name value)
  enter : ∀ {k env env'}, R k env env' → R (k + 1) env.enter env'.enter
  exit : ∀ {k env env'}, R (k + 1) env env' → R k env.exit env'.exit

variable {N : String → Prop} {R : Nat → Environment → Environment → Prop}

namespace Evaluation

variable {α : Type}

theorem lockstep_within {P : Environment → Environment → Prop} {x y : Evaluation α}
    (h : Lockstep P x y) (span : Span) : Lockstep P (within span x) (within span y) := by
  intro env env' hrel
  have hend := h env env' hrel
  unfold within
  generalize x env = r at hend
  generalize y env' = r' at hend
  cases hend with
  | ok hlater => exact .ok hlater
  | error hlater => exact .error hlater

theorem lockstep_result {P : Environment → Environment → Prop} (r : Except Cause α) :
    Lockstep P (result r) (result r) := by
  cases r with
  | ok a => exact .pure a
  | error cause => exact .throw _

theorem lockstep_variableValue (h : Bisimulation N R) (k : Nat) {id : Identifier}
    (hid : N id.name) : Lockstep (R k) (variableValue id) (variableValue id) := by
  intro env env' hrel
  rw [variableValue, get_bind, get_bind, h.get hrel id.name hid]
  cases env'.get? id.name with
  | none => exact .error hrel
  | some value => exact .ok hrel

theorem lockstep_assign (h : Bisimulation N R) (k : Nat) {name : String} (hname : N name)
    (value : Value) : Lockstep (R k) (assign name value) (assign name value) :=
  fun _ _ hrel => .ok (h.assign hrel name value hname)

end Evaluation

open Evaluation in
theorem Expr.lockstep_eval (h : Bisimulation N R) (k : Nat) (e : Expr)
    (hnames : ∀ name ∈ e.names, N name) : Lockstep (R k) e.eval e.eval := by
  induction e with
  | integer value span => exact .pure _
  | float value span => exact .pure _
  | string token span => exact .pure _
  | boolean value span => exact .pure _
  | nil span => exact .pure _
  | name id => exact lockstep_variableValue h k (hnames id.name (by simp [names]))
  | group inner span ih => exact lockstep_within (ih hnames) span
  | unary op operand span ih =>
    exact lockstep_within ((ih hnames).bind fun _ => lockstep_result _) span
  | binary op left right span ihLeft ihRight =>
    obtain ⟨hleft, hright⟩ := List.forall_mem_append.1 hnames
    exact lockstep_within
      ((ihLeft hleft).bind fun _ => (ihRight hright).bind fun _ => lockstep_result _) span
  | step direction fixity target span =>
    have htarget : N target.name := hnames target.name (by simp [names])
    refine lockstep_within ?_ span
    refine (lockstep_variableValue h k htarget).bind fun old => ?_
    refine (lockstep_result _).bind fun new => ?_
    exact (lockstep_assign h k htarget new).bind fun _ => .pure _
  | update op target operand span ih =>
    obtain ⟨htarget, hoperand⟩ := List.forall_mem_cons.1 hnames
    refine lockstep_within ((ih hoperand).bind fun value => ?_) span
    refine (lockstep_variableValue h k htarget).bind fun old => ?_
    refine (lockstep_result _).bind fun new => ?_
    exact (lockstep_assign h k htarget new).bind fun _ => .pure _

/-! ## Related machines -/

variable {σ α : Type} {ahead : Nat}

/-- The environments are related, the writers are equal, and the second machine is `ahead`
statements ahead of the first. -/
structure Machine.Alike (P : Environment → Environment → Prop) (ahead : Nat)
    (m m' : Machine σ) : Prop where
  environment : P m.environment m'.environment
  output : m.output = m'.output
  executed : m'.executed = m.executed + ahead

namespace Execution

theorem lockstep_evaluating {P : Environment → Environment → Prop} {x y : Evaluation α}
    (h : Lockstep P x y) :
    Lockstep (Machine.Alike P ahead) (evaluating x : Execution σ α) (evaluating y) := by
  intro m m' hrel
  have hend := h _ _ hrel.environment
  unfold evaluating
  generalize x m.environment = r at hend
  generalize y m'.environment = r' at hend
  cases hend with
  | ok hlater => exact .ok ⟨hlater, hrel.output, hrel.executed⟩
  | error hlater => exact .error ⟨hlater, hrel.output, hrel.executed⟩

theorem lockstep_writing {P : Environment → Environment → Prop} (x : EStateM String σ α) :
    Lockstep (Machine.Alike P ahead) (writing x) (writing x) := by
  intro m m' hrel
  unfold writing
  rw [hrel.output]
  cases x m'.output with
  | ok a output => exact .ok ⟨hrel.environment, rfl, hrel.executed⟩
  | error message output => exact .error ⟨hrel.environment, rfl, hrel.executed⟩

theorem lockstep_count {P : Environment → Environment → Prop} :
    Lockstep (Machine.Alike P ahead) (count : Execution σ Unit) count := by
  intro m m' hrel
  refine .ok ⟨hrel.environment, hrel.output, ?_⟩
  have hexecuted := hrel.executed
  change m'.executed + 1 = m.executed + 1 + ahead
  omega

theorem lockstep_inBlock (h : Bisimulation N R) {k : Nat} {x y : Execution σ α}
    (hxy : Lockstep (Machine.Alike (R (k + 1)) ahead) x y) :
    Lockstep (Machine.Alike (R k) ahead) (inBlock x) (inBlock y) := by
  intro m m' hrel
  have hend := hxy { m with environment := m.environment.enter }
    { m' with environment := m'.environment.enter }
    ⟨h.enter hrel.environment, hrel.output, hrel.executed⟩
  unfold inBlock
  generalize x { m with environment := m.environment.enter } = r at hend
  generalize y { m' with environment := m'.environment.enter } = r' at hend
  cases hend with
  | ok hlater => exact .ok ⟨h.exit hlater.environment, hlater.output, hlater.executed⟩
  | error hlater => exact .error ⟨h.exit hlater.environment, hlater.output, hlater.executed⟩

theorem lockstep_condition (h : Bisimulation N R) (k : Nat) {e : Expr}
    (hnames : ∀ name ∈ e.names, N name) :
    Lockstep (Machine.Alike (R k) ahead) (condition e : Execution σ Bool) (condition e) := by
  refine (lockstep_evaluating (e.lockstep_eval h k hnames)).bind ?_
  intro value
  cases value with
  | boolean b => exact .pure b
  | _ => exact .throw _

theorem lockstep_assigning (h : Bisimulation N R) (k : Nat) {a : Assignment}
    (hnames : ∀ name ∈ a.names, N name) :
    Lockstep (Machine.Alike (R k) ahead) (assigning a : Execution σ Value) (assigning a) := by
  obtain ⟨htarget, hvalue⟩ := List.forall_mem_cons.1 hnames
  refine (lockstep_evaluating (a.value.lockstep_eval h k hvalue)).bind fun value => ?_
  exact (lockstep_evaluating (Evaluation.lockstep_assign h k htarget value)).bind
    fun _ => .pure _

theorem lockstep_repeatWhile {P : Machine σ → Machine σ → Prop}
    {test test' : Execution σ Bool} {body body' : Execution σ Unit}
    (htest : Lockstep P test test') (hbody : Lockstep P body body') (fuel : Nat) :
    Lockstep P (repeatWhile test body fuel) (repeatWhile test' body' fuel) := by
  induction fuel with
  | zero => exact .throw _
  | succ fuel ih =>
    rw [repeatWhile, repeatWhile]
    refine htest.bind ?_
    intro holds
    cases holds with
    | false => exact .pure _
    | true => exact hbody.bind fun _ => ih

theorem lockstep_initializing (h : Bisimulation N R) (k : Nat) {init : Option Assignment}
    (hnames : ∀ name ∈ (init.map Assignment.names).getD [], N name) :
    Lockstep (Machine.Alike (R k) ahead) (initializing init : Execution σ Unit)
      (initializing init) := by
  cases init with
  | none => exact .pure _
  | some a =>
    intro m m' hrel
    have htarget : N a.target.name := hnames a.target.name (by simp [Assignment.names])
    rw [initializing, get_bind, get_bind, Environment.isBound, Environment.isBound,
      h.get hrel.environment a.target.name htarget]
    cases (m'.environment.get? a.target.name).isSome with
    | true => exact .ok hrel
    | false => exact (lockstep_assigning h k hnames).discard m m' hrel

theorem lockstep_printing [Writer σ] (h : Bisimulation N R) (k : Nat) (mode : PrintMode)
    {e : Expr} (hnames : ∀ name ∈ e.names, N name) :
    Lockstep (Machine.Alike (R k) ahead) (printing mode e : Execution σ Value)
      (printing mode e) := by
  refine (lockstep_evaluating (e.lockstep_eval h k hnames)).bind fun value => ?_
  cases mode with
  | value => exact (lockstep_writing _).bind fun _ => .pure _
  | line => exact (lockstep_writing _).bind fun _ => .pure _

end Execution

/-! ## Whole runs -/

open Execution

mutual

theorem Statement.lockstep_exec [Writer σ] (h : Bisimulation N R) (fuel : Nat) :
    ∀ (s : Statement) (k : Nat), (∀ name ∈ s.names, N name) →
      Lockstep (Machine.Alike (R k) ahead) (s.exec fuel : Execution σ (Option Value))
        (s.exec fuel)
  | .assign a, k, hnames => by
    rw [Statement.exec]
    exact lockstep_count.bind fun _ => (lockstep_assigning h k hnames).bind fun _ => .pure _
  | .print mode value span, k, hnames => by
    rw [Statement.exec]
    exact lockstep_count.bind fun _ =>
      (lockstep_printing h k mode hnames).bind fun _ => .pure _
  | .block body, k, hnames => by
    rw [Statement.exec]
    exact lockstep_count.bind fun _ =>
      (Block.lockstep_exec h fuel body k hnames).bind fun _ => .pure _
  | .conditional arms span, k, hnames => by
    rw [Statement.exec]
    exact lockstep_count.bind fun _ =>
      (Arms.lockstep_exec h fuel arms k hnames).bind fun _ => .pure _
  | .whileLoop test body span, k, hnames => by
    obtain ⟨htest, hbody⟩ := List.forall_mem_append.1 hnames
    have hround := Block.lockstep_exec h fuel body k hbody
    rw [Statement.exec]
    exact lockstep_count.bind fun _ =>
      (lockstep_repeatWhile (lockstep_condition h k htest) hround fuel).bind fun _ => .pure _
  | .forLoop init test update body span, k, hnames => by
    obtain ⟨hhead, hbody⟩ := List.forall_mem_append.1 hnames
    obtain ⟨hhead, hupdate⟩ := List.forall_mem_append.1 hhead
    obtain ⟨hinit, htest⟩ := List.forall_mem_append.1 hhead
    have hround := (Block.lockstep_exec h fuel body k hbody).bind fun _ =>
      (lockstep_evaluating (update.lockstep_eval h k hupdate)).discard
    rw [Statement.exec]
    refine lockstep_count.bind fun _ => (lockstep_initializing h k hinit).bind fun _ => ?_
    exact (lockstep_repeatWhile (lockstep_condition h k htest) hround fuel).bind fun _ => .pure _
  | .expression value span, k, hnames => by
    rw [Statement.exec]
    exact lockstep_count.bind fun _ =>
      (lockstep_evaluating (value.lockstep_eval h k hnames)).bind fun _ => .pure _

theorem Block.lockstep_exec [Writer σ] (h : Bisimulation N R) (fuel : Nat) :
    ∀ (body : Block) (k : Nat), (∀ name ∈ body.names, N name) →
      Lockstep (Machine.Alike (R k) ahead) (body.exec fuel : Execution σ Unit) (body.exec fuel)
  | .mk statements span, k, hnames => by
    rw [Block.exec]
    exact lockstep_inBlock h (Statement.lockstep_execAll h fuel statements (k + 1) hnames)

theorem Arms.lockstep_exec [Writer σ] (h : Bisimulation N R) (fuel : Nat) :
    ∀ (arms : Arms) (k : Nat), (∀ name ∈ arms.names, N name) →
      Lockstep (Machine.Alike (R k) ahead) (arms.exec fuel : Execution σ Unit) (arms.exec fuel)
  | .done, k, hnames => by
    rw [Arms.exec]
    exact .pure _
  | .otherwise body, k, hnames => by
    rw [Arms.exec]
    exact Block.lockstep_exec h fuel body k hnames
  | .arm test body span rest, k, hnames => by
    obtain ⟨hhead, hrest⟩ := List.forall_mem_append.1 hnames
    obtain ⟨htest, hbody⟩ := List.forall_mem_append.1 hhead
    rw [Arms.exec]
    refine (lockstep_condition h k htest).bind ?_
    intro holds
    cases holds with
    | false => exact Arms.lockstep_exec h fuel rest k hrest
    | true => exact Block.lockstep_exec h fuel body k hbody

theorem Statement.lockstep_execAll [Writer σ] (h : Bisimulation N R) (fuel : Nat) :
    ∀ (statements : List Statement) (k : Nat),
      (∀ name ∈ Statement.namesOfAll statements, N name) →
      Lockstep (Machine.Alike (R k) ahead)
        (Statement.execAll fuel statements : Execution σ Unit)
        (Statement.execAll fuel statements)
  | [], k, hnames => by
    rw [Statement.execAll]
    exact .pure _
  | statement :: rest, k, hnames => by
    obtain ⟨hfirst, hrest⟩ := List.forall_mem_append.1 hnames
    rw [Statement.execAll]
    exact (Statement.lockstep_exec h fuel statement k hfirst).discard.bind fun _ =>
      Statement.lockstep_execAll h fuel rest k hrest

end

end BlockScript
