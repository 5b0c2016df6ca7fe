import BlockScript.Proofs.Environment.Growth
import BlockScript.Machine
import BlockScript.Output.Buffer

/-!
# The scope of names in a running program

However a statement ends, with a value or with any fault, the blocks that it opened are closed
again and have taken their names with them.  What remains is at most one new name in the block
around the statement: the target of an assignment, or of the initial assignment of a loop.
-/

namespace BlockScript

open Environment (Keeps keeps_progression)

variable {σ α β : Type}

namespace Machine

/-- No name is added. -/
def Keeps (m later : Machine σ) : Prop :=
  m.environment.Keeps later.environment

/-- Names are added to the innermost block only. -/
def Widens (m later : Machine σ) : Prop :=
  m.environment.Consistent → ∃ new, m.environment.Grows later.environment new

theorem keeps_progression : Progression (Keeps : Machine σ → Machine σ → Prop) where
  refl := fun m => Environment.keeps_progression.refl m.environment
  trans := Environment.keeps_progression.trans

theorem widens_progression : Progression (Widens : Machine σ → Machine σ → Prop) where
  refl := fun m hconsistent => ⟨[], .refl hconsistent⟩
  trans := by
    intro m later last hfirst hsecond hconsistent
    obtain ⟨new, hnew⟩ := hfirst hconsistent
    obtain ⟨more, hmore⟩ := hsecond hnew.consistent
    exact ⟨new ++ more, hnew.trans hmore⟩

end Machine

namespace Execution

/-- The names that a computation adds, given the environment that it starts in. -/
def GrowsBy (new : Environment → List String) (x : Execution σ α) : Prop :=
  ∀ m : Machine σ, m.environment.Consistent →
    m.environment.Grows (finalState x m).environment (new m.environment)

theorem GrowsBy.bind_keeps {new : Environment → List String} {x : Execution σ α}
    {f : α → Execution σ β} (hx : GrowsBy new x) (hf : ∀ a, Moves Machine.Keeps (f a)) :
    GrowsBy new (x >>= f) := by
  intro m hconsistent
  have hfirst := hx m hconsistent
  cases hrun : x m with
  | ok a later =>
    rw [finalState_of_ok hrun] at hfirst
    have hrest := hfirst.trans (hf a later hfirst.consistent)
    rw [List.append_nil] at hrest
    rw [finalState, bind_of_ok hrun]
    exact hrest
  | error halt later =>
    rw [finalState_of_error hrun] at hfirst
    rw [finalState, bind_of_error hrun]
    exact hfirst

theorem GrowsBy.count_bind {new : Environment → List String} {x : Execution σ α}
    (hx : GrowsBy new x) : GrowsBy new (count >>= fun _ => x) :=
  fun m => hx { m with executed := m.executed + 1 }

theorem GrowsBy.of_keeps {x : Execution σ α} (h : Moves Machine.Keeps x) :
    GrowsBy (fun _ => []) x :=
  h

theorem inBlock_of_ok {x : Execution σ α} {m later : Machine σ} {a : α}
    (h : x { m with environment := m.environment.enter } = .ok a later) :
    inBlock x m = .ok a { later with environment := later.environment.exit } := by
  simp only [inBlock, h]

theorem inBlock_of_error {x : Execution σ α} {m later : Machine σ} {halt : Halt}
    (h : x { m with environment := m.environment.enter } = .error halt later) :
    inBlock x m = .error halt { later with environment := later.environment.exit } := by
  simp only [inBlock, h]

theorem evaluating_of_ok {x : Evaluation α} {m : Machine σ} {env : Environment} {a : α}
    (h : x m.environment = .ok a env) :
    evaluating x m = .ok a { m with environment := env } := by
  simp only [evaluating, h]

theorem evaluating_of_error {x : Evaluation α} {m : Machine σ} {env : Environment}
    {fault : Fault} (h : x m.environment = .error fault env) :
    evaluating x m = .error (.fault fault) { m with environment := env } := by
  simp only [evaluating, h]

theorem finalState_evaluating (x : Evaluation α) (m : Machine σ) :
    (finalState (evaluating x) m).environment = finalState x m.environment := by
  cases hrun : x m.environment with
  | ok a env => rw [finalState_of_ok (evaluating_of_ok hrun), finalState_of_ok hrun]
  | error fault env =>
    rw [finalState_of_error (evaluating_of_error hrun), finalState_of_error hrun]

theorem finalState_writing (x : EStateM String σ α) (m : Machine σ) :
    (finalState (writing x) m).environment = m.environment := by
  cases hrun : x m.output with
  | ok a output => simp only [finalState, writing, hrun]
  | error message output => simp only [finalState, writing, hrun]

theorem keeps_evaluating {x : Evaluation α} (h : Moves Keeps x) :
    Moves Machine.Keeps (evaluating x : Execution σ α) := by
  intro m
  rw [Machine.Keeps, finalState_evaluating]
  exact h m.environment

theorem keeps_writing (x : EStateM String σ α) : Moves Machine.Keeps (writing x) := by
  intro m
  rw [Machine.Keeps, finalState_writing]
  exact keeps_progression.refl m.environment

theorem keeps_condition (e : Expr) : Moves Machine.Keeps (condition e : Execution σ Bool) := by
  refine Machine.keeps_progression.bind (keeps_evaluating e.eval_keeps) ?_
  intro value
  cases value with
  | boolean b => exact Machine.keeps_progression.pure b
  | _ => exact Machine.keeps_progression.throw _

theorem keeps_repeatWhile {test : Execution σ Bool} {body : Execution σ Unit}
    (htest : Moves Machine.Keeps test) (hbody : Moves Machine.Keeps body) (fuel : Nat) :
    Moves Machine.Keeps (repeatWhile test body fuel) := by
  induction fuel with
  | zero => exact Machine.keeps_progression.throw _
  | succ fuel ih =>
    rw [repeatWhile]
    refine Machine.keeps_progression.bind htest ?_
    intro holds
    cases holds with
    | false => exact Machine.keeps_progression.pure _
    | true => exact Machine.keeps_progression.bind hbody fun _ => ih

/-- Closing the block takes the names that its body added. -/
theorem keeps_inBlock {x : Execution σ α} (h : Moves Machine.Widens x) :
    Moves Machine.Keeps (inBlock x) := by
  intro m hconsistent
  have hbody := h { m with environment := m.environment.enter } hconsistent.enter
  cases hrun : x { m with environment := m.environment.enter } with
  | ok a later =>
    rw [finalState_of_ok hrun] at hbody
    obtain ⟨new, hnew⟩ := hbody
    rw [finalState_of_ok (inBlock_of_ok hrun)]
    exact hnew.exit hconsistent
  | error halt later =>
    rw [finalState_of_error hrun] at hbody
    obtain ⟨new, hnew⟩ := hbody
    rw [finalState_of_error (inBlock_of_error hrun)]
    exact hnew.exit hconsistent

end Execution

/-! ## The name that a statement adds -/

/-- Whether an expression has a value. -/
def Expr.succeeds (e : Expr) (env : Environment) : Bool :=
  match e.eval env with
  | .ok _ _ => true
  | .error _ _ => false

/-- The name that an assignment adds: its target, where that is unbound and gets a value. -/
def Assignment.newName? (a : Assignment) (env : Environment) : Option String :=
  if !env.isBound a.target.name && a.value.succeeds env then some a.target.name else none

/-- The name that a statement adds to the innermost block. -/
def Statement.newName? : Statement → Environment → Option String
  | .assign a, env => a.newName? env
  | .forLoop (some init) _ _ _ _, env => init.newName? env
  | _, _ => none

namespace Assignment

variable {a : Assignment} {env later : Environment}

theorem newName?_of_bound (h : env.isBound a.target.name) : a.newName? env = none := by
  simp [newName?, h]

theorem newName?_of_error {fault : Fault} (h : a.value.eval env = .error fault later) :
    a.newName? env = none := by
  simp [newName?, Expr.succeeds, h]

theorem newName?_of_ok {value : Value} (h : a.value.eval env = .ok value later)
    (hunbound : ¬env.isBound a.target.name) : a.newName? env = some a.target.name := by
  simp [newName?, Expr.succeeds, h, hunbound]

end Assignment

namespace Execution

theorem growsBy_assigning (a : Assignment) :
    GrowsBy (fun env => (a.newName? env).toList) (assigning a : Execution σ Value) := by
  intro m hconsistent
  have hvalue := a.value.eval_keeps m.environment hconsistent
  change m.environment.Grows _ (a.newName? m.environment).toList
  rw [finalState, assigning]
  cases hrun : a.value.eval m.environment with
  | error fault env =>
    rw [finalState_of_error hrun] at hvalue
    rw [bind_of_error (evaluating_of_error hrun), Assignment.newName?_of_error hrun]
    exact hvalue
  | ok value env =>
    rw [finalState_of_ok hrun] at hvalue
    have hbound := hvalue.bound_iff a.target.name
    rw [bind_of_ok (evaluating_of_ok hrun)]
    change m.environment.Grows (env.assign a.target.name value) _
    by_cases htarget : m.environment.isBound a.target.name
    · have hlater : env.isBound a.target.name := hbound.2 (.inl htarget)
      rw [Assignment.newName?_of_bound htarget]
      exact hvalue.trans (.assign_of_bound hvalue.consistent hlater value)
    · have hlater : ¬env.isBound a.target.name := by
        simpa [htarget] using hbound
      rw [Assignment.newName?_of_ok hrun htarget]
      exact hvalue.trans (.assign_of_unbound hvalue.consistent hlater value)

theorem initializing_of_bound {a : Assignment} {m : Machine σ}
    (h : m.environment.isBound a.target.name) : initializing (some a) m = .ok () m := by
  rw [initializing, get_bind]
  simp only [h]
  rfl

theorem initializing_of_unbound {a : Assignment} {m : Machine σ}
    (h : ¬m.environment.isBound a.target.name) :
    initializing (some a) m = (discard (assigning a) : Execution σ Unit) m := by
  rw [initializing, get_bind]
  simp only [h]
  rfl

theorem growsBy_initializing (a : Assignment) :
    GrowsBy (fun env => (a.newName? env).toList)
      (initializing (some a) : Execution σ Unit) := by
  intro m hconsistent
  change m.environment.Grows _ (a.newName? m.environment).toList
  by_cases hbound : m.environment.isBound a.target.name
  · rw [finalState_of_ok (initializing_of_bound hbound), Assignment.newName?_of_bound hbound]
    exact .refl hconsistent
  · rw [finalState, initializing_of_unbound hbound, discard_eq_bind]
    exact (growsBy_assigning a).bind_keeps
      (fun _ => Machine.keeps_progression.pure _) m hconsistent

theorem keeps_printing [Writer σ] (mode : PrintMode) (e : Expr) :
    Moves Machine.Keeps (printing mode e : Execution σ Value) := by
  refine Machine.keeps_progression.bind (keeps_evaluating e.eval_keeps) ?_
  intro value
  cases mode with
  | value =>
    exact Machine.keeps_progression.bind (keeps_writing _)
      fun _ => Machine.keeps_progression.pure _
  | line =>
    exact Machine.keeps_progression.bind (keeps_writing _)
      fun _ => Machine.keeps_progression.pure _

end Execution

/-! ## Runs -/

open Execution

mutual

theorem Statement.growsBy_exec [Writer σ] (fuel : Nat) : ∀ s : Statement,
    GrowsBy (fun env => (s.newName? env).toList) (s.exec fuel : Execution σ (Option Value))
  | .assign a => by
    rw [Statement.exec]
    refine GrowsBy.count_bind ?_
    exact (growsBy_assigning a).bind_keeps fun _ => Machine.keeps_progression.pure _
  | .print mode value span => by
    rw [Statement.exec]
    refine GrowsBy.count_bind (GrowsBy.of_keeps ?_)
    exact Machine.keeps_progression.bind (keeps_printing mode value)
      fun _ => Machine.keeps_progression.pure _
  | .block body => by
    rw [Statement.exec]
    refine GrowsBy.count_bind (GrowsBy.of_keeps ?_)
    exact Machine.keeps_progression.bind (Block.keeps_exec fuel body)
      fun _ => Machine.keeps_progression.pure _
  | .conditional arms span => by
    rw [Statement.exec]
    refine GrowsBy.count_bind (GrowsBy.of_keeps ?_)
    exact Machine.keeps_progression.bind (Arms.keeps_exec fuel arms)
      fun _ => Machine.keeps_progression.pure _
  | .whileLoop test body span => by
    rw [Statement.exec]
    refine GrowsBy.count_bind (GrowsBy.of_keeps ?_)
    have hloop := keeps_repeatWhile (keeps_condition test) (Block.keeps_exec fuel body) fuel
    exact Machine.keeps_progression.bind hloop fun _ => Machine.keeps_progression.pure _
  | .forLoop init test update body span => by
    have hround : Moves Machine.Keeps
        (do body.exec fuel; discard (evaluating update.eval) : Execution σ Unit) :=
      Machine.keeps_progression.bind (Block.keeps_exec fuel body) fun _ =>
        Machine.keeps_progression.discard (keeps_evaluating update.eval_keeps)
    have hrest := Machine.keeps_progression.bind
      (keeps_repeatWhile (keeps_condition test) hround fuel)
      fun _ => Machine.keeps_progression.pure (none : Option Value)
    rw [Statement.exec]
    refine GrowsBy.count_bind ?_
    cases init with
    | none => exact GrowsBy.of_keeps hrest
    | some a => exact (growsBy_initializing a).bind_keeps fun _ => hrest
  | .expression value span => by
    rw [Statement.exec]
    refine GrowsBy.count_bind (GrowsBy.of_keeps ?_)
    exact Machine.keeps_progression.bind (keeps_evaluating value.eval_keeps)
      fun _ => Machine.keeps_progression.pure _

theorem Block.keeps_exec [Writer σ] (fuel : Nat) : ∀ body : Block,
    Moves Machine.Keeps (body.exec fuel : Execution σ Unit)
  | .mk statements span => by
    rw [Block.exec]
    exact keeps_inBlock (Statement.widens_execAll fuel statements)

theorem Arms.keeps_exec [Writer σ] (fuel : Nat) : ∀ arms : Arms,
    Moves Machine.Keeps (arms.exec fuel : Execution σ Unit)
  | .done => by
    rw [Arms.exec]
    exact Machine.keeps_progression.pure _
  | .otherwise body => by
    rw [Arms.exec]
    exact Block.keeps_exec fuel body
  | .arm test body span rest => by
    rw [Arms.exec]
    refine Machine.keeps_progression.bind (keeps_condition test) ?_
    intro holds
    cases holds with
    | false => exact Arms.keeps_exec fuel rest
    | true => exact Block.keeps_exec fuel body

theorem Statement.widens_execAll [Writer σ] (fuel : Nat) : ∀ statements : List Statement,
    Moves Machine.Widens (Statement.execAll fuel statements : Execution σ Unit)
  | [] => by
    rw [Statement.execAll]
    exact Machine.widens_progression.pure _
  | statement :: rest => by
    rw [Statement.execAll]
    refine Machine.widens_progression.bind (Machine.widens_progression.discard ?_)
      fun _ => Statement.widens_execAll fuel rest
    intro m hconsistent
    exact ⟨_, Statement.growsBy_exec fuel statement m hconsistent⟩

end

/-! ## What can be observed -/

/-- The later environment differs in its names by `new` only, which is the last one that the
innermost block declared. -/
structure Environment.ExtendedBy (env later : Environment) (new : Option String) : Prop where
  depth : later.depth = env.depth
  outer : ∀ k < env.depth, later.declaredAt? k = env.declaredAt? k
  innermost : ∃ names, env.declaredAt? env.depth = some names ∧
    later.declaredAt? env.depth = some (names ++ new.toList)
  kept : ∀ name, env.isBound name → later.isBound name
  bound_iff : ∀ name, later.isBound name ↔ env.isBound name ∨ new = some name

theorem Environment.Grows.extendedBy {env later : Environment} {new : Option String}
    (h : env.Grows later new.toList) : env.ExtendedBy later new := by
  have hbefore : env.declarations = env.outer.reverse ++ [env.innermost] := by
    rw [declarations_eq, frames_eq, List.reverse_cons]
  have hafter : later.declarations = env.outer.reverse ++ [env.innermost ++ new.toList] := by
    rw [declarations_eq, h.frames, List.reverse_cons]
  have hdepth : env.depth = env.outer.reverse.length := by
    rw [depth_eq, List.length_reverse]
  refine ⟨?_, ?_, ?_, ?_, ?_⟩
  · rw [depth_eq, depth_eq, h.outer_eq]
  · intro k hk
    rw [hdepth] at hk
    rw [declaredAt?_eq, declaredAt?_eq, hbefore, hafter, List.getElem?_append_left hk,
      List.getElem?_append_left hk]
  · refine ⟨env.innermost, ?_, ?_⟩
    · rw [declaredAt?_eq, hbefore, hdepth, List.getElem?_concat_length]
    · rw [declaredAt?_eq, hafter, hdepth, List.getElem?_concat_length]
  · intro name hname
    exact (h.bound_iff name).2 (.inl hname)
  · intro name
    rw [h.bound_iff, Option.mem_toList]

/-- However a run of a statement ends, the names of the blocks around the innermost one are as they
were, and the innermost one has gained the new name of the statement, if there is one. -/
theorem Statement.exec_extendedBy [Writer σ] (s : Statement) (fuel : Nat) (m : Machine σ)
    (h : m.environment.Reachable) :
    m.environment.ExtendedBy (finalState (s.exec fuel) m).environment
      (s.newName? m.environment) :=
  (s.growsBy_exec fuel m h.consistent).extendedBy

/-- A loop over `i` that binds `y` and then divides by zero, in a block inside its body. -/
def faultingLoop : Statement :=
  let span : Span := ⟨0, 0, none⟩
  .forLoop (some ⟨⟨"i", span⟩, .integer 0 span, span⟩)
    (.binary .less (.name ⟨"i", span⟩) (.integer 2 span) span)
    (.step .up .after ⟨"i", span⟩ span)
    (.mk [.block (.mk
      [.assign ⟨⟨"y", span⟩, .integer 1 span, span⟩,
        .expression (.binary .divide (.name ⟨"y", span⟩) (.integer 0 span) span) span] span)]
      span)
    span

theorem exec_extendedBy_faultingLoop :
    let m : Machine Buffer :=
      ⟨Environment.after [.assign "x" .nil, .enter, .assign "z" .nil], .unbounded, 0⟩
    faultingLoop.newName? m.environment = some "i" ∧
      m.environment.ExtendedBy (finalState (faultingLoop.exec 5) m).environment (some "i") :=
  ⟨rfl, Statement.exec_extendedBy faultingLoop 5 _ ⟨_, rfl⟩⟩

end BlockScript
