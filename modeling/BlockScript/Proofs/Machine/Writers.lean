import BlockScript.Proofs.Computation
import BlockScript.Machine

/-!
# One program on two writers

A run touches its writer only to write bytes to it.  So it is enough to relate the steps that runs
are built from: a relation between the computations on one writer and those on another that holds
for every step, and that composing steps preserves, holds between the two runs of any program.
-/

namespace BlockScript

open Execution

variable {σ τ : Type} [Writer σ] [Writer τ]

/-- A relation between computations on two writers that runs can be built up from. -/
structure Congruence (Rel : (α : Type) → Execution σ α → Execution τ α → Prop) : Prop where
  returned : ∀ {α : Type} (a : α), Rel α (pure a) (pure a)
  halted : ∀ {α : Type} (halt : Halt), Rel α (throw halt) (throw halt)
  bind : ∀ {α β : Type} {x : Execution σ α} {y : Execution τ α} {f : α → Execution σ β}
    {g : α → Execution τ β}, Rel α x y → (∀ a, Rel β (f a) (g a)) → Rel β (x >>= f) (y >>= g)
  counted : Rel Unit count count
  evaluated : ∀ {α : Type} (x : Evaluation α), Rel α (evaluating x) (evaluating x)
  /-- What follows may depend on the environment. -/
  depending : ∀ {α : Type} {f : Environment → Execution σ α} {g : Environment → Execution τ α},
    (∀ env, Rel α (f env) (g env)) →
      Rel α (get >>= fun m => f m.environment) (get >>= fun m => g m.environment)
  enclosed : ∀ {α : Type} {x : Execution σ α} {y : Execution τ α}, Rel α x y →
    Rel α (inBlock x) (inBlock y)
  written : ∀ bytes : List UInt8,
    Rel Unit (writing (Writer.writeAll bytes)) (writing (Writer.writeAll bytes))

namespace Execution

variable {α β : Type} {x : EStateM String σ α} {m : Machine σ} {output : σ}

omit [Writer σ] in
theorem writing_of_ok {a : α} (h : x m.output = .ok a output) :
    writing x m = .ok a { m with output } := by
  rw [writing, h]

omit [Writer σ] in
theorem writing_of_error {message : String} (h : x m.output = .error message output) :
    writing x m = .error (.fault (.output message)) { m with output } := by
  rw [writing, h]

omit [Writer σ] in
theorem writing_bind (x : EStateM String σ α) (f : α → EStateM String σ β) :
    writing (x >>= f) = writing x >>= fun a => writing (f a) := by
  funext m
  cases hrun : x m.output with
  | ok a output =>
    rw [bind_of_ok (writing_of_ok hrun), writing, writing, bind_of_ok hrun]
  | error message output =>
    rw [bind_of_error (writing_of_error hrun), writing_of_error (bind_of_error hrun f)]

end Execution

namespace Congruence

variable {Rel : (α : Type) → Execution σ α → Execution τ α → Prop}

theorem discarded (h : Congruence Rel) {α : Type} {x : Execution σ α} {y : Execution τ α}
    (hxy : Rel α x y) : Rel Unit (discard x) (discard y) := by
  rw [discard_eq_bind, discard_eq_bind]
  exact h.bind hxy fun _ => h.returned _

theorem condition (h : Congruence Rel) (e : Expr) :
    Rel Bool (condition e) (condition e) := by
  apply h.bind (h.evaluated e.eval)
  intro value
  cases value with
  | boolean b => exact h.returned b
  | _ => exact h.halted _

theorem assigning (h : Congruence Rel) (a : Assignment) :
    Rel Value (assigning a) (assigning a) := by
  apply h.bind (h.evaluated _)
  intro value
  exact h.bind (h.evaluated _) fun _ => h.returned value

theorem initializing (h : Congruence Rel) (init : Option Assignment) :
    Rel Unit (initializing init) (initializing init) := by
  cases init with
  | none => exact h.returned _
  | some a =>
    have hrest : ∀ env : Environment,
        Rel Unit (unless env.isBound a.target.name do discard (Execution.assigning a))
          (unless env.isBound a.target.name do discard (Execution.assigning a)) := by
      intro env
      cases env.isBound a.target.name with
      | true => exact h.returned _
      | false => exact h.discarded (h.assigning a)
    exact h.depending hrest

theorem repeatWhile (h : Congruence Rel) {test : Execution σ Bool} {test' : Execution τ Bool}
    {body : Execution σ Unit} {body' : Execution τ Unit} (htest : Rel Bool test test')
    (hbody : Rel Unit body body') (fuel : Nat) :
    Rel Unit (repeatWhile test body fuel) (repeatWhile test' body' fuel) := by
  induction fuel with
  | zero => exact h.halted _
  | succ fuel ih =>
    rw [Execution.repeatWhile, Execution.repeatWhile]
    apply h.bind htest
    intro holds
    cases holds with
    | false => exact h.returned _
    | true => exact h.bind hbody fun _ => ih

theorem printing (h : Congruence Rel) (mode : PrintMode) (e : Expr) :
    Rel Value (printing mode e) (printing mode e) := by
  apply h.bind (h.evaluated e.eval)
  intro value
  cases mode with
  | value => exact h.bind (h.written _) fun _ => h.returned value
  | line =>
    have hline : Rel Unit (writing (Writer.writeLine value.render))
        (writing (Writer.writeLine value.render)) := by
      rw [Writer.writeLine, Writer.writeLine, writing_bind, writing_bind]
      exact h.bind (h.written _) fun _ => h.written _
    exact h.bind hline fun _ => h.returned value

end Congruence

/-! ## Whole runs -/

variable {Rel : (α : Type) → Execution σ α → Execution τ α → Prop}

mutual

theorem Statement.congruent_exec (h : Congruence Rel) (fuel : Nat) :
    ∀ s : Statement, Rel (Option Value) (s.exec fuel) (s.exec fuel)
  | .assign a => by
    rw [Statement.exec, Statement.exec]
    exact h.bind h.counted fun _ => h.bind (h.assigning a) fun _ => h.returned _
  | .print mode value span => by
    rw [Statement.exec, Statement.exec]
    exact h.bind h.counted fun _ => h.bind (h.printing mode value) fun _ => h.returned _
  | .block body => by
    rw [Statement.exec, Statement.exec]
    exact h.bind h.counted fun _ =>
      h.bind (Block.congruent_exec h fuel body) fun _ => h.returned _
  | .conditional arms span => by
    rw [Statement.exec, Statement.exec]
    exact h.bind h.counted fun _ =>
      h.bind (Arms.congruent_exec h fuel arms) fun _ => h.returned _
  | .whileLoop test body span => by
    rw [Statement.exec, Statement.exec]
    have hloop := h.repeatWhile (h.condition test) (Block.congruent_exec h fuel body) fuel
    exact h.bind h.counted fun _ => h.bind hloop fun _ => h.returned _
  | .forLoop init test update body span => by
    rw [Statement.exec, Statement.exec]
    have hround := h.bind (Block.congruent_exec h fuel body) fun _ =>
      h.discarded (h.evaluated update.eval)
    have hloop := h.repeatWhile (h.condition test) hround fuel
    exact h.bind h.counted fun _ => h.bind (h.initializing init) fun _ =>
      h.bind hloop fun _ => h.returned _
  | .expression value span => by
    rw [Statement.exec, Statement.exec]
    exact h.bind h.counted fun _ => h.bind (h.evaluated value.eval) fun _ => h.returned _

theorem Block.congruent_exec (h : Congruence Rel) (fuel : Nat) :
    ∀ body : Block, Rel Unit (body.exec fuel) (body.exec fuel)
  | .mk statements span => by
    rw [Block.exec, Block.exec]
    exact h.enclosed (Statement.congruent_execAll h fuel statements)

theorem Arms.congruent_exec (h : Congruence Rel) (fuel : Nat) :
    ∀ arms : Arms, Rel Unit (arms.exec fuel) (arms.exec fuel)
  | .done => by
    rw [Arms.exec, Arms.exec]
    exact h.returned _
  | .otherwise body => by
    rw [Arms.exec, Arms.exec]
    exact Block.congruent_exec h fuel body
  | .arm test body span rest => by
    rw [Arms.exec, Arms.exec]
    apply h.bind (h.condition test)
    intro holds
    cases holds with
    | false => exact Arms.congruent_exec h fuel rest
    | true => exact Block.congruent_exec h fuel body

theorem Statement.congruent_execAll (h : Congruence Rel) (fuel : Nat) :
    ∀ statements : List Statement,
      Rel Unit (Statement.execAll fuel statements) (Statement.execAll fuel statements)
  | [] => by
    rw [Statement.execAll, Statement.execAll]
    exact h.returned _
  | statement :: rest => by
    rw [Statement.execAll, Statement.execAll]
    exact h.bind (h.discarded (Statement.congruent_exec h fuel statement)) fun _ =>
      Statement.congruent_execAll h fuel rest

end

end BlockScript
