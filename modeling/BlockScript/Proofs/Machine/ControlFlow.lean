import BlockScript.Proofs.Environment.Updates
import BlockScript.Proofs.Machine.BlockRestriction
import BlockScript.Proofs.Machine.TopLevel

/-!
# Loops and chains in simpler statements

A block is transparent if the statements in it declare nothing themselves: they take the same course
in it as outside, and there is nothing to release when it closes.  Evaluations, blocks and
conditionals declare nothing, so they may be put into a further block.  This makes a `for` loop a
`while` loop over its body and its update, and a chain of conditions a conditional with the rest of
the chain in its `else` block.
-/

namespace BlockScript

open Execution

namespace Environment

theorem eq_of_frames {env later : Environment} (hbindings : later.bindings = env.bindings)
    (hframes : later.frames = env.frames) : later = env := by
  obtain ⟨bindings, root, blocks⟩ := env
  obtain ⟨bindings', root', blocks'⟩ := later
  obtain ⟨hblocks, hroot⟩ := List.append_inj' hframes rfl
  cases hbindings
  cases hblocks
  cases hroot
  rfl

/-- Statements were run from `start` in a block and where it stands.  The run without the block
ended in `env`, and closing the block gave `later`. -/
def Closes (start env later : Environment) : Prop :=
  ∃ nested, Nested start.innermost start.outer 0 env nested ∧ nested.exit = later

namespace Closes

variable {start env later : Environment}

theorem frames_eq (h : start.Closes env later) : later.frames = start.frames := by
  obtain ⟨nested, hnested, rfl⟩ := h
  obtain ⟨inner, new, hlength, -, hframes⟩ := hnested.frames
  rw [List.length_eq_zero_iff.1 hlength, List.nil_append] at hframes
  rw [(exit_of_frames hframes (List.cons_ne_nil _ _)).2, ← start.frames_eq]

/-- Where nothing was declared, nothing is released. -/
theorem eq_of_frames (h : start.Closes env later) (hsame : env.frames = start.frames) :
    later = env := by
  have hlater := h.frames_eq
  obtain ⟨nested, hnested, rfl⟩ := h
  obtain ⟨inner, new, hlength, henv, hframes⟩ := hnested.frames
  rw [List.length_eq_zero_iff.1 hlength, List.nil_append] at henv hframes
  rw [hsame, start.frames_eq] at henv
  have hnew : new = [] := List.self_eq_append_right.1 (List.cons.inj henv).1
  apply Environment.eq_of_frames
  · rw [(exit_of_frames hframes (List.cons_ne_nil _ _)).1, hnew, hnested.bindings]
    simp [Bindings.release]
  · rw [hlater, hsame]

end Closes

end Environment

variable {σ : Type}

/-! ## Computations that declare nothing -/

/-- The declaration sets are the same. -/
def Machine.Framed (m later : Machine σ) : Prop :=
  later.environment.frames = m.environment.frames

theorem Machine.framed_progression : Progression (Framed : Machine σ → Machine σ → Prop) where
  refl := fun _ => rfl
  trans := fun hfirst hsecond => hsecond.trans hfirst

namespace Execution

theorem framed_count : Moves Machine.Framed (count : Execution σ Unit) :=
  fun _ => rfl

theorem framed_evaluating (e : Expr) :
    Moves Machine.Framed (evaluating e.eval : Execution σ Value) := by
  intro m
  rw [Machine.Framed, finalState_evaluating]
  exact e.frames_eval m.environment

theorem framed_condition (e : Expr) :
    Moves Machine.Framed (condition e : Execution σ Bool) := by
  refine Machine.framed_progression.bind (framed_evaluating e) ?_
  intro value
  cases value with
  | boolean b => exact Machine.framed_progression.pure b
  | _ => exact Machine.framed_progression.throw _

end Execution

section

variable [Writer σ]

/-- A block ends like its statements run where it stands, and then it is closed. -/
theorem Block.exec_closes (fuel : Nat) (statements : List Statement) (span : Span) (m : Machine σ) :
    SameEnd (Machine.Alike m.environment.Closes 0)
      (Statement.execAll fuel statements m) ((Block.mk statements span).exec fuel m) := by
  have hstart : Machine.Alike
      (Environment.Nested m.environment.innermost m.environment.outer 0) 0 m
      { m with environment := m.environment.enter } :=
    ⟨m.environment.nested_enter, rfl, rfl⟩
  have hend := Statement.lockstep_execAll (Environment.nested_bisimulation _ _) fuel statements
    0 (fun _ _ => trivial) _ _ hstart
  rw [Block.exec]
  generalize Statement.execAll fuel statements m = inline at hend
  generalize hnested : Statement.execAll fuel statements
    { m with environment := m.environment.enter } = nested at hend
  cases hend with
  | ok hlater =>
    rw [inBlock_of_ok hnested]
    exact .ok ⟨⟨_, hlater.environment, rfl⟩, hlater.output, hlater.executed⟩
  | error hlater =>
    rw [inBlock_of_error hnested]
    exact .error ⟨⟨_, hlater.environment, rfl⟩, hlater.output, hlater.executed⟩

theorem Block.framed_exec (fuel : Nat) (body : Block) :
    Moves Machine.Framed (body.exec fuel : Execution σ Unit) := by
  intro m
  obtain ⟨statements, span⟩ := body
  rw [Machine.Framed, ← Ending.machine_eq_finalState]
  exact (Block.exec_closes fuel statements span m).machine.environment.frames_eq

theorem Arms.framed_exec (fuel : Nat) (arms : Arms) :
    Moves Machine.Framed (arms.exec fuel : Execution σ Unit) := by
  cases arms with
  | done =>
    rw [Arms.exec]
    exact Machine.framed_progression.pure _
  | otherwise body =>
    rw [Arms.exec]
    exact Block.framed_exec fuel body
  | arm test body span rest =>
    rw [Arms.exec]
    refine Machine.framed_progression.bind (framed_condition test) ?_
    intro holds
    cases holds with
    | false => exact Arms.framed_exec fuel rest
    | true => exact Block.framed_exec fuel body

omit [Writer σ] in
theorem Machine.Alike.eq_of_framed {m later last : Machine σ}
    (h : Machine.Alike m.environment.Closes 0 later last) (hframes : Machine.Framed m later) :
    last = later := by
  have henvironment := h.environment.eq_of_frames hframes
  have houtput := h.output
  have hexecuted := h.executed
  cases later
  cases last
  simp_all

/-- A block whose statements declare nothing is transparent. -/
theorem Block.exec_eq_execAll {fuel : Nat} {statements : List Statement}
    (h : Moves Machine.Framed (Statement.execAll fuel statements : Execution σ Unit))
    (span : Span) (m : Machine σ) :
    (Block.mk statements span).exec fuel m = Statement.execAll fuel statements m := by
  have hframes := h m
  have hend := Block.exec_closes fuel statements span m
  generalize (Block.mk statements span).exec fuel m = block at hend
  generalize hinline : Statement.execAll fuel statements m = inline at hend
  cases hend with
  | ok hlater =>
    rw [finalState_of_ok hinline] at hframes
    rw [hlater.eq_of_framed hframes]
  | error hlater =>
    rw [finalState_of_error hinline] at hframes
    rw [hlater.eq_of_framed hframes]

/-- Run alone, a statement without a value counts one and does what it is made of. -/
theorem Statement.execAll_singleton {fuel : Nat} {s : Statement} {x : Execution σ Unit}
    (h : s.exec fuel = (do count; x; return none)) :
    Statement.execAll fuel [s] = (do count; x) := by
  simp only [Statement.execAll, h, discard_eq_bind, bind_assoc, pure_bind, bind_pure_unit]

end

/-! ## Machines that differ in their counts -/

/-- The machines are equal apart from their counts of statements. -/
structure Machine.SameState (m m' : Machine σ) : Prop where
  environment : m.environment = m'.environment
  output : m.output = m'.output

theorem eq_bisimulation : Bisimulation (fun _ => True) fun _ => Eq where
  get := by
    rintro _ _ _ rfl name _
    rfl
  assign := by
    rintro _ _ _ rfl name value _
    rfl
  enter := by
    rintro _ _ _ rfl
    rfl
  exit := by
    rintro _ _ _ rfl
    rfl

namespace Execution

variable {α : Type}

/-- What takes the same course whatever the lead of the second machine is does not depend on the
count. -/
theorem lockstep_sameState {x : Execution σ α}
    (h : ∀ ahead, Lockstep (Machine.Alike Eq ahead) x x) : Lockstep Machine.SameState x x := by
  intro m m' hsame
  -- Both runs are compared with the one that begins to count here.
  have hfirst := h m.executed { m with executed := 0 } m ⟨rfl, rfl, (Nat.zero_add _).symm⟩
  have hsecond := h m'.executed { m with executed := 0 } m'
    ⟨hsame.environment, hsame.output, (Nat.zero_add _).symm⟩
  generalize x { m with executed := 0 } = r at hfirst hsecond
  generalize x m = first at hfirst
  generalize x m' = second at hsecond
  cases hfirst with
  | ok hlater =>
    cases hsecond with
    | ok hlater' =>
      exact .ok ⟨hlater.environment.symm.trans hlater'.environment,
        hlater.output.symm.trans hlater'.output⟩
  | error hlater =>
    cases hsecond with
    | error hlater' =>
      exact .error ⟨hlater.environment.symm.trans hlater'.environment,
        hlater.output.symm.trans hlater'.output⟩

theorem lockstep_count_bind {x y : Execution σ α} (h : Lockstep Machine.SameState x y) :
    Lockstep Machine.SameState x (count >>= fun _ => y) :=
  fun m m' hsame =>
    h m { m' with executed := m'.executed + 1 } ⟨hsame.environment, hsame.output⟩

end Execution

/-! ## `for` as `while` -/

/-- The initial assignment of a loop as a statement, if there is one and it has to be made. -/
def Statement.initially (init : Option Assignment) (env : Environment) : List Statement :=
  (init.filter fun a => !env.isBound a.target.name).toList.map .assign

/-- Both computations ended early for the same reason or came to their end, with the same
environment and output. -/
structure Ending.SameEffect {α β : Type} (r : Ending σ α) (r' : Ending σ β) : Prop where
  halt : r.halt? = r'.halt?
  environment : r.machine.environment = r'.machine.environment
  output : r.machine.output = r'.machine.output

theorem Ending.SameEffect.settled_iff {α β : Type} {r : Ending σ α} {r' : Ending σ β}
    (h : r.SameEffect r') : r.Settled ↔ r'.Settled := by
  unfold Ending.Settled
  rw [h.halt]

section

variable [Writer σ]

theorem Block.lockstep_sameState (fuel : Nat) (body : Block) :
    Lockstep Machine.SameState (body.exec fuel : Execution σ Unit) (body.exec fuel) :=
  Execution.lockstep_sameState fun _ =>
    Block.lockstep_exec eq_bisimulation fuel body 0 fun _ _ => trivial

omit [Writer σ] in
theorem Expr.lockstep_sameState (e : Expr) :
    Lockstep Machine.SameState (evaluating e.eval : Execution σ Value) (evaluating e.eval) :=
  Execution.lockstep_sameState fun _ =>
    lockstep_evaluating (e.lockstep_eval eq_bisimulation 0 fun _ _ => trivial)

omit [Writer σ] in
theorem Expr.lockstep_condition_sameState (e : Expr) :
    Lockstep Machine.SameState (condition e : Execution σ Bool) (condition e) :=
  Execution.lockstep_sameState fun _ =>
    lockstep_condition eq_bisimulation 0 fun _ _ => trivial

/-- The statements that stand for a round of a `for` loop. -/
def Statement.round (body : Block) (update : Expr) (step : Span) : List Statement :=
  [.block body, .expression update step]

theorem Statement.execAll_round (fuel : Nat) (body : Block) (update : Expr) (step : Span) :
    Statement.execAll fuel (Statement.round body update step) =
      (do count; body.exec fuel; count; discard (evaluating update.eval) : Execution σ Unit) := by
  simp only [Statement.round, Statement.execAll, Statement.exec, discard_eq_bind, bind_assoc,
    pure_bind]

theorem Statement.framed_round (fuel : Nat) (body : Block) (update : Expr) (step : Span) :
    Moves Machine.Framed
      (Statement.execAll fuel (Statement.round body update step) : Execution σ Unit) := by
  have h := @Machine.framed_progression σ
  rw [Statement.execAll_round]
  refine h.bind framed_count fun _ => h.bind (Block.framed_exec fuel body) fun _ => ?_
  exact h.bind framed_count fun _ => h.discard (framed_evaluating update)

/-- A round of a `for` loop and the block with its body and its update do the same. -/
theorem Statement.lockstep_round (fuel : Nat) (body : Block) (update : Expr) (step span : Span) :
    Lockstep Machine.SameState
      (do body.exec fuel; discard (evaluating update.eval) : Execution σ Unit)
      ((Block.mk (Statement.round body update step) span).exec fuel) := by
  have hblock : (Block.mk (Statement.round body update step) span).exec fuel =
      (do count; body.exec fuel; count; discard (evaluating update.eval) : Execution σ Unit) := by
    funext m
    rw [Block.exec_eq_execAll (Statement.framed_round fuel body update step),
      Statement.execAll_round]
  rw [hblock]
  refine lockstep_count_bind ((Block.lockstep_sameState fuel body).bind fun _ => ?_)
  exact lockstep_count_bind update.lockstep_sameState.discard

theorem Statement.lockstep_rounds (fuel : Nat) (test update : Expr) (body : Block)
    (step inner outer : Span) :
    Lockstep Machine.SameState
      (repeatWhile (condition test) (do body.exec fuel; discard (evaluating update.eval)) fuel)
      (Statement.execAll fuel
        [.whileLoop test (.mk (Statement.round body update step) inner) outer] :
        Execution σ Unit) := by
  have hloop := lockstep_repeatWhile (@Expr.lockstep_condition_sameState σ test)
    (Statement.lockstep_round fuel body update step inner) fuel
  have halone := @Statement.execAll_singleton σ _ fuel
    (.whileLoop test (.mk (Statement.round body update step) inner) outer) _ (by rw [Statement.exec])
  rw [halone]
  exact lockstep_count_bind hloop

theorem Statement.initially_of_unbound {a : Assignment} {env : Environment}
    (h : ¬env.isBound a.target.name) : Statement.initially (some a) env = [.assign a] := by
  simp [Statement.initially, h]

theorem Statement.initially_of_bound {a : Assignment} {env : Environment}
    (h : env.isBound a.target.name) : Statement.initially (some a) env = [] := by
  simp [Statement.initially, h]

omit [Writer σ] in
/-- A value that is returned in the end does not matter for the effect. -/
theorem SameEnd.sameEffect {α : Type} {x : Execution σ Unit} {m : Machine σ} {r : Ending σ Unit}
    (h : SameEnd Machine.SameState (x m) r) (value : α) :
    Ending.SameEffect ((x >>= fun _ => pure value) m) r := by
  generalize hrun : x m = r' at h
  cases h with
  | ok hlater =>
    rw [bind_of_ok hrun]
    exact ⟨rfl, hlater.environment, hlater.output⟩
  | error hlater =>
    rw [bind_of_error hrun]
    exact ⟨rfl, hlater.environment, hlater.output⟩

/-- What runs behind the initial assignment of a loop may as well run behind the statement. -/
theorem Statement.sameEnd_initially {fuel : Nat} {rest : List Statement} {x : Execution σ Unit}
    (h : Lockstep Machine.SameState x (Statement.execAll fuel rest)) (init : Option Assignment)
    (m : Machine σ) :
    SameEnd Machine.SameState
      ((initializing init >>= fun _ => x) { m with executed := m.executed + 1 })
      (Statement.execAll fuel (Statement.initially init m.environment ++ rest) m) := by
  cases init with
  | none => exact h { m with executed := m.executed + 1 } m ⟨rfl, rfl⟩
  | some a =>
    by_cases hbound : m.environment.isBound a.target.name
    · have hskip : initializing (some a) { m with executed := m.executed + 1 } = .ok () _ :=
        initializing_of_bound hbound
      rw [bind_of_ok hskip, Statement.initially_of_bound hbound]
      exact h { m with executed := m.executed + 1 } m ⟨rfl, rfl⟩
    · have hinit : initializing (some a) { m with executed := m.executed + 1 } =
          (discard (assigning a) : Execution σ Unit) { m with executed := m.executed + 1 } :=
        initializing_of_unbound hbound
      have hassign : (Statement.assign a).exec fuel m =
          (assigning a >>= fun value => pure (some value))
            { m with executed := m.executed + 1 } := by
        rw [Statement.exec]
        rfl
      rw [Statement.initially_of_unbound hbound, List.singleton_append]
      cases hrun : assigning a { m with executed := m.executed + 1 } with
      | ok value later =>
        rw [discard_of_ok hrun] at hinit
        rw [bind_of_ok hrun] at hassign
        rw [bind_of_ok hinit, Statement.execAll_cons_of_ok hassign]
        exact h later later ⟨rfl, rfl⟩
      | error halt later =>
        rw [discard_of_error hrun] at hinit
        rw [bind_of_error hrun] at hassign
        rw [bind_of_error hinit, Statement.execAll_cons_of_error hassign]
        exact .error ⟨rfl, rfl⟩

/-- A `for` loop terminates from the same machines as its initial assignment, if that has to be made,
followed by the `while` loop over a block of its body and its update.  Both end early for the same
reason or not at all, and leave the same environment and output. -/
theorem Statement.forLoop_matches_while (init : Option Assignment) (test update : Expr)
    (body : Block) (span step inner outer : Span) (m : Machine σ) :
    Ending.Matched Ending.SameEffect ((Statement.forLoop init test update body span).Ends m)
      (Statement.EndAll (Statement.initially init m.environment ++
        [.whileLoop test (.mk [.block body, .expression update step] inner) outer]) m) := by
  apply Ending.matched_of_runs
  · intro fuel
    have hrounds := @Statement.lockstep_rounds σ _ fuel test update body step inner outer
    have hloop : (Statement.forLoop init test update body span).exec fuel m =
        ((initializing init >>= fun _ => repeatWhile (condition test)
            (do body.exec fuel; discard (evaluating update.eval)) fuel) >>= fun _ => pure none)
          { m with executed := m.executed + 1 } := by
      rw [Statement.exec, bind_assoc]
      rfl
    rw [hloop]
    exact (Statement.sameEnd_initially hrounds init m).sameEffect none
  · exact Ending.SameEffect.settled_iff
  · intro fuel fuel' hends hends'
    exact Statement.EndAll.unique ⟨fuel, rfl, hends⟩ ⟨fuel', rfl, hends'⟩

end

/-- The body counts `d` down, so that the update divides by zero in the second round. -/
theorem forLoop_matches_while_dividing :
    let span : Span := ⟨0, 9, none⟩
    let init : Assignment := ⟨⟨"i", span⟩, .integer 4 span, span⟩
    let test : Expr := .boolean true span
    let update : Expr := .update .divide ⟨"i", span⟩ (.name ⟨"d", span⟩) span
    let body : Block :=
      .mk [.assign ⟨⟨"t", span⟩, .step .down .after ⟨"d", span⟩ span, span⟩] span
    let m : Machine Buffer := ⟨Environment.after [.assign "d" (.integer 2)], .unbounded, 0⟩
    let loop : Ending Buffer (Option Value) :=
      (Statement.forLoop (some init) test update body span).exec 2 m
    loop.halt? = some (.fault (.operation .divisionByZero (some ⟨0, 9⟩))) ∧
      loop.SameEffect (Statement.execAll 2 (Statement.initially (some init) m.environment ++
        [.whileLoop test (.mk [.block body, .expression update span] span) span]) m) :=
  ⟨by decide +kernel, (Statement.forLoop_matches_while _ _ _ _ _ _ _ _ _).related _ _
    ⟨2, rfl, by decide +kernel⟩ ⟨2, rfl, by decide +kernel⟩⟩

/-! ## Chains as nested conditionals -/

/-- Whether an expression evaluates to `false`. -/
def Expr.isFalse (e : Expr) (env : Environment) : Bool :=
  match e.eval env with
  | .ok (.boolean false) _ => true
  | _ => false

theorem Expr.isFalse_of_condition {e : Expr} {m later : Machine σ} {holds : Bool}
    (h : condition e m = .ok holds later) : e.isFalse m.environment = !holds := by
  unfold condition at h
  unfold Expr.isFalse
  cases hrun : e.eval m.environment with
  | ok value env =>
    rw [bind_of_ok (evaluating_of_ok hrun)] at h
    cases value with
    | boolean b =>
      cases h
      cases holds <;> rfl
    | _ => cases h
  | error fault env =>
    rw [bind_of_error (evaluating_of_error hrun)] at h
    cases h

theorem Expr.isFalse_of_condition_error {e : Expr} {m later : Machine σ} {halt : Halt}
    (h : condition e m = .error halt later) : e.isFalse m.environment = false := by
  unfold condition at h
  unfold Expr.isFalse
  cases hrun : e.eval m.environment with
  | ok value env =>
    rw [bind_of_ok (evaluating_of_ok hrun)] at h
    cases value with
    | boolean b => cases h
    | _ => rfl
  | error fault env => rfl

theorem SameEnd.refl_alike {α : Type} (r : Ending σ α) : SameEnd (Machine.Alike Eq 0) r r := by
  cases r with
  | ok a m => exact .ok ⟨rfl, rfl, rfl⟩
  | error halt m => exact .error ⟨rfl, rfl, rfl⟩

section

variable [Writer σ]

/-- A conditional as the only statement of a block counts one more than its arms. -/
theorem Arms.sameEnd_inBlock (fuel : Nat) (arms : Arms) (inner span : Span) (m : Machine σ) :
    SameEnd (Machine.Alike Eq 1) (arms.exec fuel m)
      ((Block.mk [.conditional arms inner] span).exec fuel m) := by
  have halone := @Statement.execAll_singleton σ _ fuel (.conditional arms inner) (arms.exec fuel)
    (by rw [Statement.exec])
  have hframed : Moves Machine.Framed
      (Statement.execAll fuel [.conditional arms inner] : Execution σ Unit) := by
    rw [halone]
    exact Machine.framed_progression.bind framed_count fun _ => Arms.framed_exec fuel arms
  have hlockstep := @Arms.lockstep_exec _ _ σ 1 _ eq_bisimulation fuel arms 0 fun _ _ => trivial
  rw [Block.exec_eq_execAll hframed, halone]
  exact hlockstep m { m with executed := m.executed + 1 } ⟨rfl, rfl, rfl⟩

/-- With the same fuel, putting the arms behind the first one into a block adds one statement where
the first condition fails. -/
theorem Arms.exec_nested_sameEnd (test : Expr) (body : Block) (arm : Span) (rest : Arms)
    (inner block : Span) (fuel : Nat) (m : Machine σ) :
    SameEnd (Machine.Alike Eq (if test.isFalse m.environment then 1 else 0))
      ((Arms.arm test body arm rest).exec fuel m)
      ((Arms.arm test body arm (.otherwise (.mk [.conditional rest inner] block))).exec fuel m) := by
  rw [Arms.exec, Arms.exec, Arms.exec]
  cases hrun : condition test m with
  | ok holds later =>
    rw [Expr.isFalse_of_condition hrun, bind_of_ok hrun, bind_of_ok hrun]
    cases holds with
    | true => exact .refl_alike _
    | false => exact Arms.sameEnd_inBlock fuel rest inner block later
  | error halt later =>
    rw [Expr.isFalse_of_condition_error hrun, bind_of_error hrun, bind_of_error hrun]
    exact .refl_alike _

/-- A chain of conditions terminates from the same machines as the conditional that has everything
behind its first arm in an `else` block.  Both end alike, in the same environment and with the same
output; the nested form has counted one statement more if the first condition is false, and as many
otherwise. -/
theorem Statement.chain_matches_nested (test : Expr) (body : Block) (arm : Span) (rest : Arms)
    (span inner block : Span) (m : Machine σ) :
    Ending.Matched
      (SameEnd (Machine.Alike Eq (if test.isFalse m.environment then 1 else 0)))
      ((Statement.conditional (.arm test body arm rest) span).Ends m)
      ((Statement.conditional
        (.arm test body arm (.otherwise (.mk [.conditional rest inner] block))) span).Ends m) := by
  apply Ending.matched_of_runs
  · intro fuel
    have hexec : ∀ arms : Arms, (Statement.conditional arms span).exec fuel m =
        (arms.exec fuel >>= fun _ => pure none) { m with executed := m.executed + 1 } := by
      intro arms
      rw [Statement.exec]
      rfl
    rw [hexec, hexec]
    exact (Arms.exec_nested_sameEnd test body arm rest inner block fuel
      { m with executed := m.executed + 1 }).bind fun _ => .pure none
  · intro r r' hend
    exact Ending.settled_iff_of_outcome_eq hend.outcome_eq
  · intro fuel fuel' hends hends'
    exact Statement.Ends.unique ⟨fuel, rfl, hends⟩ ⟨fuel', rfl, hends'⟩

end

/-- The second condition has no value, and the fault is the same one deeper. -/
theorem chain_matches_nested_missing :
    let span : Span := ⟨0, 9, none⟩
    let rest : Arms := .arm (.name ⟨"y", span⟩) (.mk [] span) span .done
    let m : Machine Buffer := ⟨Environment.after [.assign "x" .nil, .enter], .unbounded, 3⟩
    let chain : Ending Buffer (Option Value) :=
      (Statement.conditional (.arm (.boolean false span) (.mk [] span) span rest) span).exec 1 m
    let nested : Ending Buffer (Option Value) :=
      (Statement.conditional (.arm (.boolean false span) (.mk [] span) span
        (.otherwise (.mk [.conditional rest span] span))) span).exec 1 m
    chain.halt? = some (.fault (.operation (.undefinedSymbol "y") (some ⟨0, 9⟩))) ∧
      SameEnd (Machine.Alike Eq 1) chain nested := by
  intro span rest m chain nested
  have hmatched := Statement.chain_matches_nested (.boolean false span) (.mk [] span) span rest span
    span span m
  exact ⟨by decide +kernel,
    hmatched.related chain nested ⟨1, rfl, by decide +kernel⟩ ⟨1, rfl, by decide +kernel⟩⟩

end BlockScript
