import BlockScript.Proofs.Machine.Lockstep
import BlockScript.Proofs.Machine.Scope
import BlockScript.Proofs.Machine.Termination

/-!
# A block is its body and a restriction

Running statements in a block and running them where the block stands take the same course.  The
names that they bind go into a declaration set of their own in the one case and into the one around
it in the other, and this is all the difference there is until the block closes.
-/

namespace BlockScript

namespace Environment

/-- The second environment has one block more, `blocks` levels below the innermost one: the names
that this block has declared are the last ones of `base` in the first environment. -/
structure Nested (base : List String) (around : List (List String)) (blocks : Nat)
    (env nested : Environment) : Prop where
  bindings : env.bindings = nested.bindings
  frames : ∃ inner new, inner.length = blocks ∧
    env.frames = inner ++ (base ++ new) :: around ∧
    nested.frames = inner ++ new :: base :: around

namespace Nested

variable {base : List String} {around : List (List String)} {k : Nat}
  {env nested : Environment}

theorem get?_eq (h : Nested base around k env nested) (name : String) :
    env.get? name = nested.get? name := by
  rw [get?, h.bindings, get?]

theorem isBound_eq (h : Nested base around k env nested) (name : String) :
    env.isBound name = nested.isBound name := by
  rw [isBound, h.get?_eq, isBound]

theorem enter (h : Nested base around k env nested) :
    Nested base around (k + 1) env.enter nested.enter := by
  obtain ⟨inner, new, hlength, henv, hnested⟩ := h.frames
  refine ⟨h.bindings, [] :: inner, new, ?_, ?_, ?_⟩
  · rw [List.length_cons, hlength]
  · rw [frames_enter, henv, List.cons_append]
  · rw [frames_enter, hnested, List.cons_append]

theorem assign (h : Nested base around k env nested) (name : String) (value : Value) :
    Nested base around k (env.assign name value) (nested.assign name value) := by
  have hbindings : (env.assign name value).bindings = (nested.assign name value).bindings := by
    rw [bindings_assign, bindings_assign, h.bindings]
  obtain ⟨inner, new, hlength, henv, hnested⟩ := h.frames
  have hbound := h.isBound_eq name
  refine ⟨hbindings, ?_⟩
  rw [frames_assign, frames_assign, ← hbound]
  split
  · exact ⟨inner, new, hlength, henv, hnested⟩
  · rw [env.frames_eq] at henv
    rw [nested.frames_eq] at hnested
    -- The name goes to the innermost set, which is the one of the block itself when none is open.
    cases inner with
    | nil =>
      obtain ⟨hinner, houter⟩ := List.cons.inj henv
      obtain ⟨hinner', houter'⟩ := List.cons.inj hnested
      refine ⟨[], new ++ [name], hlength, ?_, ?_⟩
      · rw [hinner, houter, List.append_assoc, List.nil_append]
      · rw [hinner', houter', List.nil_append]
    | cons names inner =>
      obtain ⟨hinner, houter⟩ := List.cons.inj henv
      obtain ⟨hinner', houter'⟩ := List.cons.inj hnested
      refine ⟨(names ++ [name]) :: inner, new, hlength, ?_, ?_⟩
      · rw [hinner, houter]
        rfl
      · rw [hinner', houter']
        rfl

theorem exit (h : Nested base around (k + 1) env nested) :
    Nested base around k env.exit nested.exit := by
  obtain ⟨inner, new, hlength, henv, hnested⟩ := h.frames
  cases inner with
  | nil => cases hlength
  | cons names inner =>
    obtain ⟨hbindings, hframes⟩ := exit_of_frames henv (by simp)
    obtain ⟨hbindings', hframes'⟩ := exit_of_frames hnested (by simp)
    refine ⟨?_, inner, new, Nat.succ.inj hlength, hframes, hframes'⟩
    rw [hbindings, hbindings', h.bindings]

end Nested

theorem nested_bisimulation (base : List String) (around : List (List String)) :
    Bisimulation (fun _ => True) (Nested base around) where
  get := fun h name _ => h.get?_eq name
  assign := fun h name value _ => h.assign name value
  enter := Nested.enter
  exit := Nested.exit

theorem nested_enter (env : Environment) :
    Nested env.innermost env.outer 0 env env.enter := by
  refine ⟨rfl, [], [], rfl, ?_, ?_⟩
  · rw [List.nil_append, List.append_nil]
    exact env.frames_eq
  · rw [frames_enter, List.nil_append, ← env.frames_eq]

/-- Closing the block restricts the bindings to the names that were bound before it. -/
theorem Nested.restricts {env later nested : Environment} {new : List String}
    (h : Nested env.innermost env.outer 0 later nested) (hgrows : env.Grows later new)
    (hconsistent : env.Consistent) :
    nested.exit.bindings = later.bindings.filter (fun entry => env.isBound entry.1) ∧
      nested.exit.declarations = env.declarations := by
  obtain ⟨inner, names, hlength, hlater, hnested⟩ := h.frames
  obtain rfl := List.length_eq_zero_iff.1 hlength
  obtain rfl : names = new := by
    rw [List.nil_append, hgrows.frames] at hlater
    exact (List.append_cancel_left (List.cons.inj hlater).1).symm
  obtain ⟨hbindings, hframes⟩ := exit_of_frames hnested (by simp)
  refine ⟨?_, ?_⟩
  · rw [hbindings, ← h.bindings]
    apply List.filter_congr
    rintro ⟨name, value⟩ hentry
    have hbound : later.isBound name := by
      rw [isBound, get?, (hgrows.consistent.ascending.mem_iff_get? name value).1 hentry]
      rfl
    have hor := (hgrows.bound_iff name).1 hbound
    by_cases hname : name ∈ names
    · simp [hname, hgrows.unbound hconsistent hname]
    · simp only [hname, or_false] at hor
      simp [hname, hor]
  · rw [declarations_eq, declarations_eq, hframes, ← env.frames_eq]

end Environment

/-! ## Running a block -/

variable {σ : Type}

/-- How the end of a block compares with the end of its statements run where the block stands, both
from the machine `m`. -/
structure Ending.Restricts (m : Machine σ) (inline : Ending σ Unit)
    (block : Ending σ (Option Value)) : Prop where
  halt : block.halt? = inline.halt?
  output : block.machine.output = inline.machine.output
  bindings : block.machine.environment.bindings =
    inline.machine.environment.bindings.filter fun entry => m.environment.isBound entry.1
  declared : ∀ k, block.machine.environment.declaredAt? k = m.environment.declaredAt? k
  executed : block.machine.executed = inline.machine.executed + 1

open Execution in
/-- With the same fuel, the block and its statements take the same course. -/
theorem Statement.exec_block_restricts [Writer σ] (statements : List Statement) (span : Span)
    (fuel : Nat) (m : Machine σ) (h : m.environment.Consistent) :
    Ending.Restricts m (Statement.execAll fuel statements m)
      ((Statement.block (.mk statements span)).exec fuel m) := by
  have hgrows := Statement.widens_execAll fuel statements m h
  have hstart : Machine.Alike
      (Environment.Nested m.environment.innermost m.environment.outer 0) 1 m
      ⟨m.environment.enter, m.output, m.executed + 1⟩ :=
    ⟨m.environment.nested_enter, rfl, rfl⟩
  have hend := Statement.lockstep_execAll (Environment.nested_bisimulation _ _) fuel statements
    0 (fun _ _ => trivial) _ _ hstart
  have hblock : (Statement.block (.mk statements span)).exec fuel m =
      (do inBlock (Statement.execAll fuel statements); return none : Execution σ (Option Value))
        { m with executed := m.executed + 1 } := by
    rw [Statement.exec, Block.exec]
    rfl
  rw [hblock]
  generalize hinline : Statement.execAll fuel statements m = inline at hend
  generalize hnested : Statement.execAll fuel statements
    ⟨m.environment.enter, m.output, m.executed + 1⟩ = nested at hend
  cases hend with
  | ok hlater =>
    rw [finalState_of_ok hinline] at hgrows
    obtain ⟨new, hnew⟩ := hgrows
    obtain ⟨hbindings, hdeclared⟩ := hlater.environment.restricts hnew h
    rw [bind_of_ok (inBlock_of_ok hnested)]
    refine ⟨rfl, hlater.output.symm, hbindings, ?_, hlater.executed⟩
    intro k
    exact congrArg (fun sets => sets[k]?) hdeclared
  | error hlater =>
    rw [finalState_of_error hinline] at hgrows
    obtain ⟨new, hnew⟩ := hgrows
    obtain ⟨hbindings, hdeclared⟩ := hlater.environment.restricts hnew h
    rw [bind_of_error (inBlock_of_error hnested)]
    refine ⟨rfl, hlater.output.symm, hbindings, ?_, hlater.executed⟩
    intro k
    exact congrArg (fun sets => sets[k]?) hdeclared

theorem Ending.Restricts.settled_iff {m : Machine σ} {inline : Ending σ Unit}
    {block : Ending σ (Option Value)} (h : Ending.Restricts m inline block) :
    block.Settled ↔ inline.Settled := by
  unfold Ending.Settled
  rw [h.halt]

/-- A block terminates from the same machines as its statements run where it stands.  Both end
alike and print the same; the block keeps of the bindings those of the names bound before it, leaves
the declaration sets as they were, and counts as one statement more. -/
theorem Statement.ends_block_restricts [Writer σ] (statements : List Statement) (span : Span)
    (m : Machine σ) (h : m.environment.Reachable) :
    ((∃ r, (Statement.block (.mk statements span)).Ends m r) ↔
        ∃ r, Statement.EndAll statements m r) ∧
      ∀ block inline, (Statement.block (.mk statements span)).Ends m block →
        Statement.EndAll statements m inline → Ending.Restricts m inline block := by
  have hrun := fun fuel =>
    Statement.exec_block_restricts statements span fuel m h.consistent
  refine ⟨⟨?_, ?_⟩, ?_⟩
  · rintro ⟨r, fuel, rfl, hsettled⟩
    exact ⟨_, fuel, rfl, (hrun fuel).settled_iff.1 hsettled⟩
  · rintro ⟨r, fuel, rfl, hsettled⟩
    exact ⟨_, fuel, rfl, (hrun fuel).settled_iff.2 hsettled⟩
  · rintro block inline ⟨fuel, rfl, hsettled⟩ hinline
    have hsame : Statement.EndAll statements m (Statement.execAll fuel statements m) :=
      ⟨fuel, rfl, (hrun fuel).settled_iff.1 hsettled⟩
    rw [hinline.unique hsame]
    exact hrun fuel

/-- Changes `x`, binds `t`, and divides by zero in a block of its own. -/
def faultingBody : List Statement :=
  let span : Span := ⟨0, 0, none⟩
  [.assign ⟨⟨"x", span⟩, .integer 2 span, span⟩,
    .assign ⟨⟨"t", span⟩, .integer 3 span, span⟩,
    .block (.mk [.assign ⟨⟨"u", span⟩, .binary .divide (.name ⟨"x", span⟩) (.integer 0 span) span,
      span⟩] span)]

theorem ends_block_restricts_faultingBody :
    let m : Machine Buffer := ⟨Environment.after [.assign "x" .nil, .enter], .unbounded, 0⟩
    let block : Ending Buffer (Option Value) :=
      (Statement.block (.mk faultingBody default)).exec 1 m
    let inline : Ending Buffer Unit := Statement.execAll 1 faultingBody m
    block.halt? = some (.fault (.operation .divisionByZero (some ⟨0, 0⟩))) ∧
      Ending.Restricts m inline block :=
  ⟨rfl, (Statement.ends_block_restricts faultingBody default _ ⟨_, rfl⟩).2 _ _
    ⟨1, rfl, by decide⟩ ⟨1, rfl, by decide⟩⟩

end BlockScript
