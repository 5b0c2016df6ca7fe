import BlockScript.Proofs.Machine.Lockstep
import BlockScript.Proofs.Machine.Termination
import BlockScript.Output.Buffer

/-!
# Names that do not occur in a statement

A run of a statement reads and changes no name that does not occur in it.  Two runs from machines
that agree on the names of the statement therefore end alike, however deep they start and whatever
else is bound, and both leave all other names as they found them.
-/

namespace BlockScript

namespace Environment

/-- The environments of two runs over the names `N`, which started in `start` and `start'` and have
opened `blocks` blocks since.  These blocks have declared the same names in both runs. -/
structure Confined (N : String → Prop) (start start' : Environment) (blocks : Nat)
    (env env' : Environment) : Prop where
  agree : ∀ name, N name → env.get? name = env'.get? name
  kept : ∀ name, ¬N name → env.get? name = start.get? name
  kept' : ∀ name, ¬N name → env'.get? name = start'.get? name
  frames : ∃ inner outer outer', inner.length = blocks ∧ outer ≠ [] ∧ outer' ≠ [] ∧
    env.frames = inner ++ outer ∧ env'.frames = inner ++ outer' ∧
    ∀ names ∈ inner, ∀ name ∈ names, N name

theorem get?_exit_of_frames {env : Environment} {names : List String}
    {rest : List (List String)} (h : env.frames = names :: rest) (hrest : rest ≠ [])
    (name : String) :
    env.exit.get? name = if name ∈ names then none else env.get? name := by
  rw [get?, (exit_of_frames h hrest).1, Bindings.get?_release]
  rfl

namespace Confined

variable {N : String → Prop} {start start' env env' : Environment} {k : Nat}

theorem refl (h : ∀ name, N name → env.get? name = env'.get? name) :
    Confined N env env' 0 env env' := by
  refine ⟨h, fun _ _ => rfl, fun _ _ => rfl, [], env.frames, env'.frames, rfl, ?_, ?_, rfl, rfl, ?_⟩
  · simp [Environment.frames]
  · simp [Environment.frames]
  · simp

theorem enter (h : Confined N start start' k env env') :
    Confined N start start' (k + 1) env.enter env'.enter := by
  obtain ⟨inner, outer, outer', hlength, houter, houter', hframes, hframes', hnames⟩ := h.frames
  refine ⟨h.agree, h.kept, h.kept', [] :: inner, outer, outer', ?_, houter, houter', ?_, ?_, ?_⟩
  · rw [List.length_cons, hlength]
  · rw [frames_enter, hframes, List.cons_append]
  · rw [frames_enter, hframes', List.cons_append]
  · simpa using hnames

theorem assign (h : Confined N start start' k env env') (name : String) (value : Value)
    (hname : N name) :
    Confined N start start' k (env.assign name value) (env'.assign name value) := by
  have hother : ∀ other, ¬N other → other ≠ name := by
    rintro other hother rfl
    exact hother hname
  obtain ⟨inner, outer, outer', hlength, houter, houter', hframes, hframes', hnames⟩ := h.frames
  refine ⟨?_, ?_, ?_, ?_⟩
  · intro other hoccurs
    rw [get?_assign, get?_assign, h.agree other hoccurs]
  · intro other hfree
    rw [get?_assign, if_neg (hother other hfree), h.kept other hfree]
  · intro other hfree
    rw [get?_assign, if_neg (hother other hfree), h.kept' other hfree]
  · have hbound : env.isBound name = env'.isBound name := by
      rw [isBound, isBound, h.agree name hname]
    rw [frames_assign, frames_assign, hbound]
    split
    · exact ⟨inner, outer, outer', hlength, houter, houter', hframes, hframes', hnames⟩
    · rw [env.frames_eq] at hframes
      rw [env'.frames_eq] at hframes'
      cases inner with
      | nil => exact ⟨[], _, _, hlength, by simp, by simp, rfl, rfl, by simp⟩
      | cons names inner =>
        obtain ⟨hinnermost, hrest⟩ := List.cons.inj hframes
        obtain ⟨hinnermost', hrest'⟩ := List.cons.inj hframes'
        refine ⟨(names ++ [name]) :: inner, outer, outer', hlength, houter, houter', ?_, ?_, ?_⟩
        · rw [hinnermost, hrest]
          rfl
        · rw [hinnermost', hrest']
          rfl
        · obtain ⟨hhead, htail⟩ := List.forall_mem_cons.1 hnames
          refine List.forall_mem_cons.2 ⟨?_, htail⟩
          exact List.forall_mem_append.2 ⟨hhead, by simpa using hname⟩

/-- The names that a block takes with it are the same in both runs, and all occur. -/
theorem exit (h : Confined N start start' (k + 1) env env') :
    Confined N start start' k env.exit env'.exit := by
  obtain ⟨inner, outer, outer', hlength, houter, houter', hframes, hframes', hnames⟩ := h.frames
  cases inner with
  | nil => cases hlength
  | cons names inner =>
    rw [List.cons_append] at hframes hframes'
    have hget := get?_exit_of_frames hframes (by simp [houter])
    have hget' := get?_exit_of_frames hframes' (by simp [houter'])
    obtain ⟨hhead, htail⟩ := List.forall_mem_cons.1 hnames
    refine ⟨?_, ?_, ?_, inner, outer, outer', Nat.succ.inj hlength, houter, houter', ?_, ?_, htail⟩
    · intro name hname
      rw [hget, hget', h.agree name hname]
    · intro name hname
      rw [hget, if_neg (fun hmem => hname (hhead name hmem)), h.kept name hname]
    · intro name hname
      rw [hget', if_neg (fun hmem => hname (hhead name hmem)), h.kept' name hname]
    · exact (exit_of_frames hframes (by simp [houter])).2
    · exact (exit_of_frames hframes' (by simp [houter'])).2

end Confined

theorem confined_bisimulation (N : String → Prop) (start start' : Environment) :
    Bisimulation N (Confined N start start') where
  get := Confined.agree
  assign := Confined.assign
  enter := Confined.enter
  exit := Confined.exit

end Environment

/-! ## Two runs of a statement -/

variable {σ α : Type}

/-- How the ends of two runs over `names` from `m` and `m'` compare. -/
structure Ending.AgreesOn (names : List String) (m m' : Machine σ) (r r' : Ending σ α) :
    Prop where
  outcome : r.outcome = r'.outcome
  output : r.machine.output = r'.machine.output
  executed : ∃ count, r.machine.executed = m.executed + count ∧
    r'.machine.executed = m'.executed + count
  values : ∀ name ∈ names, r.machine.environment.get? name = r'.machine.environment.get? name
  kept : ∀ name ∉ names, r.machine.environment.get? name = m.environment.get? name
  kept' : ∀ name ∉ names, r'.machine.environment.get? name = m'.environment.get? name

/-- With the same fuel, both runs take the same course. -/
theorem Statement.exec_agreesOn [Writer σ] (s : Statement) (fuel : Nat) (m m' : Machine σ)
    (houtput : m.output = m'.output)
    (hvalues : ∀ name ∈ s.names, m.environment.get? name = m'.environment.get? name) :
    Ending.AgreesOn s.names m m' (s.exec fuel m) (s.exec fuel m') := by
  -- Both are compared with the run that begins to count at the start of the statement.
  have hrun : ∀ later : Machine σ, m.output = later.output →
      (∀ name ∈ s.names, m.environment.get? name = later.environment.get? name) →
      SameEnd (Machine.Alike
          (Environment.Confined (· ∈ s.names) m.environment later.environment 0) later.executed)
        (s.exec fuel { m with executed := 0 }) (s.exec fuel later) := by
    intro later hsame hagree
    apply s.lockstep_exec (Environment.confined_bisimulation _ _ _) fuel 0 (fun _ hname => hname)
    exact ⟨.refl hagree, hsame, (Nat.zero_add _).symm⟩
  have hfirst := hrun m rfl fun _ _ => rfl
  have hsecond := hrun m' houtput hvalues
  have hmachine := hfirst.machine
  have hmachine' := hsecond.machine
  refine ⟨?_, ?_, ?_, ?_, ?_, ?_⟩
  · exact hfirst.outcome_eq.symm.trans hsecond.outcome_eq
  · exact hmachine.output.symm.trans hmachine'.output
  · refine ⟨(Ending.machine (s.exec fuel { m with executed := 0 })).executed, ?_, ?_⟩
    · rw [hmachine.executed, Nat.add_comm]
    · rw [hmachine'.executed, Nat.add_comm]
  · intro name hname
    rw [← hmachine.environment.agree name hname, hmachine'.environment.agree name hname]
  · exact hmachine.environment.kept'
  · exact hmachine'.environment.kept'

/-- From machines with the same output that agree on the names of a statement, the statement
terminates from both or from neither.  It ends with the same value or fault, prints the same, counts
the same statements and leaves the machines in agreement; the other names keep what they had. -/
theorem Statement.ends_agreesOn_names [Writer σ] (s : Statement) (m m' : Machine σ)
    (houtput : m.output = m'.output)
    (hvalues : ∀ name ∈ s.names, m.environment.get? name = m'.environment.get? name) :
    ((∃ r, s.Ends m r) ↔ ∃ r, s.Ends m' r) ∧
      ∀ r r', s.Ends m r → s.Ends m' r' → Ending.AgreesOn s.names m m' r r' := by
  have hrun := fun fuel => s.exec_agreesOn fuel m m' houtput hvalues
  have hsettled := fun fuel => Ending.settled_iff_of_outcome_eq (hrun fuel).outcome
  refine ⟨⟨?_, ?_⟩, ?_⟩
  · rintro ⟨r, fuel, rfl, hends⟩
    exact ⟨_, fuel, rfl, (hsettled fuel).1 hends⟩
  · rintro ⟨r, fuel, rfl, hends⟩
    exact ⟨_, fuel, rfl, (hsettled fuel).2 hends⟩
  · rintro r r' ⟨fuel, rfl, hends⟩ hends'
    have hsame : s.Ends m' (s.exec fuel m') := ⟨fuel, rfl, (hsettled fuel).1 hends⟩
    rw [hends'.unique hsame]
    exact hrun fuel

/-- Counts `i` up to `x` and copies it to `y` through a name of the block. -/
def copyingLoop : Statement :=
  let span : Span := ⟨0, 0, none⟩
  .forLoop (some ⟨⟨"i", span⟩, .integer 0 span, span⟩)
    (.binary .notEqual (.name ⟨"i", span⟩) (.name ⟨"x", span⟩) span)
    (.step .up .after ⟨"i", span⟩ span)
    (.mk [.assign ⟨⟨"t", span⟩, .name ⟨"i", span⟩, span⟩,
      .assign ⟨⟨"y", span⟩, .name ⟨"t", span⟩, span⟩] span)
    span

theorem ends_agreesOn_names_copyingLoop :
    let m : Machine Buffer :=
      ⟨Environment.after [.assign "x" (.integer 2), .assign "y" .nil, .assign "z" .nil],
        .unbounded, 0⟩
    let m' : Machine Buffer :=
      ⟨Environment.after [.assign "y" .nil, .enter, .assign "w" .nil, .assign "x" (.integer 2)],
        .unbounded, 7⟩
    copyingLoop.names = ["i", "i", "x", "i", "t", "i", "y", "t"] ∧
      Ending.AgreesOn copyingLoop.names m m' (copyingLoop.exec 3 m) (copyingLoop.exec 3 m') := by
  intro m m'
  have hvalues : ∀ name ∈ copyingLoop.names,
      m.environment.get? name = m'.environment.get? name := by decide
  exact ⟨by decide, (Statement.ends_agreesOn_names copyingLoop m m' rfl hvalues).2 _ _
    ⟨3, rfl, by decide +kernel⟩ ⟨3, rfl, by decide +kernel⟩⟩

end BlockScript
