import BlockScript.Proofs.Machine.TopLevel
import BlockScript.Proofs.Machine.Termination
import BlockScript.Proofs.Machine.Writers
import BlockScript.Proofs.Output.Writer
import BlockScript.Output.Buffer

/-!
# Output that does not fit

A program that prints to a sink of bounded size runs as it would without the bound as long as
everything fits.  Otherwise it is stopped by the print that does not fit, when the sink has just
been filled with the front of what the unbounded run prints.

The two runs are followed side by side.  While all the bytes fit, the machines agree on everything
but the type of their writers.  Once the sink has refused a byte the bounded run is over, and the
unbounded run can only append to what it has printed already.
-/

namespace BlockScript

variable {σ τ α β : Type}

/-! ## Sinks -/

/-- What it is for a writer to be a sink for at most `limit` bytes, if `Holds` says which bytes a
sink holds.  A call takes what fits.  If nothing fits it takes nothing, and it may fail, but not as
one that is to be made again. -/
structure BoundedSink [Writer τ] (limit : Nat) (Holds : τ → List UInt8 → Prop) : Prop where
  takes : ∀ {sink : τ} {held bytes : List UInt8}, Holds sink held → bytes ≠ [] →
    held.length < limit → ∃ later,
      Writer.write bytes sink = .ok (min bytes.length (limit - held.length)) later ∧
        Holds later (held ++ bytes.take (limit - held.length))
  refuses : ∀ {sink : τ} {held bytes : List UInt8}, Holds sink held → bytes ≠ [] →
    limit ≤ held.length → ∃ later, Holds later held ∧
      (Writer.write bytes sink = .ok 0 later ∨
        ∃ message, Writer.write bytes sink = .error (.failed message) later)

namespace BoundedSink

open Writer

variable [Writer τ] {limit : Nat} {Holds : τ → List UInt8 → Prop} {sink : τ}
  {held bytes : List UInt8}

theorem writeAll_of_le (h : BoundedSink limit Holds) (hsink : Holds sink held)
    (hfits : held.length + bytes.length ≤ limit) :
    ∃ later, writeAll bytes sink = .ok () later ∧ Holds later (held ++ bytes) := by
  by_cases hbytes : bytes = []
  · refine ⟨sink, ?_, ?_⟩
    · rw [hbytes, writeAll_nil]
    · rwa [hbytes, List.append_nil]
  have hlength : 0 < bytes.length := List.length_pos_iff.2 hbytes
  obtain ⟨later, hwrite, hlater⟩ := h.takes hsink hbytes (by omega)
  have hall : min bytes.length (limit - held.length) = bytes.length := by omega
  rw [hall] at hwrite
  rw [List.take_of_length_le (by omega)] at hlater
  exact ⟨later, writeAll_of_all hbytes hwrite, hlater⟩

theorem writeAll_of_full (h : BoundedSink limit Holds) (hsink : Holds sink held)
    (hfull : limit ≤ held.length) (hbytes : bytes ≠ []) :
    ∃ message later, writeAll bytes sink = .error message later ∧ Holds later held := by
  obtain ⟨later, hlater, hwrite⟩ := h.refuses hsink hbytes hfull
  cases bytes with
  | nil => exact absurd rfl hbytes
  | cons byte rest =>
    rcases hwrite with hnone | ⟨message, herror⟩
    · exact ⟨stalled, later, writeAll_of_none (persist_of_ok hnone), hlater⟩
    · exact ⟨message, later, writeAll_of_failed (persist_of_failed herror), hlater⟩

theorem write_of_lt (h : BoundedSink limit Holds) (hsink : Holds sink held)
    (hroom : held.length < limit) (hlong : limit < held.length + bytes.length) :
    ∃ later, write bytes sink = .ok (limit - held.length) later ∧
      Holds later (held ++ bytes.take (limit - held.length)) ∧
      limit ≤ (held ++ bytes.take (limit - held.length)).length := by
  have hbytes : bytes ≠ [] := by
    rintro rfl
    rw [List.length_nil] at hlong
    omega
  obtain ⟨later, hwrite, hlater⟩ := h.takes hsink hbytes hroom
  have htaken : min bytes.length (limit - held.length) = limit - held.length := by omega
  rw [htaken] at hwrite
  refine ⟨later, hwrite, hlater, ?_⟩
  rw [List.length_append, List.length_take]
  omega

theorem writeAll_of_lt (h : BoundedSink limit Holds) (hsink : Holds sink held)
    (hheld : held.length ≤ limit) (hlong : limit < held.length + bytes.length) :
    ∃ message later, writeAll bytes sink = .error message later ∧
      Holds later ((held ++ bytes).take limit) := by
  rw [List.take_append, List.take_of_length_le hheld]
  cases bytes with
  | nil =>
    rw [List.length_nil] at hlong
    omega
  | cons byte rest =>
    by_cases hroom : held.length < limit
    · -- The first call fills the sink, and the second one is refused.
      obtain ⟨full, hwrite, hfull, hsize⟩ := h.write_of_lt hsink hroom hlong
      rw [List.length_cons] at hlong
      obtain ⟨count, hcount⟩ : ∃ count, limit - held.length = count + 1 :=
        ⟨limit - held.length - 1, by omega⟩
      have hleft : rest.drop count ≠ [] := by
        apply List.ne_nil_of_length_pos
        rw [List.length_drop]
        omega
      obtain ⟨message, later, hrefused, hlater⟩ := h.writeAll_of_full hfull hsize hleft
      refine ⟨message, later, ?_, hlater⟩
      rw [hcount] at hwrite
      rw [writeAll_of_taken (persist_of_ok hwrite)]
      exact hrefused
    · have hfull : limit ≤ held.length := Nat.le_of_not_lt hroom
      rw [Nat.sub_eq_zero_of_le hfull, List.take_zero, List.append_nil]
      exact h.writeAll_of_full hsink hfull (List.cons_ne_nil byte rest)

end BoundedSink

namespace Buffer

/-- A buffer with a limit is a bounded sink, whatever it does when it is full. -/
theorem boundedSink (limit : Nat) :
    BoundedSink limit fun (b : Buffer) held => b.limit = some limit ∧ b.bytes.toList = held where
  takes := by
    rintro b held bytes ⟨hlimit, hheld⟩ hbytes hroom
    have hsize : b.bytes.size = held.length := by
      rw [← hheld, Array.length_toList]
    have hlength : 0 < bytes.length := List.length_pos_iff.2 hbytes
    have hfits : b.fits bytes.length = min bytes.length (limit - held.length) := by
      rw [fits, hlimit, ← hsize]
    refine ⟨{ b with bytes := b.bytes ++ bytes.take (b.fits bytes.length) }, ?_, hlimit, ?_⟩
    · change write bytes b = _
      rw [write, if_neg (by omega), hfits]
    · have htake : bytes.take (b.fits bytes.length) = bytes.take (limit - held.length) := by
        rw [List.take_eq_take_iff, hfits]
        omega
      rw [htake, ← hheld]
      simp
  refuses := by
    rintro b held bytes ⟨hlimit, hheld⟩ hbytes hfull
    have hsize : b.bytes.size = held.length := by
      rw [← hheld, Array.length_toList]
    have hfits : b.fits bytes.length = 0 := by
      rw [fits, hlimit]
      dsimp only
      omega
    refine ⟨b, ⟨hlimit, hheld⟩, ?_⟩
    change write bytes b = _ ∨ ∃ message, write bytes b = .error (.failed message) b
    rw [write, if_pos ⟨hfits, hbytes⟩]
    cases b.whenFull with
    | refuse => exact .inr ⟨refusal, rfl⟩
    | acceptNone => exact .inl rfl

theorem writeAll_unbounded {b : Buffer} (h : b.limit = none) (bytes : List UInt8) :
    ∃ later, Writer.writeAll bytes b = .ok () later ∧ later.limit = none ∧
      later.bytes.toList = b.bytes.toList ++ bytes := by
  by_cases hbytes : bytes = []
  · refine ⟨b, ?_, h, ?_⟩
    · rw [hbytes, Writer.writeAll_nil]
    · rw [hbytes, List.append_nil]
  have hlength : 0 < bytes.length := List.length_pos_iff.2 hbytes
  have hfits : b.fits bytes.length = bytes.length := by
    rw [fits, h]
  refine ⟨{ b with bytes := b.bytes ++ bytes }, ?_, h, ?_⟩
  · apply Writer.writeAll_of_all hbytes
    change write bytes b = _
    rw [write, hfits, if_neg (by omega), List.take_length]
  · simp

end Buffer

/-! ## Two runs side by side -/

namespace Machine

/-- What an unbounded machine has printed. -/
def printed (m : Machine Buffer) : List UInt8 :=
  m.output.bytes.toList

/-- A machine that is unbounded remains so, and it only adds to what it has printed. -/
def Prints (m later : Machine Buffer) : Prop :=
  m.output.limit = none → later.output.limit = none ∧ m.printed <+: later.printed

/-- Everything printed so far has fit, and the machines agree. -/
structure Matches (limit : Nat) (Holds : τ → List UInt8 → Prop) (m : Machine Buffer)
    (m' : Machine τ) : Prop where
  environment : m'.environment = m.environment
  executed : m'.executed = m.executed
  unbounded : m.output.limit = none
  fits : m.printed.length ≤ limit
  holds : Holds m'.output m.printed

theorem prints_progression : Progression Prints where
  refl := fun _ hunbounded => ⟨hunbounded, List.prefix_rfl⟩
  trans := by
    intro m later last hfirst hsecond hunbounded
    obtain ⟨hlater, hprefix⟩ := hfirst hunbounded
    obtain ⟨hlast, hprefix'⟩ := hsecond hlater
    exact ⟨hlast, hprefix.trans hprefix'⟩

end Machine

open Machine (Prints Matches prints_progression)

variable {limit : Nat} {Holds : τ → List UInt8 → Prop}

/-- The bounded run ends like the unbounded one, or it is cut short by its output. -/
inductive TruncatedEnd (limit : Nat) (Holds : τ → List UInt8 → Prop) :
    Ending Buffer α → Ending τ α → Prop
  | same {r : Ending Buffer α} {r' : Ending τ α} (h : SameEnd (Matches limit Holds) r r') :
      TruncatedEnd limit Holds r r'
  | cut {r : Ending Buffer α} {message : String} {later : Machine τ}
      (hlong : limit < r.machine.printed.length)
      (hholds : Holds later.output (r.machine.printed.take limit)) :
      TruncatedEnd limit Holds r (.error (.fault (.output message)) later)

namespace TruncatedEnd

variable {r : Ending Buffer α} {r' : Ending τ α}

theorem sameEnd_of_le (h : TruncatedEnd limit Holds r r')
    (hfits : r.machine.printed.length ≤ limit) : SameEnd (Matches limit Holds) r r' := by
  cases h with
  | same hsame => exact hsame
  | cut hlong hholds => exact absurd hfits (Nat.not_le_of_lt hlong)

theorem outcome_of_lt (h : TruncatedEnd limit Holds r r')
    (hlong : limit < r.machine.printed.length) :
    (∃ message, r'.outcome = .error (.fault (.output message))) ∧
      Holds r'.machine.output (r.machine.printed.take limit) := by
  cases h with
  | same hsame => exact absurd hsame.machine.fits (Nat.not_le_of_lt hlong)
  | cut hlong hholds => exact ⟨⟨_, rfl⟩, hholds⟩

/-- What is cut off already remains so, since the unbounded run only adds to it. -/
theorem cut_of_prints {m : Machine Buffer} {message : String} {later : Machine τ}
    (hunbounded : m.output.limit = none) (hlong : limit < m.printed.length)
    (hholds : Holds later.output (m.printed.take limit)) (hprints : Prints m r.machine) :
    TruncatedEnd limit Holds r (.error (.fault (.output message)) later) := by
  obtain ⟨-, hprefix⟩ := hprints hunbounded
  refine .cut (Nat.lt_of_lt_of_le hlong hprefix.length_le) ?_
  obtain ⟨more, hmore⟩ := hprefix
  rw [← hmore, List.take_append_of_le_length (Nat.le_of_lt hlong)]
  exact hholds

end TruncatedEnd

/-- The second computation is the first one on a bounded sink. -/
structure Truncates (limit : Nat) (Holds : τ → List UInt8 → Prop) (α : Type)
    (x : Execution Buffer α) (y : Execution τ α) : Prop where
  prints : Moves Prints x
  ends : ∀ m m', Matches limit Holds m m' → TruncatedEnd limit Holds (x m) (y m')

namespace Truncates

variable {x : Execution Buffer α} {y : Execution τ α}

theorem of_lockstep (hprints : Moves Prints x) (h : Lockstep (Matches limit Holds) x y) :
    Truncates limit Holds α x y :=
  ⟨hprints, fun m m' hmatch => .same (h m m' hmatch)⟩

theorem bind {f : α → Execution Buffer β} {g : α → Execution τ β}
    (h : Truncates limit Holds α x y) (hfg : ∀ a, Truncates limit Holds β (f a) (g a)) :
    Truncates limit Holds β (x >>= f) (y >>= g) := by
  refine ⟨prints_progression.bind h.prints fun a => (hfg a).prints, ?_⟩
  intro m m' hmatch
  have hend := h.ends m m' hmatch
  have hunbounded := (h.prints m hmatch.unbounded).1
  generalize hx : x m = r at hend
  generalize hy : y m' = r' at hend
  cases hend with
  | same hsame =>
    cases hsame with
    | ok hlater =>
      rw [bind_of_ok hx, bind_of_ok hy]
      exact (hfg _).ends _ _ hlater
    | error hlater =>
      rw [bind_of_error hx, bind_of_error hy]
      exact .same (.error hlater)
  | cut hlong hholds =>
    rw [bind_of_error hy]
    cases r with
    | ok a later =>
      rw [finalState_of_ok hx] at hunbounded
      rw [bind_of_ok hx]
      have hrest := (hfg a).prints later
      rw [← Ending.machine_eq_finalState] at hrest
      exact .cut_of_prints hunbounded hlong hholds hrest
    | error halt later =>
      rw [bind_of_error hx]
      exact .cut hlong hholds

theorem inBlock (h : Truncates limit Holds α x y) :
    Truncates limit Holds α (Execution.inBlock x) (Execution.inBlock y) := by
  constructor
  · intro m hunbounded
    have hbody := h.prints { m with environment := m.environment.enter } hunbounded
    cases hx : x { m with environment := m.environment.enter } with
    | ok a later =>
      rw [finalState_of_ok hx] at hbody
      rw [finalState_of_ok (Execution.inBlock_of_ok hx)]
      exact hbody
    | error halt later =>
      rw [finalState_of_error hx] at hbody
      rw [finalState_of_error (Execution.inBlock_of_error hx)]
      exact hbody
  · intro m m' hmatch
    have hend := h.ends { m with environment := m.environment.enter }
      { m' with environment := m'.environment.enter }
      { hmatch with environment := congrArg Environment.enter hmatch.environment }
    generalize hx : x { m with environment := m.environment.enter } = r at hend
    generalize hy : y { m' with environment := m'.environment.enter } = r' at hend
    cases hend with
    | same hsame =>
      cases hsame with
      | ok hlater =>
        rw [Execution.inBlock_of_ok hx, Execution.inBlock_of_ok hy]
        exact .same (.ok { hlater with
          environment := congrArg Environment.exit hlater.environment })
      | error hlater =>
        rw [Execution.inBlock_of_error hx, Execution.inBlock_of_error hy]
        exact .same (.error { hlater with
          environment := congrArg Environment.exit hlater.environment })
    | cut hlong hholds =>
      rw [Execution.inBlock_of_error hy]
      cases r with
      | ok a later =>
        rw [Execution.inBlock_of_ok hx]
        exact .cut hlong hholds
      | error halt later =>
        rw [Execution.inBlock_of_error hx]
        exact .cut hlong hholds

theorem evaluating (x : Evaluation α) :
    Truncates limit Holds α (Execution.evaluating x) (Execution.evaluating x) := by
  apply of_lockstep
  · intro m hunbounded
    cases hx : x m.environment with
    | ok a env =>
      rw [finalState_of_ok (Execution.evaluating_of_ok hx)]
      exact ⟨hunbounded, List.prefix_rfl⟩
    | error fault env =>
      rw [finalState_of_error (Execution.evaluating_of_error hx)]
      exact ⟨hunbounded, List.prefix_rfl⟩
  · intro m m' hmatch
    cases hx : x m.environment with
    | ok a env =>
      have hx' : x m'.environment = .ok a env := by
        rw [hmatch.environment, hx]
      rw [Execution.evaluating_of_ok hx, Execution.evaluating_of_ok hx']
      exact .ok { hmatch with environment := rfl }
    | error fault env =>
      have hx' : x m'.environment = .error fault env := by
        rw [hmatch.environment, hx]
      rw [Execution.evaluating_of_error hx, Execution.evaluating_of_error hx']
      exact .error { hmatch with environment := rfl }

theorem count : Truncates limit Holds Unit Execution.count Execution.count := by
  apply of_lockstep
  · intro m hunbounded
    exact ⟨hunbounded, List.prefix_rfl⟩
  · intro m m' hmatch
    exact .ok { hmatch with executed := congrArg Nat.succ hmatch.executed }

theorem depending {f : Environment → Execution Buffer α} {g : Environment → Execution τ α}
    (h : ∀ env, Truncates limit Holds α (f env) (g env)) :
    Truncates limit Holds α (get >>= fun m => f m.environment)
      (get >>= fun m => g m.environment) := by
  constructor
  · intro m
    exact (h m.environment).prints m
  · intro m m' hmatch
    rw [get_bind, get_bind, hmatch.environment]
    exact (h m.environment).ends m m' hmatch

theorem writeAll [Writer τ] (h : BoundedSink limit Holds) (bytes : List UInt8) :
    Truncates limit Holds Unit (Execution.writing (Writer.writeAll bytes))
      (Execution.writing (Writer.writeAll bytes)) := by
  constructor
  · intro m hunbounded
    obtain ⟨output, hwrite, hlimit, hbytes⟩ := Buffer.writeAll_unbounded hunbounded bytes
    rw [finalState_of_ok (Execution.writing_of_ok hwrite)]
    exact ⟨hlimit, bytes, hbytes.symm⟩
  · intro m m' hmatch
    obtain ⟨output, hwrite, hlimit, hbytes⟩ := Buffer.writeAll_unbounded hmatch.unbounded bytes
    have hprinted : Machine.printed { m with output } = m.printed ++ bytes := hbytes
    rw [Execution.writing_of_ok hwrite]
    by_cases hfits : m.printed.length + bytes.length ≤ limit
    · obtain ⟨output', hwrite', hholds⟩ := h.writeAll_of_le hmatch.holds hfits
      rw [Execution.writing_of_ok hwrite']
      refine .same (.ok ⟨hmatch.environment, hmatch.executed, hlimit, ?_, ?_⟩)
      · rw [hprinted, List.length_append]
        exact hfits
      · rw [hprinted]
        exact hholds
    · obtain ⟨message, output', hwrite', hholds⟩ :=
        h.writeAll_of_lt hmatch.holds hmatch.fits (Nat.lt_of_not_le hfits)
      rw [Execution.writing_of_error hwrite']
      apply TruncatedEnd.cut
      · rw [Ending.machine, hprinted, List.length_append]
        exact Nat.lt_of_not_le hfits
      · rw [Ending.machine, hprinted]
        exact hholds

end Truncates

theorem truncates_congruence [Writer τ] (h : BoundedSink limit Holds) :
    Congruence (Truncates limit Holds) where
  returned := fun a => .of_lockstep (prints_progression.pure a) (.pure a)
  halted := fun halt => .of_lockstep (prints_progression.throw halt) (.throw halt)
  bind := Truncates.bind
  counted := .count
  evaluated := Truncates.evaluating
  depending := Truncates.depending
  enclosed := Truncates.inBlock
  written := Truncates.writeAll h

/-! ## Whole programs -/

/-- A bounded sink only truncates the output of a program.  If the sink has room for everything
that the unbounded run prints, the runs end alike.  Otherwise the bounded run ends with an output
fault when the sink is full, with all blocks closed. -/
theorem Program.run_truncates [Writer τ] (h : BoundedSink limit Holds) {sink : τ}
    (hempty : Holds sink []) (program : Program) (fuel : Nat) :
    let free : Ending Buffer Unit := program.run fuel (.new .unbounded)
    let bounded : Ending τ Unit := program.run fuel (.new sink)
    let printed := free.machine.printed
    (printed.length ≤ limit → bounded.outcome = free.outcome ∧
      bounded.machine.environment = free.machine.environment ∧
      bounded.machine.executed = free.machine.executed ∧
      Holds bounded.machine.output printed) ∧
    (limit < printed.length →
      (∃ message, bounded.outcome = .error (.fault (.output message))) ∧
      Holds bounded.machine.output (printed.take limit) ∧
      bounded.machine.environment.AtRoot
        (Statement.newNames fuel program.statements (.new sink))) := by
  intro free bounded printed
  have hmatch : Matches limit Holds (.new .unbounded) (.new sink) :=
    ⟨rfl, rfl, rfl, Nat.zero_le limit, hempty⟩
  have hgrows := Statement.grows_execAll fuel program.statements (.new sink)
    Environment.consistent_empty
  rw [← Ending.machine_eq_finalState] at hgrows
  have hend : TruncatedEnd limit Holds free bounded :=
    (Statement.congruent_execAll (truncates_congruence h) fuel program.statements).ends _ _ hmatch
  refine ⟨?_, ?_⟩
  · intro hfits
    have hsame := hend.sameEnd_of_le hfits
    have hmachine := hsame.machine
    exact ⟨hsame.outcome_eq.symm, hmachine.environment, hmachine.executed, hmachine.holds⟩
  · intro hlong
    obtain ⟨hfault, hholds⟩ := hend.outcome_of_lt hlong
    exact ⟨hfault, hholds, (Environment.rooted_empty.grows hgrows).atRoot⟩

/-- Prints the numbers from 8 to 11 on lines of their own, each from a name of the block. -/
def printingLoop : Program :=
  let span : Span := ⟨0, 0, none⟩
  let loop : Statement :=
    .forLoop (some ⟨⟨"i", span⟩, .integer 8 span, span⟩)
      (.binary .notEqual (.name ⟨"i", span⟩) (.integer 12 span) span)
      (.step .up .after ⟨"i", span⟩ span)
      (.mk [.assign ⟨⟨"t", span⟩, .name ⟨"i", span⟩, span⟩,
        .print .line (.name ⟨"t", span⟩) span] span)
      span
  ⟨[loop, .assign ⟨⟨"done", span⟩, .boolean true span, span⟩], none, span⟩

theorem run_truncates_printingLoop :
    let free : Ending Buffer Unit := printingLoop.run 5 (.new .unbounded)
    let bounded : Ending Buffer Unit := printingLoop.run 5 (.new (.bounded 5 .acceptNone))
    free.Settled ∧ free.machine.printed = Writer.bytesOf "8\n9\n10\n11\n" ∧
      (∃ message, bounded.outcome = .error (.fault (.output message))) ∧
      bounded.machine.output.bytes.toList = Writer.bytesOf "8\n9\n1" ∧
      bounded.machine.environment.AtRoot ["i"] := by
  intro free bounded
  have hempty : (Buffer.bounded 5 .acceptNone).limit = some 5 ∧
      (Buffer.bounded 5 .acceptNone).bytes.toList = [] := ⟨rfl, rfl⟩
  have hprinted : free.machine.printed = Writer.bytesOf "8\n9\n10\n11\n" := by decide +kernel
  have hcut : free.machine.printed.take 5 = Writer.bytesOf "8\n9\n1" := by decide +kernel
  have hnames : Statement.newNames 5 printingLoop.statements
      (.new (Buffer.bounded 5 .acceptNone)) = ["i"] := by decide +kernel
  have hlong : 5 < free.machine.printed.length := by
    rw [hprinted]
    decide +kernel
  have hsettled : free.Settled := by decide +kernel
  obtain ⟨hfault, ⟨-, hholds⟩, hroot⟩ :=
    (Program.run_truncates (Buffer.boundedSink 5) hempty printingLoop 5).2 hlong
  rw [hnames] at hroot
  refine ⟨hsettled, hprinted, hfault, ?_, hroot⟩
  dsimp only [bounded]
  exact hholds.trans hcut

end BlockScript
