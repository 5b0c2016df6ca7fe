import BlockScript.Output.LineTracker
import BlockScript.Proofs.Output.Writer

/-!
# Where the cursor is

The inner writer of a line tracker may accept any part of what it is given, or nothing, or fail, in
every single call.  The tracker looks at the last byte that was accepted.  So the bytes accepted in
a call decide how its flag changes, and this composes: after any calls the flag is the one that all
the bytes accepted so far lead to, whichever calls they were accepted in.
-/

namespace BlockScript

variable {σ : Type} {accepted : σ → List UInt8}

/-- What it is for a writer to have the bytes that it accepts on record.  A call that fails accepts
nothing, and neither does a flush. -/
structure Writer.Recorded [Writer σ] (accepted : σ → List UInt8) : Prop where
  takes : ∀ {bytes : List UInt8} {sink later : σ} {count : Nat},
    write bytes sink = .ok count later → accepted later = accepted sink ++ bytes.take count
  fails : ∀ {bytes : List UInt8} {sink later : σ} {e : WriteError},
    write bytes sink = .error e later → accepted later = accepted sink
  flushes : ∀ sink : σ, accepted (finalState flush sink) = accepted sink

namespace LineTracker

open Writer (Recorded lineFeed)

/-! ## The flag -/

/-- Whether a line is open behind the bytes. -/
def openAfter (before : Bool) (bytes : List UInt8) : Bool :=
  match bytes.getLast? with
  | none => before
  | some last => last ≠ lineFeed

theorem openAfter_append (before : Bool) (bytes more : List UInt8) :
    openAfter before (bytes ++ more) = openAfter (openAfter before bytes) more := by
  unfold openAfter
  rw [List.getLast?_append]
  cases more.getLast? with
  | none => rfl
  | some last => rfl

theorem openAfter_false_iff {bytes : List UInt8} :
    openAfter false bytes = true ↔ bytes ≠ [] ∧ bytes.getLast? ≠ some lineFeed := by
  unfold openAfter
  cases hlast : bytes.getLast? with
  | none => simp [List.getLast?_eq_none_iff.1 hlast]
  | some last =>
    have hne : bytes ≠ [] := by
      intro hnil
      rw [hnil] at hlast
      cases hlast
    simp [hne]

theorem openAfter_false_eq_false {bytes : List UInt8} :
    openAfter false bytes = false ↔ bytes = [] ∨ bytes.getLast? = some lineFeed := by
  rw [← Bool.not_eq_true, openAfter_false_iff, Decidable.not_and_iff_not_or_not,
    Decidable.not_not, Decidable.not_not]

/-- The bytes were accepted in between, and the flag changed with them. -/
structure Accepts (accepted : σ → List UInt8) (t later : LineTracker σ) (bytes : List UInt8) :
    Prop where
  record : accepted later.inner = accepted t.inner ++ bytes
  midLine : later.midLine = openAfter t.midLine bytes

namespace Accepts

variable {t later last : LineTracker σ} {bytes more : List UInt8}

theorem of_unchanged (hrecord : accepted later.inner = accepted t.inner)
    (hflag : later.midLine = t.midLine) : Accepts accepted t later [] :=
  ⟨by rw [hrecord, List.append_nil], hflag⟩

theorem trans (hfirst : Accepts accepted t later bytes)
    (hsecond : Accepts accepted later last more) : Accepts accepted t last (bytes ++ more) := by
  constructor
  · rw [hsecond.record, hfirst.record, List.append_assoc]
  · rw [hsecond.midLine, hfirst.midLine, openAfter_append]

end Accepts

/-! ## Single calls -/

variable [Writer σ]

theorem write_eq (bytes : List UInt8) (t : LineTracker σ) :
    Writer.write bytes t =
      match Writer.write bytes t.inner with
      | .ok count inner => .ok count ⟨inner, openAfter t.midLine (bytes.take count)⟩
      | .error e inner => .error e { t with inner } := by
  change LineTracker.write bytes t = _
  unfold LineTracker.write openAfter
  cases Writer.write bytes t.inner with
  | error e inner => rfl
  | ok count inner => cases hlast : (bytes.take count).getLast? <;> simp only [hlast]

theorem accepts_write_ok (h : Recorded accepted) {bytes : List UInt8} {t later : LineTracker σ}
    {count : Nat} (hwrite : Writer.write bytes t = .ok count later) :
    Accepts accepted t later (bytes.take count) := by
  rw [write_eq] at hwrite
  cases hinner : Writer.write bytes t.inner with
  | error e inner =>
    rw [hinner] at hwrite
    cases hwrite
  | ok count inner =>
    rw [hinner] at hwrite
    cases hwrite
    exact ⟨h.takes hinner, rfl⟩

theorem accepts_write_error (h : Recorded accepted) {bytes : List UInt8} {t later : LineTracker σ}
    {e : WriteError} (hwrite : Writer.write bytes t = .error e later) :
    Accepts accepted t later [] := by
  rw [write_eq] at hwrite
  cases hinner : Writer.write bytes t.inner with
  | error e inner =>
    rw [hinner] at hwrite
    cases hwrite
    exact .of_unchanged (h.fails hinner) rfl
  | ok count inner =>
    rw [hinner] at hwrite
    cases hwrite

/-- What is accepted in the end is accepted by the last call; the interrupted ones before it accept
nothing. -/
theorem accepts_persist_ok (h : Recorded accepted) {bytes : List UInt8} {t later : LineTracker σ}
    {count : Nat} (hcall : Writer.persist bytes t = .ok count later) :
    Accepts accepted t later (bytes.take count) := by
  refine Writer.persist_induction (motive := fun t result =>
    result = .ok count later → Accepts accepted t later (bytes.take count)) ?_ ?_ ?_ t hcall
  · rintro t _ _ hwrite ⟨⟩
    exact accepts_write_ok h hwrite
  · nofun
  · intro t next result hwrite hresult heq
    exact (accepts_write_error h hwrite).trans (hresult heq)

theorem finalState_flush (t : LineTracker σ) :
    finalState Writer.flush t = { t with inner := finalState Writer.flush t.inner } := by
  change finalState LineTracker.flush t = _
  cases hflush : Writer.flush t.inner with
  | ok _ inner => simp only [finalState, LineTracker.flush, hflush]
  | error message inner => simp only [finalState, LineTracker.flush, hflush]

theorem accepts_flush (h : Recorded accepted) (t : LineTracker σ) :
    Accepts accepted t (finalState Writer.flush t) [] := by
  rw [finalState_flush]
  exact .of_unchanged (h.flushes t.inner) rfl

theorem accepts_lineFeed (h : Recorded accepted) {t later : LineTracker σ}
    (hwrite : Writer.writeAll [lineFeed] t = .ok () later) :
    Accepts accepted t later [lineFeed] := by
  cases hcall : Writer.persist [lineFeed] t with
  | error message next =>
    rw [Writer.writeAll_of_failed hcall] at hwrite
    cases hwrite
  | ok count next =>
    have haccepts := accepts_persist_ok h hcall
    cases count with
    | zero =>
      rw [Writer.writeAll_of_none hcall] at hwrite
      cases hwrite
    | succ count =>
      -- the one byte was taken, so no further call is made
      rw [Writer.writeAll_of_taken hcall, List.drop_nil, Writer.writeAll_nil] at hwrite
      cases hwrite
      rw [List.take_succ_cons, List.take_nil] at haccepts
      exact haccepts

theorem endLine_of_closed {t : LineTracker σ} (h : t.midLine = false) :
    endLine t = Writer.flush t := by
  rw [endLine, get_bind, h]
  rfl

theorem endLine_of_open {t : LineTracker σ} (h : t.midLine = true) :
    endLine t = (Writer.writeAll [lineFeed] >>= fun _ => Writer.flush) t := by
  rw [endLine, get_bind, h]
  rfl

theorem accepts_endLine (h : Recorded accepted) {t later : LineTracker σ}
    (hend : endLine t = .ok () later) :
    Accepts accepted t later (if t.midLine then [lineFeed] else []) := by
  cases hflag : t.midLine with
  | false =>
    rw [endLine_of_closed hflag] at hend
    have hflush := accepts_flush h t
    rw [finalState_of_ok hend] at hflush
    exact hflush
  | true =>
    rw [endLine_of_open hflag] at hend
    cases hwrite : Writer.writeAll [lineFeed] t with
    | error message next =>
      rw [bind_of_error hwrite] at hend
      cases hend
    | ok _ next =>
      rw [bind_of_ok hwrite] at hend
      have hflush := accepts_flush h next
      rw [finalState_of_ok hend] at hflush
      exact (accepts_lineFeed h hwrite).trans hflush

theorem midLine_of_endLine (h : Recorded accepted) {t later : LineTracker σ}
    (hend : endLine t = .ok () later) : later.midLine = false := by
  rw [(accepts_endLine h hend).midLine]
  cases t.midLine with
  | false => rfl
  | true => rfl

/-! ## Sequences of calls -/

inductive Call where
  | write (bytes : List UInt8)
  | writeAll (bytes : List UInt8)
  | writeLine (text : String)
  /-- Writes the parts of a formatted text one after the other, until one of them fails. -/
  | writeParts (parts : List String)
  | endLine

def writeParts : List String → EStateM String (LineTracker σ) Unit
  | [] => pure ()
  | part :: rest => do
    Writer.writeText part
    writeParts rest

def Call.perform : Call → EStateM String (LineTracker σ) Unit
  | .write bytes => discard (EStateM.adaptExcept WriteError.message (Writer.write bytes))
  | .writeAll bytes => Writer.writeAll bytes
  | .writeLine text => Writer.writeLine text
  | .writeParts parts => LineTracker.writeParts parts
  | .endLine => LineTracker.endLine

/-- The tracker after the calls, each of which may have failed. -/
def after (t : LineTracker σ) (calls : List Call) : LineTracker σ :=
  calls.foldl (fun t call => finalState call.perform t) t

def Follows (accepted : σ → List UInt8) (t later : LineTracker σ) : Prop :=
  ∃ bytes, Accepts accepted t later bytes

omit [Writer σ] in
theorem follows_progression : Progression (Follows accepted) where
  refl := fun _ => ⟨[], .of_unchanged rfl rfl⟩
  trans := by
    intro t later last hfirst hsecond
    obtain ⟨bytes, hbytes⟩ := hfirst
    obtain ⟨more, hmore⟩ := hsecond
    exact ⟨bytes ++ more, hbytes.trans hmore⟩

theorem follows_write (h : Recorded accepted) (bytes : List UInt8) :
    Moves (Follows accepted) (Writer.write bytes : EStateM WriteError (LineTracker σ) Nat) := by
  intro t
  cases hwrite : Writer.write bytes t with
  | ok count later =>
    rw [finalState_of_ok hwrite]
    exact ⟨_, accepts_write_ok h hwrite⟩
  | error e later =>
    rw [finalState_of_error hwrite]
    exact ⟨_, accepts_write_error h hwrite⟩

theorem follows_flush (h : Recorded accepted) :
    Moves (Follows accepted) (Writer.flush : EStateM String (LineTracker σ) Unit) :=
  fun t => ⟨[], accepts_flush h t⟩

theorem follows_writeParts (h : Recorded accepted) (parts : List String) :
    Moves (Follows accepted)
      (LineTracker.writeParts parts : EStateM String (LineTracker σ) Unit) := by
  induction parts with
  | nil => exact follows_progression.pure ()
  | cons part rest ih =>
    have hpart := Writer.moves_writeAll follows_progression (follows_write h) (Writer.bytesOf part)
    exact follows_progression.bind hpart fun _ => ih

theorem follows_endLine (h : Recorded accepted) :
    Moves (Follows accepted) (endLine : EStateM String (LineTracker σ) Unit) := by
  apply follows_progression.bind follows_progression.get
  intro t
  have hfeed := Writer.moves_writeAll follows_progression (follows_write h) [lineFeed]
  cases t.midLine with
  | false => exact follows_flush h
  | true => exact follows_progression.bind hfeed fun _ => follows_flush h

theorem follows_perform (h : Recorded accepted) (call : Call) :
    Moves (Follows accepted) (call.perform : EStateM String (LineTracker σ) Unit) := by
  cases call with
  | write bytes => exact follows_progression.discard (follows_write h bytes).adaptExcept
  | writeAll bytes => exact Writer.moves_writeAll follows_progression (follows_write h) bytes
  | writeLine text => exact Writer.moves_writeLine follows_progression (follows_write h) text
  | writeParts parts => exact follows_writeParts h parts
  | endLine => exact follows_endLine h

theorem follows_after (h : Recorded accepted) (calls : List Call) (t : LineTracker σ) :
    Follows accepted t (t.after calls) := by
  induction calls generalizing t with
  | nil => exact follows_progression.refl t
  | cons call rest ih => exact follows_progression.trans (follows_perform h call t) (ih _)

/-- After any calls, however they ended, the flag of a tracker is set if and only if there are bytes
accepted since it was made and they do not end a line.  Ending the line without a failure leaves no
line open: it adds one line feed if a line was open and nothing otherwise, and doing it again adds
nothing. -/
theorem after_midLine_iff (h : Recorded accepted) (inner : σ) (calls : List Call) :
    let t := (new inner).after calls
    (∃ bytes, accepted t.inner = accepted inner ++ bytes ∧
      (t.midLine = true ↔ bytes ≠ [] ∧ bytes.getLast? ≠ some lineFeed)) ∧
    ∀ later, endLine t = .ok () later →
      (∃ bytes, accepted later.inner = accepted inner ++ bytes ∧
        (bytes = [] ∨ bytes.getLast? = some lineFeed)) ∧
      accepted later.inner = accepted t.inner ++ (if t.midLine then [lineFeed] else []) ∧
      accepted (finalState endLine later).inner = accepted later.inner := by
  intro t
  obtain ⟨bytes, hbytes⟩ := follows_after h calls (new inner)
  refine ⟨⟨bytes, hbytes.record, ?_⟩, ?_⟩
  · rw [hbytes.midLine]
    exact openAfter_false_iff
  · intro later hend
    have hadded := accepts_endLine h hend
    have hclosed := midLine_of_endLine h hend
    have htotal := hbytes.trans hadded
    refine ⟨⟨_, htotal.record, ?_⟩, hadded.record, ?_⟩
    · rw [← openAfter_false_eq_false]
      exact htotal.midLine.symm.trans hclosed
    · -- no line is open any more, so the second time there is only the flush
      rw [finalState, endLine_of_closed hclosed]
      have hagain := (accepts_flush h later).record
      rw [List.append_nil] at hagain
      exact hagain

end LineTracker

/-! ## A writer with short calls -/

/-- What a writer is told to do with a call. -/
inductive Answer where
  /-- Accept this many bytes at most. -/
  | accept (most : Nat)
  | interrupt
  | refuse
  deriving DecidableEq

/-- A writer that answers its calls as it is told.  When nothing more is told it accepts
everything. -/
structure ScriptedWriter where
  answers : List Answer
  accepted : List UInt8

namespace ScriptedWriter

def refusal : String := "refused"

def write (bytes : List UInt8) : EStateM WriteError ScriptedWriter Nat := fun w =>
  match w.answers with
  | [] => .ok bytes.length ⟨[], w.accepted ++ bytes⟩
  | .accept most :: rest =>
    let count := min most bytes.length
    .ok count ⟨rest, w.accepted ++ bytes.take count⟩
  | .interrupt :: rest => .error .interrupted ⟨rest, w.accepted⟩
  | .refuse :: rest => .error (.failed refusal) ⟨rest, w.accepted⟩

def flush : EStateM String ScriptedWriter Unit := fun w =>
  match w.answers with
  | .refuse :: rest => .error refusal ⟨rest, w.accepted⟩
  | answers => .ok () ⟨answers.tail, w.accepted⟩

theorem length_answers_lt {bytes : List UInt8} {w later : ScriptedWriter}
    (h : write bytes w = .error .interrupted later) :
    later.answers.length < w.answers.length := by
  unfold write at h
  split at h
  · cases h
  · cases h
  · rename_i hanswers
    cases h
    rw [hanswers]
    exact Nat.lt_succ_self _
  · cases h

instance : Writer ScriptedWriter where
  write := write
  flush := flush
  interruptions w := w.answers.length
  interruptions_lt := length_answers_lt

theorem recorded : Writer.Recorded ScriptedWriter.accepted where
  takes := by
    intro bytes w later count hwrite
    change write bytes w = .ok count later at hwrite
    unfold write at hwrite
    split at hwrite
    · cases hwrite
      rw [List.take_length]
    · cases hwrite
      rfl
    · cases hwrite
    · cases hwrite
  fails := by
    intro bytes w later e hwrite
    change write bytes w = .error e later at hwrite
    unfold write at hwrite
    split at hwrite
    · cases hwrite
    · cases hwrite
    · cases hwrite
      rfl
    · cases hwrite
      rfl
  flushes := by
    intro w
    change (finalState flush w).accepted = w.accepted
    unfold finalState flush
    cases w.answers with
    | nil => rfl
    | cons answer rest => cases answer <;> rfl

end ScriptedWriter

/-- Two bytes of a line are accepted before a call fails, and then a call accepts nothing.  The open
line is ended by a call that is interrupted first; the byte in front of it was there before the
tracker.  The second time the flush fails. -/
theorem after_midLine_iff_short :
    let script : List Answer :=
      [.accept 2, .interrupt, .refuse, .accept 0, .interrupt, .accept 1, .accept 0, .refuse]
    let t := (LineTracker.new (ScriptedWriter.mk script [120])).after
      [.writeLine "abc", .write [99]]
    t.inner.accepted = [120, 97, 98] ∧ t.midLine = true ∧
      ∃ later, LineTracker.endLine t = .ok () later ∧
        later.inner.accepted = [120, 97, 98, Writer.lineFeed] ∧
        (finalState LineTracker.endLine later).inner.accepted = later.inner.accepted := by
  intro script t
  obtain ⟨⟨bytes, hrecord, hflag⟩, hend⟩ := LineTracker.after_midLine_iff ScriptedWriter.recorded
    ⟨script, [120]⟩ [.writeLine "abc", .write [99]]
  have haccepted : t.inner.accepted = [120] ++ [97, 98] := rfl
  have hbytes : bytes = [97, 98] := List.append_cancel_left (hrecord.symm.trans haccepted)
  have hopen : t.midLine = true := by
    refine hflag.2 ⟨?_, ?_⟩
    · rw [hbytes]
      exact List.cons_ne_nil _ _
    · rw [hbytes]
      decide
  have hrun : LineTracker.endLine t =
      .ok () ⟨⟨[.refuse], [120, 97, 98, Writer.lineFeed]⟩, false⟩ := rfl
  obtain ⟨-, -, hagain⟩ := hend _ hrun
  exact ⟨haccepted, hopen, _, hrun, rfl, hagain⟩

end BlockScript
