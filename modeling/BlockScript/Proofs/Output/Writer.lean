import BlockScript.Output.Writer
import BlockScript.Proofs.Computation

/-!
# Writing in several calls

Writing a whole text is a loop of calls, and it can end after any of them.  The bounds on the number
of calls are never reached: an interrupted call is made again from the state that it left, and after
a call that took something the loop goes on with the bytes that are left.  What holds across every
single call, and can be followed from state to state, holds across all of them.
-/

namespace BlockScript.Writer

variable {σ : Type} [Writer σ] {calls more more' : Nat} {byte : UInt8} {bytes rest : List UInt8}
  {sink later : σ}

/-! ## Calls that are interrupted -/

theorem attempt_of_interrupted (h : write bytes sink = .error .interrupted later) (more : Nat) :
    attempt bytes (more + 1) sink = attempt bytes more later := by
  simp only [attempt, h]

theorem attempt_of_not_interrupted (h : ∀ later, write bytes sink ≠ .error .interrupted later)
    (more : Nat) : attempt bytes more sink = write bytes sink := by
  cases more with
  | zero => rfl
  | succ more =>
    cases hwrite : write bytes sink with
    | ok count later => simp only [attempt, hwrite]
    | error e later =>
      cases e with
      | failed message => simp only [attempt, hwrite]
      | interrupted => exact absurd hwrite (h later)

/-- A call that may be made often enough ends the same, however often it may be made. -/
theorem attempt_eq (h : interruptions sink ≤ more) (h' : interruptions sink ≤ more') :
    attempt bytes more sink = attempt bytes more' sink := by
  induction more generalizing more' sink with
  | zero =>
    have hnever : ∀ later, write bytes sink ≠ .error .interrupted later := by
      intro later hwrite
      exact absurd (interruptions_lt hwrite) (by omega)
    rw [attempt_of_not_interrupted hnever, attempt_of_not_interrupted hnever]
  | succ more ih =>
    by_cases hcall : ∃ later, write bytes sink = .error .interrupted later
    · obtain ⟨later, hwrite⟩ := hcall
      have hlt := interruptions_lt hwrite
      obtain ⟨before, rfl⟩ : ∃ before, more' = before + 1 := ⟨more' - 1, by omega⟩
      rw [attempt_of_interrupted hwrite, attempt_of_interrupted hwrite]
      exact ih (by omega) (by omega)
    · have hnever := not_exists.1 hcall
      rw [attempt_of_not_interrupted hnever, attempt_of_not_interrupted hnever]

theorem persist_of_ok {count : Nat} (h : write bytes sink = .ok count later) :
    persist bytes sink = .ok count later := by
  rw [persist, attempt_of_not_interrupted (by simp [h]), h]

theorem persist_of_failed {message : String}
    (h : write bytes sink = .error (.failed message) later) :
    persist bytes sink = .error message later := by
  rw [persist, attempt_of_not_interrupted (by simp [h]), h]
  rfl

theorem persist_of_interrupted (h : write bytes sink = .error .interrupted later) :
    persist bytes sink = persist bytes later := by
  have hlt := interruptions_lt h
  obtain ⟨before, hbefore⟩ : ∃ before, interruptions sink = before + 1 :=
    ⟨interruptions sink - 1, by omega⟩
  have hagain : attempt bytes before later = attempt bytes (interruptions later) later :=
    attempt_eq (by omega) (Nat.le_refl _)
  rw [persist, persist, hbefore, attempt_of_interrupted h, hagain]

/-- What holds of every call that is not interrupted, and is kept when an interrupted one comes
before, holds of the call that is made until it is not interrupted. -/
theorem persist_induction {motive : σ → EStateM.Result String σ Nat → Prop}
    (ok : ∀ {sink later count}, write bytes sink = .ok count later → motive sink (.ok count later))
    (failed : ∀ {sink later message}, write bytes sink = .error (.failed message) later →
      motive sink (.error message later))
    (again : ∀ {sink later result}, write bytes sink = .error .interrupted later →
      motive later result → motive sink result)
    (sink : σ) : motive sink (persist bytes sink) := by
  generalize hcount : interruptions sink = count
  induction count using Nat.strongRecOn generalizing sink with
  | ind count ih =>
    subst hcount
    cases hwrite : write bytes sink with
    | ok count later =>
      rw [persist_of_ok hwrite]
      exact ok hwrite
    | error e later =>
      cases e with
      | failed message =>
        rw [persist_of_failed hwrite]
        exact failed hwrite
      | interrupted =>
        rw [persist_of_interrupted hwrite]
        exact again hwrite (ih _ (interruptions_lt hwrite) later rfl)

/-! ## The loop -/

@[simp] theorem writeWithin_nil (calls : Nat) (sink : σ) :
    writeWithin calls [] sink = .ok () sink := by
  cases calls <;> rfl

@[simp] theorem writeAll_nil (sink : σ) : writeAll [] sink = .ok () sink :=
  rfl

/-- The bound on the calls does not matter if there is one for every byte. -/
theorem writeWithin_of_le (h : bytes.length ≤ calls) (sink : σ) :
    writeWithin calls bytes sink = writeAll bytes sink := by
  suffices heq : ∀ {calls' : Nat}, bytes.length ≤ calls' →
      writeWithin calls bytes sink = writeWithin calls' bytes sink from heq (Nat.le_refl _)
  induction calls generalizing bytes sink with
  | zero =>
    obtain rfl := List.length_eq_zero_iff.1 (Nat.le_zero.1 h)
    intro calls' _
    rw [writeWithin_nil, writeWithin_nil]
  | succ calls ih =>
    intro calls' h'
    cases bytes with
    | nil => rw [writeWithin_nil, writeWithin_nil]
    | cons byte rest =>
      rw [List.length_cons] at h h'
      obtain ⟨before, rfl⟩ : ∃ before, calls' = before + 1 := ⟨calls' - 1, by omega⟩
      rw [writeWithin, writeWithin]
      cases hcall : persist (byte :: rest) sink with
      | error message later => rw [bind_of_error hcall, bind_of_error hcall]
      | ok count later =>
        rw [bind_of_ok hcall, bind_of_ok hcall]
        cases count with
        | zero => rfl
        | succ accepted =>
          have hlength : (rest.drop accepted).length ≤ rest.length := by
            rw [List.length_drop]
            omega
          exact ih (by omega) later (by omega)

theorem writeAll_of_taken {count : Nat}
    (h : persist (byte :: rest) sink = .ok (count + 1) later) :
    writeAll (byte :: rest) sink = writeAll (rest.drop count) later := by
  have hlength : (rest.drop count).length ≤ rest.length := by
    rw [List.length_drop]
    omega
  rw [writeAll, List.length_cons, writeWithin, bind_of_ok h]
  exact writeWithin_of_le hlength later

theorem writeAll_of_none (h : persist (byte :: rest) sink = .ok 0 later) :
    writeAll (byte :: rest) sink = .error stalled later := by
  rw [writeAll, List.length_cons, writeWithin, bind_of_ok h]
  rfl

theorem writeAll_of_failed {message : String}
    (h : persist (byte :: rest) sink = .error message later) :
    writeAll (byte :: rest) sink = .error message later := by
  rw [writeAll, List.length_cons, writeWithin, bind_of_error h]

/-- An interrupted call does not end the loop, and all the bytes are still to be written. -/
theorem writeAll_of_interrupted (h : write (byte :: rest) sink = .error .interrupted later) :
    writeAll (byte :: rest) sink = writeAll (byte :: rest) later := by
  have hcall := persist_of_interrupted h
  cases hagain : persist (byte :: rest) later with
  | error message last =>
    rw [hagain] at hcall
    rw [writeAll_of_failed hcall, writeAll_of_failed hagain]
  | ok count last =>
    rw [hagain] at hcall
    cases count with
    | zero => rw [writeAll_of_none hcall, writeAll_of_none hagain]
    | succ count => rw [writeAll_of_taken hcall, writeAll_of_taken hagain]

/-- One call is enough where it takes everything. -/
theorem writeAll_of_all (hbytes : bytes ≠ [])
    (h : write bytes sink = .ok bytes.length later) : writeAll bytes sink = .ok () later := by
  cases bytes with
  | nil => exact absurd rfl hbytes
  | cons byte rest =>
    rw [writeAll_of_taken (persist_of_ok h), List.drop_length, writeAll_nil]

/-! ## Whatever the calls do -/

variable {R : σ → σ → Prop}

theorem moves_persist (h : Progression R)
    (hwrite : ∀ bytes, Moves R (write bytes : EStateM WriteError σ Nat)) (bytes : List UInt8) :
    Moves R (persist bytes : EStateM String σ Nat) := by
  refine persist_induction (motive := fun sink result => R sink (finalState (fun _ => result) sink))
    ?_ ?_ ?_
  · intro sink later count hcall
    have hmoves := hwrite bytes sink
    rwa [finalState_of_ok hcall] at hmoves
  · intro sink later message hcall
    have hmoves := hwrite bytes sink
    rwa [finalState_of_error hcall] at hmoves
  · intro sink later result hcall hresult
    have hmoves := hwrite bytes sink
    rw [finalState_of_error hcall] at hmoves
    exact h.trans hmoves hresult

theorem moves_writeWithin (h : Progression R)
    (hwrite : ∀ bytes, Moves R (write bytes : EStateM WriteError σ Nat)) (calls : Nat)
    (bytes : List UInt8) : Moves R (writeWithin calls bytes) := by
  induction calls generalizing bytes with
  | zero => exact h.pure ()
  | succ calls ih =>
    cases bytes with
    | nil => exact h.pure ()
    | cons byte rest =>
      rw [writeWithin]
      apply h.bind (moves_persist h hwrite (byte :: rest))
      intro count
      cases count with
      | zero => exact h.throw stalled
      | succ accepted => exact ih (rest.drop accepted)

theorem moves_writeAll (h : Progression R)
    (hwrite : ∀ bytes, Moves R (write bytes : EStateM WriteError σ Nat)) (bytes : List UInt8) :
    Moves R (writeAll bytes) :=
  moves_writeWithin h hwrite bytes.length bytes

theorem moves_writeLine (h : Progression R)
    (hwrite : ∀ bytes, Moves R (write bytes : EStateM WriteError σ Nat)) (text : String) :
    Moves R (writeLine text) :=
  h.bind (moves_writeAll h hwrite _) fun _ => moves_writeAll h hwrite _

end BlockScript.Writer
