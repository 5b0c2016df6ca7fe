/-!
# What computations do to their state

A computation that can fail still leaves a state behind.  A relation between states that is
reflexive and transitive holds between the first and the last state of a computation as soon as it
holds for each of its steps.  Two computations that run in lockstep end alike from related states,
and in related states.
-/

namespace BlockScript

variable {ε σ α β : Type}

/-- The state that a computation leaves behind, however it ends. -/
def finalState (x : EStateM ε σ α) (s : σ) : σ :=
  match x s with
  | .ok _ s' => s'
  | .error _ s' => s'

@[simp] theorem finalState_pure (a : α) (s : σ) :
    finalState (pure a : EStateM ε σ α) s = s := rfl

@[simp] theorem finalState_throw (e : ε) (s : σ) :
    finalState (throw e : EStateM ε σ α) s = s := rfl

theorem finalState_of_ok {x : EStateM ε σ α} {s s' : σ} {a : α} (h : x s = .ok a s') :
    finalState x s = s' := by
  rw [finalState, h]

theorem finalState_of_error {x : EStateM ε σ α} {s s' : σ} {e : ε} (h : x s = .error e s') :
    finalState x s = s' := by
  rw [finalState, h]

theorem bind_of_ok {x : EStateM ε σ α} {s s' : σ} {a : α} (h : x s = .ok a s')
    (f : α → EStateM ε σ β) : (x >>= f) s = f a s' := by
  change EStateM.bind x f s = f a s'
  rw [EStateM.bind, h]

theorem bind_of_error {x : EStateM ε σ α} {s s' : σ} {e : ε} (h : x s = .error e s')
    (f : α → EStateM ε σ β) : (x >>= f) s = .error e s' := by
  change EStateM.bind x f s = .error e s'
  rw [EStateM.bind, h]

/-- A sequence fails in its first part, or in its second part after the first one succeeded. -/
theorem bind_eq_error {x : EStateM ε σ α} {f : α → EStateM ε σ β} {s s' : σ} {e : ε} :
    (x >>= f) s = .error e s' ↔
      x s = .error e s' ∨ ∃ a mid, x s = .ok a mid ∧ f a mid = .error e s' := by
  cases hrun : x s with
  | ok a mid =>
    rw [bind_of_ok hrun]
    constructor
    · intro h
      exact .inr ⟨a, mid, rfl, h⟩
    · rintro (h | ⟨a, mid, h, hf⟩)
      · cases h
      · cases h
        exact hf
  | error e mid => simp [bind_of_error hrun]

theorem get_bind (f : σ → EStateM ε σ β) (s : σ) :
    ((get : EStateM ε σ σ) >>= f) s = f s s := rfl

theorem discard_eq_bind (x : EStateM ε σ α) :
    (discard x : EStateM ε σ PUnit) = x >>= fun _ => pure ⟨⟩ := by
  funext s
  change EStateM.map (fun _ => PUnit.unit) x s = EStateM.bind x (fun _ => pure ⟨⟩) s
  rw [EStateM.map, EStateM.bind]
  cases x s <;> rfl

theorem discard_of_ok {x : EStateM ε σ α} {s s' : σ} {a : α}
    (h : x s = .ok a s') : (discard x : EStateM ε σ PUnit) s = .ok ⟨⟩ s' := by
  rw [discard_eq_bind, bind_of_ok h]
  rfl

theorem discard_of_error {x : EStateM ε σ α} {s s' : σ} {e : ε}
    (h : x s = .error e s') : (discard x : EStateM ε σ PUnit) s = .error e s' := by
  rw [discard_eq_bind, bind_of_error h]

theorem finalState_adaptExcept {ε' : Type} (f : ε → ε') (x : EStateM ε σ α) (s : σ) :
    finalState (EStateM.adaptExcept f x) s = finalState x s := by
  unfold finalState EStateM.adaptExcept
  cases x s <;> rfl

/-- A relation that can be followed from state to state. -/
structure Progression (R : σ → σ → Prop) : Prop where
  refl : ∀ s, R s s
  trans : ∀ {s t u}, R s t → R t u → R s u

/-- Every state is related to the one that the computation leaves behind when started in it. -/
def Moves (R : σ → σ → Prop) (x : EStateM ε σ α) : Prop :=
  ∀ s, R s (finalState x s)

theorem Moves.adaptExcept {R : σ → σ → Prop} {ε' : Type} {f : ε → ε'} {x : EStateM ε σ α}
    (hx : Moves R x) : Moves R (EStateM.adaptExcept f x) := by
  intro s
  rw [finalState_adaptExcept]
  exact hx s

namespace Progression

variable {R : σ → σ → Prop}

theorem pure (h : Progression R) (a : α) : Moves R (pure a : EStateM ε σ α) :=
  h.refl

theorem throw (h : Progression R) (e : ε) : Moves R (throw e : EStateM ε σ α) :=
  h.refl

theorem get (h : Progression R) : Moves R (get : EStateM ε σ σ) :=
  h.refl

theorem bind (h : Progression R) {x : EStateM ε σ α} {f : α → EStateM ε σ β}
    (hx : Moves R x) (hf : ∀ a, Moves R (f a)) : Moves R (x >>= f) := by
  intro s
  have hfirst := hx s
  cases hrun : x s with
  | ok a s' =>
    rw [finalState_of_ok hrun] at hfirst
    rw [finalState, bind_of_ok hrun]
    exact h.trans hfirst (hf a s')
  | error e s' =>
    rw [finalState_of_error hrun] at hfirst
    rw [finalState, bind_of_error hrun]
    exact hfirst

theorem discard (h : Progression R) {x : EStateM ε σ α} (hx : Moves R x) :
    Moves R (discard x : EStateM ε σ PUnit) := by
  rw [discard_eq_bind]
  exact h.bind hx fun _ => h.pure _

end Progression

/-! ## Two computations side by side -/

variable {τ : Type}

/-- Both ends are successes with one value or failures with one error, in related states. -/
inductive SameEnd (R : σ → τ → Prop) :
    EStateM.Result ε σ α → EStateM.Result ε τ α → Prop
  | ok {a : α} {s : σ} {t : τ} (h : R s t) : SameEnd R (.ok a s) (.ok a t)
  | error {e : ε} {s : σ} {t : τ} (h : R s t) : SameEnd R (.error e s) (.error e t)

/-- From related states, the computations end alike. -/
def Lockstep (R : σ → τ → Prop) (x : EStateM ε σ α) (y : EStateM ε τ α) : Prop :=
  ∀ s t, R s t → SameEnd R (x s) (y t)

/-- Where two computations have ended alike, what runs in lockstep behind them ends alike too. -/
theorem SameEnd.bind {R : σ → τ → Prop} {x : EStateM ε σ α} {y : EStateM ε τ α}
    {f : α → EStateM ε σ β} {g : α → EStateM ε τ β} {s : σ} {t : τ} (h : SameEnd R (x s) (y t))
    (hfg : ∀ a, Lockstep R (f a) (g a)) : SameEnd R ((x >>= f) s) ((y >>= g) t) := by
  generalize hx : x s = r at h
  generalize hy : y t = r' at h
  cases h with
  | ok hlater =>
    rw [bind_of_ok hx, bind_of_ok hy]
    exact hfg _ _ _ hlater
  | error hlater =>
    rw [bind_of_error hx, bind_of_error hy]
    exact .error hlater

namespace Lockstep

variable {R : σ → τ → Prop}

theorem pure (a : α) : Lockstep R (pure a : EStateM ε σ α) (pure a) :=
  fun _ _ h => .ok h

theorem throw (e : ε) : Lockstep R (throw e : EStateM ε σ α) (throw e) :=
  fun _ _ h => .error h

theorem bind {x : EStateM ε σ α} {y : EStateM ε τ α} {f : α → EStateM ε σ β}
    {g : α → EStateM ε τ β} (hxy : Lockstep R x y) (hfg : ∀ a, Lockstep R (f a) (g a)) :
    Lockstep R (x >>= f) (y >>= g) :=
  fun s t h => (hxy s t h).bind hfg

theorem discard {x : EStateM ε σ α} {y : EStateM ε τ α} (h : Lockstep R x y) :
    Lockstep R (discard x : EStateM ε σ PUnit) (discard y) := by
  rw [discard_eq_bind, discard_eq_bind]
  exact h.bind fun _ => .pure _

end Lockstep

end BlockScript
