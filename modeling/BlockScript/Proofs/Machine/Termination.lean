import BlockScript.Proofs.Computation
import BlockScript.Machine

/-!
# Terminating runs

Fuel only decides whether a run comes to its end.  A run that ends without exhausting its fuel is
repeated exactly by every run with more fuel, so it makes sense to say how a computation ends
without naming the fuel.
-/

namespace BlockScript

variable {σ τ α β : Type}

/-- The end of a computation on a machine. -/
abbrev Ending (σ α : Type) := EStateM.Result Halt (Machine σ) α

namespace Ending

def machine : Ending σ α → Machine σ
  | .ok _ m => m
  | .error _ m => m

/-- Why the computation ended early, if it did. -/
def halt? : Ending σ α → Option Halt
  | .ok _ _ => none
  | .error halt _ => some halt

/-- The value that the computation ended with, or why it ended early. -/
def outcome : Ending σ α → Except Halt α
  | .ok a _ => .ok a
  | .error halt _ => .error halt

/-- The fuel sufficed. -/
def Settled (r : Ending σ α) : Prop :=
  r.halt? ≠ some .exhausted

instance (r : Ending σ α) : Decidable r.Settled :=
  inferInstanceAs (Decidable (r.halt? ≠ some .exhausted))

theorem settled_iff_of_outcome_eq {r : Ending σ α} {r' : Ending τ α} (h : r.outcome = r'.outcome) :
    r.Settled ↔ r'.Settled := by
  cases r <;> cases r' <;> cases h <;> exact Iff.rfl

theorem machine_eq_finalState (x : Execution σ α) (m : Machine σ) :
    machine (x m) = finalState x m := by
  cases hrun : x m with
  | ok a later => rw [machine, finalState_of_ok hrun]
  | error halt later => rw [machine, finalState_of_error hrun]

end Ending

namespace SameEnd

variable {R : Machine σ → Machine τ → Prop} {r : Ending σ α} {r' : Ending τ α}

theorem outcome_eq (h : SameEnd R r r') : r.outcome = r'.outcome := by
  cases h <;> rfl

theorem machine (h : SameEnd R r r') : R r.machine r'.machine := by
  cases h <;> assumption

end SameEnd

namespace Execution

/-- The second computation ends like the first one wherever that does not run out of fuel. -/
def Settles (x y : Execution σ α) : Prop :=
  ∀ m, Ending.Settled (x m) → y m = x m

theorem Settles.refl (x : Execution σ α) : Settles x x :=
  fun _ _ => rfl

theorem Settles.bind {x y : Execution σ α} {f g : α → Execution σ β} (hxy : Settles x y)
    (hfg : ∀ a, Settles (f a) (g a)) : Settles (x >>= f) (y >>= g) := by
  intro m hsettled
  cases hrun : x m with
  | ok a later =>
    have hsame : y m = .ok a later := by
      rw [hxy m (by simp [hrun, Ending.Settled, Ending.halt?]), hrun]
    rw [bind_of_ok hrun] at hsettled ⊢
    rw [bind_of_ok hsame]
    exact hfg a later hsettled
  | error halt later =>
    rw [bind_of_error hrun] at hsettled ⊢
    have hsame : y m = .error halt later := by
      rw [hxy m (by rwa [hrun]), hrun]
    rw [bind_of_error hsame]

theorem Settles.discard {x y : Execution σ α} (h : Settles x y) :
    Settles (discard x : Execution σ PUnit) (discard y) := by
  rw [discard_eq_bind, discard_eq_bind]
  exact h.bind fun _ => .refl _

theorem Settles.inBlock {x y : Execution σ α} (h : Settles x y) :
    Settles (inBlock x) (inBlock y) := by
  intro m hsettled
  cases hrun : x { m with environment := m.environment.enter } with
  | ok a later =>
    have hsame := h { m with environment := m.environment.enter }
      (by simp [hrun, Ending.Settled, Ending.halt?])
    simp only [Execution.inBlock, hsame]
  | error halt later =>
    simp only [Execution.inBlock, hrun] at hsettled
    have hsame := h { m with environment := m.environment.enter }
      (by simpa only [hrun, Ending.Settled, Ending.halt?] using hsettled)
    simp only [Execution.inBlock, hsame]

theorem Settles.repeatWhile {test test' : Execution σ Bool} {body body' : Execution σ Unit}
    (htest : Settles test test') (hbody : Settles body body') {fuel more : Nat}
    (h : fuel ≤ more) : Settles (repeatWhile test body fuel) (repeatWhile test' body' more) := by
  induction fuel generalizing more with
  | zero =>
    intro m hsettled
    exact absurd rfl hsettled
  | succ fuel ih =>
    cases more with
    | zero => exact absurd h (by omega)
    | succ more =>
      rw [Execution.repeatWhile, Execution.repeatWhile]
      refine htest.bind ?_
      intro holds
      cases holds with
      | false => exact .refl _
      | true => exact hbody.bind fun _ => ih (by omega)

end Execution

open Execution

mutual

theorem Statement.settles_exec [Writer σ] {fuel more : Nat} (h : fuel ≤ more) :
    ∀ s : Statement,
      Settles (s.exec fuel : Execution σ (Option Value)) (s.exec more)
  | .assign a => by
    rw [Statement.exec, Statement.exec]
    exact .refl _
  | .print mode value span => by
    rw [Statement.exec, Statement.exec]
    exact .refl _
  | .block body => by
    rw [Statement.exec, Statement.exec]
    exact (Settles.refl _).bind fun _ => (Block.settles_exec h body).bind fun _ => .refl _
  | .conditional arms span => by
    rw [Statement.exec, Statement.exec]
    exact (Settles.refl _).bind fun _ => (Arms.settles_exec h arms).bind fun _ => .refl _
  | .whileLoop test body span => by
    rw [Statement.exec, Statement.exec]
    have hloop := Settles.repeatWhile (Settles.refl (condition test))
      (Block.settles_exec h body) h
    exact (Settles.refl _).bind fun _ => hloop.bind fun _ => .refl _
  | .forLoop init test update body span => by
    rw [Statement.exec, Statement.exec]
    have hround := (Block.settles_exec h body).bind fun _ =>
      Settles.refl (discard (evaluating update.eval) : Execution σ Unit)
    have hloop := Settles.repeatWhile (Settles.refl (condition test)) hround h
    exact (Settles.refl _).bind fun _ => (Settles.refl _).bind fun _ =>
      hloop.bind fun _ => .refl _
  | .expression value span => by
    rw [Statement.exec, Statement.exec]
    exact .refl _

theorem Block.settles_exec [Writer σ] {fuel more : Nat} (h : fuel ≤ more) :
    ∀ body : Block, Settles (body.exec fuel : Execution σ Unit) (body.exec more)
  | .mk statements span => by
    rw [Block.exec, Block.exec]
    exact (Statement.settles_execAll h statements).inBlock

theorem Arms.settles_exec [Writer σ] {fuel more : Nat} (h : fuel ≤ more) :
    ∀ arms : Arms, Settles (arms.exec fuel : Execution σ Unit) (arms.exec more)
  | .done => by
    rw [Arms.exec, Arms.exec]
    exact .refl _
  | .otherwise body => by
    rw [Arms.exec, Arms.exec]
    exact Block.settles_exec h body
  | .arm test body span rest => by
    rw [Arms.exec, Arms.exec]
    refine (Settles.refl _).bind ?_
    intro holds
    cases holds with
    | false => exact Arms.settles_exec h rest
    | true => exact Block.settles_exec h body

theorem Statement.settles_execAll [Writer σ] {fuel more : Nat} (h : fuel ≤ more) :
    ∀ statements : List Statement,
      Settles (Statement.execAll fuel statements : Execution σ Unit)
        (Statement.execAll more statements)
  | [] => by
    rw [Statement.execAll, Statement.execAll]
    exact .refl _
  | statement :: rest => by
    rw [Statement.execAll, Statement.execAll]
    exact (Statement.settles_exec h statement).discard.bind fun _ =>
      Statement.settles_execAll h rest

end

/-! ## Endings without fuel -/

/-- With as much fuel as it needs, the statement ends like this. -/
def Statement.Ends [Writer σ] (s : Statement) (m : Machine σ)
    (r : Ending σ (Option Value)) : Prop :=
  ∃ fuel, s.exec fuel m = r ∧ r.Settled

/-- With as much fuel as they need, the statements run one after the other end like this. -/
def Statement.EndAll [Writer σ] (statements : List Statement) (m : Machine σ)
    (r : Ending σ Unit) : Prop :=
  ∃ fuel, Statement.execAll fuel statements m = r ∧ r.Settled

theorem Statement.Ends.unique [Writer σ] {s : Statement} {m : Machine σ}
    {r r' : Ending σ (Option Value)} (h : s.Ends m r) (h' : s.Ends m r') : r = r' := by
  obtain ⟨fuel, rfl, hsettled⟩ := h
  obtain ⟨fuel', rfl, hsettled'⟩ := h'
  have hmore := Statement.settles_exec (Nat.le_max_left fuel fuel') s m hsettled
  have hmore' := Statement.settles_exec (Nat.le_max_right fuel fuel') s m hsettled'
  exact hmore.symm.trans hmore'

theorem Statement.EndAll.unique [Writer σ] {statements : List Statement} {m : Machine σ}
    {r r' : Ending σ Unit} (h : Statement.EndAll statements m r)
    (h' : Statement.EndAll statements m r') : r = r' := by
  obtain ⟨fuel, rfl, hsettled⟩ := h
  obtain ⟨fuel', rfl, hsettled'⟩ := h'
  have hmore := Statement.settles_execAll (Nat.le_max_left fuel fuel') statements m hsettled
  have hmore' := Statement.settles_execAll (Nat.le_max_right fuel fuel') statements m hsettled'
  exact hmore.symm.trans hmore'

/-- The first computation comes to an end if and only if the second one does, and then the ends are
related. -/
structure Ending.Matched (Rel : Ending σ α → Ending τ β → Prop) (ends : Ending σ α → Prop)
    (ends' : Ending τ β → Prop) : Prop where
  terminates : (∃ r, ends r) ↔ ∃ r', ends' r'
  related : ∀ r r', ends r → ends' r' → Rel r r'

/-- It is enough to relate the runs with the same fuel. -/
theorem Ending.matched_of_runs {Rel : Ending σ α → Ending τ β → Prop} {x : Nat → Ending σ α}
    {y : Nat → Ending τ β} (hrel : ∀ fuel, Rel (x fuel) (y fuel))
    (hsettled : ∀ {r r'}, Rel r r' → (r.Settled ↔ r'.Settled))
    (hunique : ∀ {fuel fuel'}, (y fuel).Settled → (y fuel').Settled → y fuel = y fuel') :
    Matched Rel (fun r => ∃ fuel, x fuel = r ∧ r.Settled)
      (fun r' => ∃ fuel, y fuel = r' ∧ r'.Settled) := by
  refine ⟨⟨?_, ?_⟩, ?_⟩
  · rintro ⟨r, fuel, rfl, hends⟩
    exact ⟨_, fuel, rfl, (hsettled (hrel fuel)).1 hends⟩
  · rintro ⟨r', fuel, rfl, hends⟩
    exact ⟨_, fuel, rfl, (hsettled (hrel fuel)).2 hends⟩
  · rintro r r' ⟨fuel, rfl, hends⟩ ⟨fuel', rfl, hends'⟩
    rw [hunique hends' ((hsettled (hrel fuel)).1 hends)]
    exact hrel fuel

end BlockScript
