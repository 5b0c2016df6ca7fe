import Mathlib.Data.String.Basic
import BlockScript.Environment

/-!
# Consistent environments

The values live in the bindings and their lifetimes in the declaration sets.  An environment is
consistent when the two agree: every bound name is declared exactly once and nothing else is
declared.  The four operations on environments keep it consistent, so every reachable environment
is.
-/

namespace BlockScript

namespace Bindings

/-- The names are in strictly ascending order. -/
def Ascending (bindings : Bindings) : Prop :=
  bindings.Pairwise fun a b => a.1 < b.1

theorem get?_insert (bindings : Bindings) (name other : String) (value : Value) :
    (bindings.insert name value).get? other =
      if other = name then some value else bindings.get? other := by
  induction bindings with
  | nil =>
    simp only [insert, get?]
    by_cases h : other = name
    · simp [h]
    · simp [h, Ne.symm h]
  | cons entry rest ih =>
    obtain ⟨key, old⟩ := entry
    simp only [insert]
    split
    · rename_i hkey
      subst hkey
      simp only [get?]
      by_cases h : other = name
      · simp [h]
      · simp [h, Ne.symm h]
    · rename_i hkey
      split
      · simp only [get?]
        by_cases h : other = name
        · simp [h]
        · simp [h, Ne.symm h]
      · simp only [get?, ih]
        by_cases h : other = name
        · subst h
          simp [Ne.symm hkey]
        · simp [h]

theorem get?_release (bindings : Bindings) (names : List String) (name : String) :
    (bindings.release names).get? name =
      if name ∈ names then none else bindings.get? name := by
  induction bindings with
  | nil => simp [release, get?]
  | cons entry rest ih =>
    obtain ⟨key, value⟩ := entry
    unfold release at ih ⊢
    by_cases hkey : key ∈ names
    · rw [List.filter_cons_of_neg (by simpa using hkey), ih]
      by_cases hname : name ∈ names
      · simp [hname]
      · have hne : key ≠ name := by
          rintro rfl
          exact hname hkey
        simp [hname, get?, hne]
    · rw [List.filter_cons_of_pos (by simpa using hkey)]
      by_cases heq : key = name
      · subst heq
        simp [get?, hkey]
      · simp only [get?, heq, if_false]
        exact ih

theorem get?_eq_none_of_lt {bindings : Bindings} {name : String}
    (h : ∀ entry ∈ bindings, name < entry.1) : bindings.get? name = none := by
  induction bindings with
  | nil => rfl
  | cons entry rest ih =>
    have hne : entry.1 ≠ name := ne_of_gt (h entry (by simp))
    simp only [get?, hne, if_false]
    exact ih fun other hother => h other (by simp [hother])

theorem Ascending.mem_iff_get? {bindings : Bindings} (h : bindings.Ascending) (name : String)
    (value : Value) : (name, value) ∈ bindings ↔ bindings.get? name = some value := by
  induction bindings with
  | nil => simp [get?]
  | cons entry rest ih =>
    obtain ⟨key, old⟩ := entry
    obtain ⟨hhead, htail⟩ := List.pairwise_cons.1 h
    simp only [List.mem_cons, Prod.mk.injEq, ih htail, get?]
    by_cases hkey : key = name
    · subst hkey
      simp [get?_eq_none_of_lt hhead, eq_comm]
    · simp [hkey, Ne.symm hkey]

theorem mem_insert {bindings : Bindings} {name : String} {value : Value}
    {entry : String × Value} (h : entry ∈ bindings.insert name value) :
    entry = (name, value) ∨ entry ∈ bindings := by
  induction bindings with
  | nil => simpa [insert] using h
  | cons first rest ih =>
    obtain ⟨key, old⟩ := first
    simp only [insert] at h
    split at h
    · rcases List.mem_cons.1 h with h | h
      · exact .inl h
      · exact .inr (by simp [h])
    · split at h
      · simpa using h
      · rcases List.mem_cons.1 h with h | h
        · exact .inr (by simp [h])
        · rcases ih h with h | h
          · exact .inl h
          · exact .inr (by simp [h])

theorem Ascending.insert {bindings : Bindings} (h : bindings.Ascending) (name : String)
    (value : Value) : (bindings.insert name value).Ascending := by
  induction bindings with
  | nil => simp [Bindings.insert, Ascending]
  | cons entry rest ih =>
    obtain ⟨key, old⟩ := entry
    obtain ⟨hhead, htail⟩ := List.pairwise_cons.1 h
    simp only [Bindings.insert]
    split
    · rename_i hkey
      subst hkey
      exact List.pairwise_cons.2 ⟨hhead, htail⟩
    · rename_i hne
      split
      · rename_i hlt
        refine List.pairwise_cons.2 ⟨?_, h⟩
        intro other hother
        rcases List.mem_cons.1 hother with rfl | hother
        · exact hlt
        · exact hlt.trans (hhead other hother)
      · rename_i hnlt
        have hgt : key < name := lt_of_le_of_ne (not_lt.1 hnlt) (Ne.symm hne)
        refine List.pairwise_cons.2 ⟨?_, ih htail⟩
        intro other hother
        rcases mem_insert hother with rfl | hother
        · exact hgt
        · exact hhead other hother

theorem Ascending.release {bindings : Bindings} (h : bindings.Ascending)
    (names : List String) : (bindings.release names).Ascending :=
  List.Pairwise.filter _ h

end Bindings

namespace Environment

/-! ## Declaration sets as a stack -/

/-- The declaration sets, the innermost first. -/
def frames (env : Environment) : List (List String) :=
  env.blocks ++ [env.root]

/-- The declaration set of the innermost block. -/
def innermost (env : Environment) : List String :=
  env.blocks.headD env.root

/-- The declaration sets around the innermost one. -/
def outer (env : Environment) : List (List String) :=
  env.frames.tail

/-- The declaration sets by their depth, the root first. -/
def declarations (env : Environment) : List (List String) :=
  env.root :: env.blocks.reverse

theorem frames_eq (env : Environment) : env.frames = env.innermost :: env.outer := by
  unfold frames innermost outer frames
  cases env.blocks <;> rfl

theorem declarations_eq (env : Environment) : env.declarations = env.frames.reverse := by
  simp [declarations, frames]

theorem declaredAt?_eq (env : Environment) (k : Nat) :
    env.declaredAt? k = env.declarations[k]? := rfl

theorem depth_eq (env : Environment) : env.depth = env.outer.length := by
  simp [depth, outer, frames]

/-- All the declared names. -/
def declared (env : Environment) : List String :=
  env.frames.flatten

theorem declared_eq (env : Environment) :
    env.declared = env.innermost ++ env.outer.flatten := by
  rw [declared, frames_eq, List.flatten_cons]

@[simp] theorem frames_enter (env : Environment) : env.enter.frames = [] :: env.frames := rfl

@[simp] theorem get?_enter (env : Environment) (name : String) :
    env.enter.get? name = env.get? name := rfl

theorem frames_exit {env : Environment} (h : env.blocks ≠ []) :
    env.exit.frames = env.outer := by
  unfold exit outer frames
  cases hblocks : env.blocks with
  | nil => exact absurd hblocks h
  | cons names blocks => rfl

theorem get?_exit {env : Environment} (h : env.blocks ≠ []) (name : String) :
    env.exit.get? name = if name ∈ env.innermost then none else env.get? name := by
  unfold exit innermost
  cases hblocks : env.blocks with
  | nil => exact absurd hblocks h
  | cons names blocks => exact Bindings.get?_release env.bindings names name

/-- What closing the innermost block does, seen on the stack of declaration sets. -/
theorem exit_of_frames {env : Environment} {names : List String} {rest : List (List String)}
    (h : env.frames = names :: rest) (hrest : rest ≠ []) :
    env.exit.bindings = env.bindings.release names ∧ env.exit.frames = rest := by
  unfold exit
  unfold frames at h ⊢
  cases hblocks : env.blocks with
  | nil =>
    rw [hblocks] at h
    exact absurd (List.cons.inj h).2.symm hrest
  | cons first blocks =>
    rw [hblocks] at h
    obtain ⟨rfl, rfl⟩ := List.cons.inj h
    exact ⟨rfl, rfl⟩

theorem exit_of_blocks_nil {env : Environment} (h : env.blocks = []) : env.exit = env := by
  unfold exit
  rw [h]

@[simp] theorem get?_declare (env : Environment) (name other : String) :
    (env.declare name).get? other = env.get? other := by
  unfold declare get?
  cases env.blocks <;> rfl

theorem frames_declare (env : Environment) (name : String) :
    (env.declare name).frames = (env.innermost ++ [name]) :: env.outer := by
  unfold declare innermost outer frames
  cases env.blocks <;> rfl

theorem bindings_assign (env : Environment) (name : String) (value : Value) :
    (env.assign name value).bindings = env.bindings.insert name value := by
  unfold assign
  split
  · rfl
  · unfold declare
    cases env.blocks <;> rfl

theorem get?_assign (env : Environment) (name other : String) (value : Value) :
    (env.assign name value).get? other =
      if other = name then some value else env.get? other := by
  unfold get?
  rw [bindings_assign, Bindings.get?_insert]

theorem frames_assign (env : Environment) (name : String) (value : Value) :
    (env.assign name value).frames =
      if env.isBound name then env.frames else (env.innermost ++ [name]) :: env.outer := by
  unfold assign
  split
  · rfl
  · exact frames_declare _ name

theorem declared_assign_of_bound {env : Environment} {name : String} (value : Value)
    (h : env.isBound name) : (env.assign name value).declared = env.declared := by
  rw [declared, frames_assign, if_pos h, declared]

theorem declared_assign_of_unbound {env : Environment} {name : String} (value : Value)
    (h : ¬env.isBound name) :
    (env.assign name value).declared = env.innermost ++ name :: env.outer.flatten := by
  rw [declared, frames_assign, if_neg h, List.flatten_cons, List.append_assoc,
    List.singleton_append]

/-! ## Consistency -/

/-- Every bound name is declared exactly once, and nothing else is declared. -/
structure Consistent (env : Environment) : Prop where
  ascending : env.bindings.Ascending
  nodup : env.declared.Nodup
  declared_iff : ∀ name, name ∈ env.declared ↔ env.isBound name

theorem consistent_empty : empty.Consistent := by
  refine ⟨List.Pairwise.nil, ?_, ?_⟩
  · simp [declared, frames, empty]
  · intro name
    simp [declared, frames, empty, isBound, get?, Bindings.get?]

theorem isBound_assign (env : Environment) (name other : String) (value : Value) :
    (env.assign name value).isBound other = (other = name ∨ env.isBound other : Bool) := by
  unfold isBound
  rw [get?_assign]
  by_cases h : other = name <;> simp [h]

theorem Consistent.enter {env : Environment} (h : env.Consistent) : env.enter.Consistent :=
  ⟨h.ascending, h.nodup, h.declared_iff⟩

theorem Consistent.assign {env : Environment} (h : env.Consistent) (name : String)
    (value : Value) : (env.assign name value).Consistent := by
  have hascending : (env.assign name value).bindings.Ascending := by
    rw [bindings_assign]
    exact h.ascending.insert name value
  by_cases hbound : env.isBound name
  · have hdeclared := declared_assign_of_bound value hbound
    refine ⟨hascending, hdeclared ▸ h.nodup, ?_⟩
    intro other
    rw [hdeclared, isBound_assign, h.declared_iff other]
    by_cases heq : other = name
    · simp [heq, hbound]
    · simp [heq]
  · have hdeclared := declared_assign_of_unbound value hbound
    have hperm : (env.assign name value).declared.Perm (name :: env.declared) := by
      rw [hdeclared, declared_eq]
      exact List.perm_middle
    have hfresh : name ∉ env.declared := by
      intro hmem
      exact hbound ((h.declared_iff name).1 hmem)
    refine ⟨hascending, hperm.nodup_iff.2 (List.nodup_cons.2 ⟨hfresh, h.nodup⟩), ?_⟩
    intro other
    rw [hperm.mem_iff, List.mem_cons, h.declared_iff other, isBound_assign]
    simp

theorem Consistent.exit {env : Environment} (h : env.Consistent) : env.exit.Consistent := by
  by_cases hblocks : env.blocks = []
  · rw [exit_of_blocks_nil hblocks]
    exact h
  · have hnodup := h.nodup
    rw [declared_eq] at hnodup
    obtain ⟨-, houter, hdisjoint⟩ := List.nodup_append.1 hnodup
    refine ⟨?_, ?_, ?_⟩
    · unfold Environment.exit
      cases hcases : env.blocks with
      | nil => exact absurd hcases hblocks
      | cons names blocks => exact h.ascending.release names
    · rw [declared, frames_exit hblocks]
      exact houter
    · intro name
      have hname := h.declared_iff name
      rw [declared_eq, List.mem_append, isBound] at hname
      rw [declared, frames_exit hblocks, isBound, get?_exit hblocks]
      by_cases hinner : name ∈ env.innermost
      · have hnot : name ∉ env.outer.flatten := by
          intro hmem
          exact hdisjoint name hinner name hmem rfl
        simp only [hnot, hinner, if_true, Option.isSome_none, Bool.false_eq_true]
      · simpa only [hinner, if_false, false_or] using hname

/-! ## Reachable environments -/

/-- What can be done to an environment from outside. -/
inductive Operation where
  | enter
  | exit
  | assign (name : String) (value : Value)
  | reset
  deriving DecidableEq, Repr, Inhabited

def Operation.apply (env : Environment) : Operation → Environment
  | .enter => env.enter
  | .exit => env.exit
  | .assign name value => env.assign name value
  | .reset => env.reset

/-- The environment after a sequence of operations on the empty one. -/
def after (operations : List Operation) : Environment :=
  operations.foldl Operation.apply empty

def Reachable (env : Environment) : Prop :=
  ∃ operations, after operations = env

theorem Consistent.apply {env : Environment} (h : env.Consistent) (operation : Operation) :
    (operation.apply env).Consistent := by
  cases operation with
  | enter => exact h.enter
  | exit => exact h.exit
  | assign name value => exact h.assign name value
  | reset => exact consistent_empty

theorem consistent_foldl {env : Environment} (h : env.Consistent)
    (operations : List Operation) : (operations.foldl Operation.apply env).Consistent := by
  induction operations generalizing env with
  | nil => exact h
  | cons operation operations ih => exact ih (h.apply operation)

theorem Reachable.consistent {env : Environment} (h : env.Reachable) : env.Consistent := by
  obtain ⟨operations, rfl⟩ := h
  exact consistent_foldl consistent_empty operations

end Environment

end BlockScript
