import Mathlib.Data.List.Sort
import BlockScript.Proofs.Environment.Consistency

/-!
# Environments and scope chains

A scope chain keeps the values of every block in a frame of its own and looks names up from the
innermost frame outwards.  The flat environment cannot be told from it: after the same operations
both answer every question alike.  A name is never declared twice, which is why the one namespace
does not need to shadow.
-/

namespace BlockScript

/-- Names with their values, in the order in which they were first bound. -/
abbrev Frame := List (String × Value)

namespace Frame

def names (frame : Frame) : List String :=
  frame.map Prod.fst

def get? (frame : Frame) (name : String) : Option Value :=
  (frame.find? fun entry => entry.1 = name).map Prod.snd

/-- Gives a name that the frame holds another value. -/
def update (frame : Frame) (name : String) (value : Value) : Frame :=
  frame.map fun entry => if entry.1 = name then (name, value) else entry

theorem get?_cons (entry : String × Value) (frame : Frame) (name : String) :
    get? (entry :: frame) name = if entry.1 = name then some entry.2 else frame.get? name := by
  unfold get?
  by_cases h : entry.1 = name <;> simp [h]

theorem get?_eq_none_iff (frame : Frame) (name : String) :
    frame.get? name = none ↔ name ∉ frame.names := by
  induction frame with
  | nil => simp [get?, names]
  | cons entry rest ih =>
    rw [get?_cons, names, List.map_cons, List.mem_cons]
    by_cases h : entry.1 = name
    · simp [h]
    · rw [if_neg h, ih]
      simp [names, Ne.symm h]

@[simp] theorem names_update (frame : Frame) (name : String) (value : Value) :
    (frame.update name value).names = frame.names := by
  unfold names update
  rw [List.map_map]
  apply List.map_congr_left
  intro entry _
  by_cases h : entry.1 = name <;> simp [h]

theorem get?_update (frame : Frame) (name other : String) (value : Value) :
    (frame.update name value).get? other =
      if other = name then (frame.get? name).map fun _ => value else frame.get? other := by
  induction frame with
  | nil => simp [update, get?]
  | cons entry rest ih =>
    unfold update at ih ⊢
    rw [List.map_cons, get?_cons, get?_cons, get?_cons, ih]
    by_cases hentry : entry.1 = name
    · by_cases hother : other = name
      · simp [hentry, hother]
      · simp [hentry, hother, Ne.symm hother]
    · by_cases hother : other = name
      · simp [hentry, hother]
      · simp [hentry, hother]

theorem get?_eq_some_iff {frame : Frame} (h : frame.names.Nodup) (name : String)
    (value : Value) : frame.get? name = some value ↔ (name, value) ∈ frame := by
  induction frame with
  | nil => simp [get?]
  | cons entry rest ih =>
    obtain ⟨key, old⟩ := entry
    obtain ⟨hfresh, hrest⟩ := List.nodup_cons.1 h
    rw [get?_cons, List.mem_cons, Prod.mk.injEq]
    by_cases hkey : key = name
    · subst hkey
      have hnot : (key, value) ∉ rest := by
        intro hmem
        exact hfresh (List.mem_map.2 ⟨_, hmem, rfl⟩)
      simp [hnot, eq_comm]
    · simp [hkey, Ne.symm hkey, ih hrest]

end Frame

/-- Frames, the innermost first. -/
abbrev ScopeChain := List Frame

namespace ScopeChain

/-- One frame without names. -/
def empty : ScopeChain := [[]]

/-- All the names of a chain. -/
def names (chain : ScopeChain) : List String :=
  (chain.map Frame.names).flatten

/-- The value of a name in the innermost frame that holds it. -/
def get? (chain : ScopeChain) (name : String) : Option Value :=
  chain.findSome? fun frame => frame.get? name

def isBound (chain : ScopeChain) (name : String) : Bool :=
  chain.any fun frame => frame.names.contains name

def lookup (chain : ScopeChain) (name : String) : Except Cause Value :=
  match chain.get? name with
  | some value => .ok value
  | none => .error (.undefinedSymbol name)

/-- The number of frames around the innermost one. -/
def depth (chain : ScopeChain) : Nat :=
  chain.length - 1

/-- The names of the frame at a depth; the root has depth zero. -/
def declaredAt? (chain : ScopeChain) (depth : Nat) : Option (List String) :=
  (chain.reverse[depth]?).map Frame.names

def size (chain : ScopeChain) : Nat :=
  chain.flatten.length

/-- All names with their values, by name. -/
def bindings (chain : ScopeChain) : List (String × Value) :=
  chain.flatten.mergeSort fun a b => a.1 ≤ b.1

def enter (chain : ScopeChain) : ScopeChain :=
  [] :: chain

/-- Drops the innermost frame, unless it is the only one. -/
def exit : ScopeChain → ScopeChain
  | _ :: frame :: rest => frame :: rest
  | chain => chain

/-- Assigns in the innermost frame that holds the name. -/
def update (name : String) (value : Value) : ScopeChain → ScopeChain
  | [] => []
  | frame :: rest =>
    if name ∈ frame.names then frame.update name value :: rest else frame :: update name value rest

/-- Adds a name to the innermost frame. -/
def declare (name : String) (value : Value) : ScopeChain → ScopeChain
  | [] => [[(name, value)]]
  | frame :: rest => (frame ++ [(name, value)]) :: rest

/-- Assigns in the frame that holds the name, or adds it to the innermost one. -/
def assign (chain : ScopeChain) (name : String) (value : Value) : ScopeChain :=
  if chain.isBound name then chain.update name value else chain.declare name value

def apply (chain : ScopeChain) : Environment.Operation → ScopeChain
  | .enter => chain.enter
  | .exit => chain.exit
  | .assign name value => chain.assign name value
  | .reset => empty

/-- The scope chain after a sequence of operations on the empty one. -/
def after (operations : List Environment.Operation) : ScopeChain :=
  operations.foldl apply empty

/-! ## Looking up -/

theorem mem_names {chain : ScopeChain} {name : String} :
    name ∈ chain.names ↔ ∃ frame ∈ chain, name ∈ frame.names := by
  simp [names]

theorem isBound_iff (chain : ScopeChain) (name : String) :
    chain.isBound name ↔ name ∈ chain.names := by
  simp [isBound, mem_names]

theorem get?_eq_none_iff (chain : ScopeChain) (name : String) :
    chain.get? name = none ↔ name ∉ chain.names := by
  simp only [get?, List.findSome?_eq_none_iff, Frame.get?_eq_none_iff, mem_names, not_exists,
    not_and]

theorem get?_cons (frame : Frame) (chain : ScopeChain) (name : String) :
    get? (frame :: chain) name = (frame.get? name).or (chain.get? name) := by
  unfold get?
  rw [List.findSome?_cons]
  cases frame.get? name <;> rfl

theorem get?_eq_some_iff {chain : ScopeChain} (h : chain.names.Nodup) (name : String)
    (value : Value) : chain.get? name = some value ↔ (name, value) ∈ chain.flatten := by
  induction chain with
  | nil => simp [get?]
  | cons frame rest ih =>
    obtain ⟨hframe, hrest, hdisjoint⟩ := List.nodup_append.1 (show
      (frame.names ++ names rest).Nodup from h)
    rw [get?_cons, List.flatten_cons, List.mem_append, ← Frame.get?_eq_some_iff hframe,
      ← ih hrest]
    cases hget : frame.get? name with
    | none => simp
    | some found =>
      have hmem : name ∈ frame.names := by
        by_contra hnot
        rw [(frame.get?_eq_none_iff name).2 hnot] at hget
        cases hget
      have hnone : get? rest name = none := by
        rw [get?_eq_none_iff]
        intro hmem'
        exact hdisjoint name hmem name hmem' rfl
      simp [hnone]

/-! ## Assigning -/

@[simp] theorem map_names_update (chain : ScopeChain) (name : String) (value : Value) :
    (chain.update name value).map Frame.names = chain.map Frame.names := by
  induction chain with
  | nil => rfl
  | cons frame rest ih =>
    unfold update
    split
    · simp
    · simp [ih]

theorem get?_update {chain : ScopeChain} {name : String} (h : name ∈ chain.names)
    (other : String) (value : Value) :
    (chain.update name value).get? other =
      if other = name then some value else chain.get? other := by
  induction chain with
  | nil => simp [names] at h
  | cons frame rest ih =>
    unfold update
    split
    · rename_i hframe
      obtain ⟨old, hold⟩ := Option.ne_none_iff_exists'.1
        (mt (frame.get?_eq_none_iff name).1 (not_not.2 hframe))
      rw [get?_cons, get?_cons, Frame.get?_update]
      by_cases heq : other = name <;> simp [heq, hold]
    · rename_i hframe
      have hrest : name ∈ names rest := by
        simpa [mem_names, hframe] using h
      rw [get?_cons, get?_cons, ih hrest]
      by_cases heq : other = name
      · subst heq
        simp [(frame.get?_eq_none_iff other).2 hframe]
      · simp [heq]

theorem get?_declare {chain : ScopeChain} {name : String} (h : name ∉ chain.names)
    (other : String) (value : Value) :
    (chain.declare name value).get? other =
      if other = name then some value else chain.get? other := by
  cases chain with
  | nil =>
    by_cases heq : other = name
    · simp [declare, get?, Frame.get?, heq]
    · simp [declare, get?, Frame.get?, heq, Ne.symm heq]
  | cons frame rest =>
    have hframe : name ∉ frame.names := by
      intro hmem
      exact h (mem_names.2 ⟨frame, by simp, hmem⟩)
    have hnew : Frame.get? (frame ++ [(name, value)]) other =
        (frame.get? other).or (if other = name then some value else none) := by
      unfold Frame.get?
      rw [List.find?_append]
      by_cases heq : other = name
      · cases frame.find? (fun entry => entry.1 = other) <;> simp [heq]
      · cases frame.find? (fun entry => entry.1 = other) <;> simp [heq, Ne.symm heq]
    unfold declare
    rw [get?_cons, get?_cons, hnew]
    by_cases heq : other = name
    · subst heq
      simp [(frame.get?_eq_none_iff other).2 hframe]
    · simp [heq]

end ScopeChain

/-! ## The refinement -/

namespace Environment

/-- The declaration sets are the names of the frames, and every name has the same value. -/
structure Refines (env : Environment) (chain : ScopeChain) : Prop where
  frames : env.frames = chain.map Frame.names
  values : ∀ name, env.get? name = chain.get? name

theorem refines_empty : empty.Refines ScopeChain.empty := by
  refine ⟨rfl, ?_⟩
  intro name
  rfl

theorem Refines.isBound_eq {env : Environment} {chain : ScopeChain} (h : env.Refines chain)
    (name : String) : env.isBound name = chain.isBound name := by
  rw [Bool.eq_iff_iff, chain.isBound_iff, isBound, h.values name]
  have hnone := chain.get?_eq_none_iff name
  cases hget : chain.get? name with
  | none => simpa [hget] using hnone
  | some value => simpa [hget] using hnone

theorem Refines.enter {env : Environment} {chain : ScopeChain} (h : env.Refines chain) :
    env.enter.Refines chain.enter := by
  refine ⟨?_, ?_⟩
  · simp [ScopeChain.enter, h.frames, Frame.names]
  · intro name
    rw [get?_enter, h.values name, ScopeChain.enter, ScopeChain.get?_cons]
    rfl

theorem Refines.exit {env : Environment} {chain : ScopeChain} (h : env.Refines chain)
    (hconsistent : env.Consistent) : env.exit.Refines chain.exit := by
  have hframes := h.frames
  by_cases hblocks : env.blocks = []
  · have hlength : chain.length = 1 := by
      have := congrArg List.length hframes
      simpa [Environment.frames, hblocks] using this.symm
    obtain ⟨frame, rfl⟩ := List.length_eq_one_iff.1 hlength
    rw [exit_of_blocks_nil hblocks]
    exact h
  · obtain ⟨names, blocks, hcons⟩ := List.exists_cons_of_ne_nil hblocks
    -- The chain has a frame for the block and one around it at least.
    rcases chain with _ | ⟨frame, _ | ⟨next, rest⟩⟩
    · simp [Environment.frames] at hframes
    · simp [Environment.frames, hcons] at hframes
    · have hheads := h.frames
      rw [frames_eq, List.map_cons, List.cons.injEq] at hheads
      obtain ⟨hinner, houter⟩ := hheads
      refine ⟨?_, ?_⟩
      · rw [frames_exit hblocks]
        exact houter
      · intro name
        have hvalue := h.values name
        rw [ScopeChain.get?_cons] at hvalue
        rw [get?_exit hblocks, hinner, hvalue]
        split
        · rename_i hmem
          have hnodup := hconsistent.nodup
          rw [declared_eq, hinner, houter] at hnodup
          obtain ⟨-, -, hdisjoint⟩ := List.nodup_append.1 hnodup
          refine ((ScopeChain.get?_eq_none_iff _ name).2 ?_).symm
          intro hmem'
          exact hdisjoint name hmem name hmem' rfl
        · rename_i hnot
          rw [(frame.get?_eq_none_iff name).2 hnot]
          rfl

theorem Refines.assign {env : Environment} {chain : ScopeChain} (h : env.Refines chain)
    (name : String) (value : Value) :
    (env.assign name value).Refines (chain.assign name value) := by
  have hbound := h.isBound_eq name
  refine ⟨?_, ?_⟩
  · rw [frames_assign, hbound]
    unfold ScopeChain.assign
    split
    · rw [ScopeChain.map_names_update]
      exact h.frames
    · have hframes := h.frames
      rw [frames_eq] at hframes
      cases chain with
      | nil => simp at hframes
      | cons frame rest =>
        rw [List.map_cons, List.cons.injEq] at hframes
        simp [ScopeChain.declare, hframes.1, hframes.2, Frame.names]
  · intro other
    rw [get?_assign, h.values other, ScopeChain.assign]
    by_cases hheld : chain.isBound name
    · rw [if_pos hheld, ScopeChain.get?_update ((chain.isBound_iff name).1 hheld)]
    · rw [if_neg hheld, ScopeChain.get?_declare (mt (chain.isBound_iff name).2 hheld)]

theorem Refines.apply {env : Environment} {chain : ScopeChain} (h : env.Refines chain)
    (hconsistent : env.Consistent) (operation : Operation) :
    (operation.apply env).Refines (chain.apply operation) := by
  cases operation with
  | enter => exact h.enter
  | exit => exact h.exit hconsistent
  | assign name value => exact h.assign name value
  | reset => exact refines_empty

theorem refines_foldl {env : Environment} {chain : ScopeChain} (h : env.Refines chain)
    (hconsistent : env.Consistent) (operations : List Operation) :
    (operations.foldl Operation.apply env).Refines
      (operations.foldl ScopeChain.apply chain) := by
  induction operations generalizing env chain with
  | nil => exact h
  | cons operation operations ih =>
    exact ih (h.apply hconsistent operation) (hconsistent.apply operation)

/-! ## What can be observed -/

/-- The declaration sets hold every bound name exactly once. -/
structure Partitioned (env : Environment) : Prop where
  rooted : env.declarations ≠ []
  nodup : ∀ names ∈ env.declarations, names.Nodup
  disjoint : env.declarations.Pairwise List.Disjoint
  bound_iff : ∀ name, env.isBound name ↔ ∃ names ∈ env.declarations, name ∈ names

theorem Consistent.partitioned {env : Environment} (h : env.Consistent) : env.Partitioned := by
  obtain ⟨hnodup, hdisjoint⟩ := List.nodup_flatten.1 h.nodup
  refine ⟨by simp [declarations], ?_, ?_, ?_⟩
  · intro names hnames
    rw [declarations_eq, List.mem_reverse] at hnames
    exact hnodup names hnames
  · rw [declarations_eq, List.pairwise_reverse]
    refine hdisjoint.imp ?_
    intro first second hapart name hsecond hfirst
    exact hapart hfirst hsecond
  · intro name
    rw [← h.declared_iff name, declared, List.mem_flatten, declarations_eq]
    simp

/-- The environment and the scope chain answer every question alike. -/
structure Agrees (env : Environment) (chain : ScopeChain) : Prop where
  lookup : ∀ name, env.lookup name = chain.lookup name
  isBound : ∀ name, env.isBound name = chain.isBound name
  depth : env.depth = chain.depth
  declaredAt : ∀ k, env.declaredAt? k = chain.declaredAt? k
  size : env.size = chain.size
  bindings : env.bindings = chain.bindings
  ascending : env.bindings.Ascending

theorem Refines.names_eq {env : Environment} {chain : ScopeChain} (h : env.Refines chain) :
    chain.names = env.declared := by
  rw [ScopeChain.names, declared, h.frames]

theorem Refines.bindings_perm {env : Environment} {chain : ScopeChain} (h : env.Refines chain)
    (hconsistent : env.Consistent) : env.bindings.Perm chain.flatten := by
  have hnames : chain.names.Nodup := h.names_eq ▸ hconsistent.nodup
  have hflat : chain.flatten.Nodup := by
    have hkeys : chain.flatten.map Prod.fst = chain.names := by
      rw [List.map_flatten]
      rfl
    exact List.Nodup.of_map Prod.fst (hkeys ▸ hnames)
  have hbindings : env.bindings.Nodup := by
    refine hconsistent.ascending.imp ?_
    rintro a b hlt rfl
    exact lt_irrefl _ hlt
  rw [List.perm_ext_iff_of_nodup hbindings hflat]
  rintro ⟨name, value⟩
  rw [hconsistent.ascending.mem_iff_get?, ← ScopeChain.get?_eq_some_iff hnames]
  exact h.values name ▸ Iff.rfl

theorem Refines.bindings_eq {env : Environment} {chain : ScopeChain} (h : env.Refines chain)
    (hconsistent : env.Consistent) : env.bindings = chain.bindings := by
  have hperm : env.bindings.Perm chain.bindings :=
    (h.bindings_perm hconsistent).trans (List.mergeSort_perm _ _).symm
  have hsorted : chain.bindings.Pairwise fun a b => a.1 ≤ b.1 := by
    refine (List.pairwise_mergeSort ?_ ?_ chain.flatten).imp of_decide_eq_true
    · intro a b c hab hbc
      exact decide_eq_true (le_trans (of_decide_eq_true hab) (of_decide_eq_true hbc))
    · intro a b
      simpa using le_total a.1 b.1
  refine hperm.eq_of_pairwise ?_ (hconsistent.ascending.imp le_of_lt) hsorted
  rintro ⟨name, value⟩ ⟨name', value'⟩ hleft hright hle hge
  obtain rfl : name = name' := le_antisymm hle hge
  have hmem : (name, value') ∈ env.bindings := hperm.mem_iff.2 hright
  rw [hconsistent.ascending.mem_iff_get?] at hleft hmem
  rw [Option.some.inj (hleft.symm.trans hmem)]

theorem Refines.agrees {env : Environment} {chain : ScopeChain} (h : env.Refines chain)
    (hconsistent : env.Consistent) : env.Agrees chain := by
  refine ⟨?_, h.isBound_eq, ?_, ?_, ?_, h.bindings_eq hconsistent, hconsistent.ascending⟩
  · intro name
    have hvalue := h.values name
    cases hget : chain.get? name <;> simp [lookup, ScopeChain.lookup, hvalue, hget]
  · have hlength := congrArg List.length h.frames
    rw [List.length_map, Environment.frames, List.length_append, List.length_singleton] at hlength
    rw [depth, ScopeChain.depth]
    omega
  · intro k
    rw [declaredAt?_eq, declarations_eq, h.frames, ScopeChain.declaredAt?, ← List.map_reverse,
      List.getElem?_map]
  · rw [size, (h.bindings_perm hconsistent).length_eq, ScopeChain.size]

/-- After any sequence of operations, the declaration sets hold every bound name exactly once, and
the environment cannot be told from the scope chain after the same operations. -/
theorem after_agrees_scopeChain (operations : List Operation) :
    (after operations).Partitioned ∧
      (after operations).Agrees (ScopeChain.after operations) := by
  have hconsistent : (after operations).Consistent :=
    consistent_foldl consistent_empty operations
  have hrefines : (after operations).Refines (ScopeChain.after operations) :=
    refines_foldl refines_empty consistent_empty operations
  exact ⟨hconsistent.partitioned, hrefines.agrees hconsistent⟩

end Environment

end BlockScript
