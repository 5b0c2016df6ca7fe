import BlockScript.Proofs.Peg.Reading

/-!
# The rules that a match leaves behind

Which rules the nodes of a match have, and in which order, can be read off the pattern: the rules
form a word of a regular language.  What was matched and where does not matter for it.
-/

namespace BlockScript.Peg

variable {ρ : Type}

/-- The rules that the pattern refers to, apart from what it only looks ahead for. -/
def Pattern.names : Pattern ρ → List ρ
  | .text _ | .char _ | .layout | .finish | .absent _ => []
  | .seq p q | .alt p q => p.names ++ q.names
  | .star p | .opt p => p.names
  | .rule r => [r]

/-- All words of a pattern that repeats nothing and refers to no hidden rule. -/
def Pattern.words? (hidden : ρ → Bool) : Pattern ρ → Option (List (List ρ))
  | .text _ | .char _ | .layout | .finish | .absent _ => some [[]]
  | .seq p q => do
    let fronts ← p.words? hidden
    let backs ← q.words? hidden
    return fronts.flatMap fun front => backs.map (front ++ ·)
  | .alt p q => do return (← p.words? hidden) ++ (← q.words? hidden)
  | .star _ => none
  | .opt p => do return (← p.words? hidden) ++ [[]]
  | .rule r => if hidden r then none else some [[r]]

namespace Grammar

/-- The nodes of a match of the pattern can have these rules, in this order.  Nothing is said about
the nodes that a hidden rule leaves. -/
def Yields (g : Grammar ρ) : Pattern ρ → List ρ → Prop
  | .text _, word | .char _, word | .layout, word | .finish, word | .absent _, word => word = []
  | .seq p q, word => ∃ front, g.Yields p front ∧ ∃ back, g.Yields q back ∧ word = front ++ back
  | .alt p q, word => g.Yields p word ∨ g.Yields q word
  | .star p, word =>
    ∃ parts : List (List ρ), (∀ part ∈ parts, g.Yields p part) ∧ word = parts.flatten
  | .opt p, word => g.Yields p word ∨ word = []
  | .rule r, word => g.hidden r = true ∨ word = [r]

variable {g : Grammar ρ} {p : Pattern ρ}

theorem Reads.yields {pos : Position} {w rest : List Char} {nodes : List (Node ρ)}
    (h : g.Reads p pos w rest nodes) : g.Yields p (nodes.map Node.rule) := by
  induction h using Reads.induction with
  | text | char | layout | finish | absent => rfl
  | seq _ _ _ _ _ _ _ _ _ _ ihFront ihBack =>
    exact ⟨_, ihFront, _, ihBack, List.map_append⟩
  | first _ _ _ _ _ _ _ ih => exact .inl ih
  | second _ _ _ _ _ _ _ _ ih => exact .inr ih
  | stop => exact ⟨[], by simp, rfl⟩
  | again _ _ _ _ _ _ _ _ _ ihFront ihBack =>
    obtain ⟨parts, hparts, hback⟩ := ihBack
    refine ⟨_ :: parts, List.forall_mem_cons.2 ⟨ihFront, hparts⟩, ?_⟩
    rw [List.map_append, hback, List.flatten_cons]
  | present _ _ _ _ _ _ ih => exact .inl ih
  | missing => exact .inr rfl
  | rule r pos w rest children _ _ =>
    cases hr : g.hidden r with
    | true => exact .inl hr
    | false => exact .inr rfl

theorem Produced.yields {rule : ρ} {start stop : Position} {text : List Char}
    {children : List (Node ρ)} (h : g.Produced (.mk rule start stop text children)) :
    g.Yields (g.pattern rule) (children.map Node.rule) := by
  obtain ⟨rest, hread⟩ := h
  exact hread.yields

/-- A repetition with layout between the rounds leaves the nodes of its rounds. -/
theorem Yields.rounds {word : List ρ} (h : g.Yields (.many p) word) :
    ∃ parts : List (List ρ), (∀ part ∈ parts, g.Yields p part) ∧ word = parts.flatten := by
  rcases h with ⟨front, hfront, _, ⟨parts, hparts, rfl⟩, rfl⟩ | rfl
  · refine ⟨front :: parts, List.forall_mem_cons.2 ⟨hfront, fun part hpart => ?_⟩, rfl⟩
    obtain ⟨_, rfl, round, hround, rfl⟩ := hparts part hpart
    exact hround
  · exact ⟨[], by simp, rfl⟩

theorem Yields.mem_words {word : List ρ} (h : g.Yields p word) (words : List (List ρ))
    (hwords : p.words? g.hidden = some words) : word ∈ words := by
  induction p generalizing word words with
  | text | char | layout | finish | absent =>
    cases hwords
    exact List.mem_singleton.2 h
  | seq p q ihp ihq =>
    obtain ⟨front, hfront, back, hback, rfl⟩ := h
    obtain ⟨fronts, hfronts, hrest⟩ := Option.bind_eq_some_iff.1 hwords
    obtain ⟨backs, hbacks, hall⟩ := Option.bind_eq_some_iff.1 hrest
    cases hall
    exact List.mem_flatMap.2 ⟨front, ihp hfront fronts hfronts,
      List.mem_map_of_mem (ihq hback backs hbacks)⟩
  | alt p q ihp ihq =>
    obtain ⟨first, hfirst, hrest⟩ := Option.bind_eq_some_iff.1 hwords
    obtain ⟨second, hsecond, hall⟩ := Option.bind_eq_some_iff.1 hrest
    cases hall
    rcases h with h | h
    · exact List.mem_append_left _ (ihp h first hfirst)
    · exact List.mem_append_right _ (ihq h second hsecond)
  | star p ih => cases hwords
  | opt p ih =>
    obtain ⟨some, hsome, hall⟩ := Option.bind_eq_some_iff.1 hwords
    cases hall
    rcases h with h | rfl
    · exact List.mem_append_left _ (ih h some hsome)
    · exact List.mem_append_right _ (List.mem_singleton.2 rfl)
  | rule r =>
    rw [Pattern.words?] at hwords
    split at hwords
    · cases hwords
    · rename_i hr
      cases hwords
      exact List.mem_singleton.2 (h.resolve_left hr)

theorem Yields.mem_names {word : List ρ} (h : g.Yields p word)
    (hp : ∀ r ∈ p.names, g.hidden r = false) : ∀ r ∈ word, r ∈ p.names := by
  induction p generalizing word with
  | text | char | layout | finish | absent =>
    obtain rfl := h
    simp
  | seq p q ihp ihq =>
    obtain ⟨front, hfront, back, hback, rfl⟩ := h
    obtain ⟨hp, hq⟩ := List.forall_mem_append.1 hp
    exact List.forall_mem_append.2 ⟨fun r hr => List.mem_append_left _ (ihp hfront hp r hr),
      fun r hr => List.mem_append_right _ (ihq hback hq r hr)⟩
  | alt p q ihp ihq =>
    obtain ⟨hp, hq⟩ := List.forall_mem_append.1 hp
    rcases h with h | h
    · exact fun r hr => List.mem_append_left _ (ihp h hp r hr)
    · exact fun r hr => List.mem_append_right _ (ihq h hq r hr)
  | star p ih =>
    obtain ⟨parts, hparts, rfl⟩ := h
    intro r hr
    obtain ⟨part, hpart, hr⟩ := List.mem_flatten.1 hr
    exact ih (hparts part hpart) hp r hr
  | opt p ih =>
    rcases h with h | rfl
    · exact ih h hp
    · simp
  | rule r =>
    rcases h with h | rfl
    · cases (hp r (List.mem_singleton.2 rfl)).symm.trans h
    · exact fun _ hr => hr

end Grammar

end BlockScript.Peg
