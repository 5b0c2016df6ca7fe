import BlockScript.Proofs.Peg.Calls
import Mathlib.Logic.Relation

/-!
# Matching ends

A ranking says of every rule whether its matches take a character, and how deep patterns are
entered below it before one is taken.  With a ranking, every call leaves less text, or the same
text and a lower pattern: no pattern is called again below itself before a character is taken.  A
text of `n` characters is matched within `depth` times `n` plus the height of the pattern.  So the
fuel of `parse` always suffices, and every pattern whose repetitions take characters either matches
or fails.
-/

namespace BlockScript.Peg

variable {ρ : Type}

namespace Pattern

/-- Every match takes a character, provided that those of the rules in `consuming` do. -/
def consumes (consuming : ρ → Bool) : Pattern ρ → Bool
  | .text chars => !chars.isEmpty
  | .char _ => true
  | .layout | .finish | .star _ | .opt _ | .absent _ => false
  | .seq p q => p.consumes consuming || q.consumes consuming
  | .alt p q => p.consumes consuming && q.consumes consuming
  | .rule r => consuming r

/-- What is repeated takes a character. -/
def guarded (consuming : ρ → Bool) : Pattern ρ → Bool
  | .text _ | .char _ | .layout | .finish | .rule _ => true
  | .seq p q | .alt p q => p.guarded consuming && q.guarded consuming
  | .star p => p.consumes consuming && p.guarded consuming
  | .opt p | .absent p => p.guarded consuming

/-- How deep patterns are entered; a taken character pays for `depth` of them. -/
def height (depth : Nat) (consuming : ρ → Bool) (rank : ρ → Nat) : Pattern ρ → Nat
  | .text _ | .char _ | .layout | .finish => 1
  | .seq p q =>
    let second := q.height depth consuming rank
    max (p.height depth consuming rank)
      (if p.consumes consuming then second - depth else second) + 1
  | .alt p q => max (p.height depth consuming rank) (q.height depth consuming rank) + 1
  | .star p | .opt p | .absent p => p.height depth consuming rank + 1
  | .rule r => rank r

/-- A pattern without the layout that it begins with. -/
def unspaced : Pattern ρ → Pattern ρ
  | .seq .layout p => p
  | p => p

/-- What is repeated anywhere in a pattern, the layout before each round apart. -/
def repeated : Pattern ρ → List (Pattern ρ)
  | .text _ | .char _ | .layout | .finish | .rule _ => []
  | .seq p q | .alt p q => p.repeated ++ q.repeated
  | .star p => p.unspaced :: p.repeated
  | .opt p | .absent p => p.repeated

theorem consumes_unspaced (consuming : ρ → Bool) (p : Pattern ρ) :
    p.unspaced.consumes consuming = p.consumes consuming := by
  unfold unspaced
  split <;> simp [consumes]

theorem consumes_of_mem_repeated {consuming : ρ → Bool} {p body : Pattern ρ}
    (hp : p.guarded consuming = true) (hbody : body ∈ p.repeated) :
    body.consumes consuming = true := by
  induction p with
  | text | char | layout | finish | rule => cases hbody
  | seq p q ihFirst ihSecond | alt p q ihFirst ihSecond =>
    obtain ⟨hfirst, hsecond⟩ := Bool.and_eq_true_iff.1 hp
    rcases List.mem_append.1 hbody with hbody | hbody
    · exact ihFirst hfirst hbody
    · exact ihSecond hsecond hbody
  | star p ih =>
    obtain ⟨hconsumes, hguarded⟩ := Bool.and_eq_true_iff.1 hp
    rcases List.mem_cons.1 hbody with rfl | hbody
    · rw [consumes_unspaced, hconsumes]
    · exact ih hguarded hbody
  | opt p ih | absent p ih => exact ih hp hbody

end Pattern

namespace Grammar

structure Ranking (g : Grammar ρ) where
  consuming : ρ → Bool
  rank : ρ → Nat
  consumes : ∀ r, consuming r = true → (g.pattern r).consumes consuming = true
  guarded : ∀ r, (g.pattern r).guarded consuming = true
  height_lt : ∀ r, (g.pattern r).height g.depth consuming rank < rank r
  rank_le : ∀ r, rank r ≤ 2 * g.depth
  depth_pos : 0 < g.depth

namespace Ranking

variable {g : Grammar ρ} (ranking : g.Ranking) {p : Pattern ρ} {s rest : List Char}

include ranking in
theorem ne_nil_of_reads {pos : Position} {w : List Char} {nodes : List (Node ρ)}
    (h : g.Reads p pos w rest nodes) (hp : p.consumes ranking.consuming = true) : w ≠ [] := by
  induction h using Reads.induction with
  | layout | finish | stop | again | present | missing | absent => cases hp
  | text chars =>
    rintro rfl
    cases hp
  | char => simp
  | seq _ _ _ _ _ _ _ _ _ _ ihFront ihBack =>
    rcases Bool.or_eq_true_iff.1 hp with hp | hp
    · exact List.append_ne_nil_of_left_ne_nil (ihFront hp) _
    · exact List.append_ne_nil_of_right_ne_nil _ (ihBack hp)
  | first _ _ _ _ _ _ _ ih => exact ih (Bool.and_eq_true_iff.1 hp).1
  | second _ _ _ _ _ _ _ _ ih => exact ih (Bool.and_eq_true_iff.1 hp).2
  | rule r _ _ _ _ _ ih => exact ih (ranking.consumes r hp)

include ranking in
/-- The characters of a match pay for entering patterns behind it. -/
theorem depth_le_of_reads {pos : Position} {w : List Char} {nodes : List (Node ρ)}
    (h : g.Reads p pos w rest nodes) (hp : p.consumes ranking.consuming = true) :
    g.depth ≤ g.depth * w.length := by
  have hw := List.length_pos_iff.2 (ranking.ne_nil_of_reads h hp)
  exact Nat.le_mul_of_pos_right _ hw

/-! ## Calls -/

/-- How deep calls can go from here. -/
def cost (c : Pattern ρ × List Char) : Nat :=
  c.1.height g.depth ranking.consuming ranking.rank + g.depth * c.2.length

/-- The second match has less text, or the same text and a lower pattern. -/
def Descends (c d : Pattern ρ × List Char) : Prop :=
  d.2.length < c.2.length ∨
    d.2 = c.2 ∧ d.1.height g.depth ranking.consuming ranking.rank <
      c.1.height g.depth ranking.consuming ranking.rank

variable {c d : Pattern ρ × List Char}

theorem cost_pos (c : Pattern ρ × List Char) : 0 < ranking.cost c := by
  obtain ⟨p, s⟩ := c
  cases p with
  | rule r =>
    have hlt := ranking.height_lt r
    simp only [cost, Pattern.height]
    omega
  | _ => simp only [cost, Pattern.height]; omega

/-- What is repeated in a called pattern takes characters, as in the one that calls it. -/
theorem guarded_of_calls (h : g.Calls c d) (hc : c.1.guarded ranking.consuming = true) :
    d.1.guarded ranking.consuming = true := by
  cases h with
  | first | choice => exact (Bool.and_eq_true_iff.1 hc).1
  | second | otherwise | round => exact (Bool.and_eq_true_iff.1 hc).2
  | again | option | absence => exact hc
  | @rule r s => exact ranking.guarded r

theorem cost_lt_of_calls (h : g.Calls c d) (hc : c.1.guarded ranking.consuming = true) :
    ranking.cost d < ranking.cost c := by
  cases h with
  | first | choice | otherwise | round | option | absence =>
    simp only [cost, Pattern.height]
    omega
  | @second p q pos w rest nodes hread =>
    simp only [cost, Pattern.height, List.length_append, Nat.mul_add]
    split
    · rename_i hconsumes
      have hpaid := ranking.depth_le_of_reads hread hconsumes
      omega
    · omega
  | again hread =>
    have hpaid := ranking.depth_le_of_reads hread (Bool.and_eq_true_iff.1 hc).1
    have hdepth := ranking.depth_pos
    simp only [cost, List.length_append, Nat.mul_add]
    omega
  | @rule r s =>
    have hlt := ranking.height_lt r
    simp only [cost, Pattern.height]
    omega

open Relation (ReflTransGen TransGen)

theorem guarded_of_reflTransGen (h : ReflTransGen g.Calls c d)
    (hc : c.1.guarded ranking.consuming = true) : d.1.guarded ranking.consuming = true := by
  induction h with
  | refl => exact hc
  | tail _ hcalls ih => exact ranking.guarded_of_calls hcalls ih

theorem cost_lt_of_transGen (h : TransGen g.Calls c d)
    (hc : c.1.guarded ranking.consuming = true) : ranking.cost d < ranking.cost c := by
  induction h with
  | single hcalls => exact ranking.cost_lt_of_calls hcalls hc
  | tail hmore hcalls ih =>
    have hguarded := ranking.guarded_of_reflTransGen hmore.to_reflTransGen hc
    exact Nat.lt_trans (ranking.cost_lt_of_calls hcalls hguarded) ih

theorem suffix_of_transGen (h : TransGen g.Calls c d) : d.2 <:+ c.2 := by
  induction h with
  | single hcalls => exact hcalls.suffix
  | tail _ hcalls ih => exact hcalls.suffix.trans ih

theorem descends_of_transGen (h : TransGen g.Calls c d)
    (hc : c.1.guarded ranking.consuming = true) : ranking.Descends c d := by
  have hcost := ranking.cost_lt_of_transGen h hc
  obtain ⟨taken, htext⟩ := suffix_of_transGen h
  by_cases htaken : taken = []
  · rw [htaken, List.nil_append] at htext
    simp only [cost, htext] at hcost
    exact .inr ⟨htext, by omega⟩
  · have hlength := List.length_pos_iff.2 htaken
    left
    rw [← htext, List.length_append]
    omega

/-- A pattern that is called again below itself has less text left. -/
theorem length_lt_of_transGen {t : List Char} (h : TransGen g.Calls (p, s) (p, t))
    (hp : p.guarded ranking.consuming = true) : t.length < s.length := by
  rcases ranking.descends_of_transGen h hp with hshorter | ⟨-, hlower⟩
  · exact hshorter
  · exact absurd hlower (Nat.lt_irrefl _)

/-! ## Fuel -/

theorem lt_cost_of_deep {n : Nat} (h : g.Deep n c) (hc : c.1.guarded ranking.consuming = true) :
    n < ranking.cost c := by
  induction n generalizing c with
  | zero => exact ranking.cost_pos c
  | succ n ih =>
    obtain ⟨d, hcalls, hdeep⟩ := h
    have hlt := ih hdeep (ranking.guarded_of_calls hcalls hc)
    have hcost := ranking.cost_lt_of_calls hcalls hc
    omega

/-- A pattern with enough fuel for its height and the text is not exhausted. -/
theorem run_ne_exhausted {fuel : Nat} (hp : p.guarded ranking.consuming = true)
    (hfuel : p.height g.depth ranking.consuming ranking.rank + g.depth * s.length ≤ fuel) :
    g.run fuel p s ≠ .exhausted := by
  intro hrun
  have hlt := ranking.lt_cost_of_deep (run_exhausted_iff_deep.1 hrun) hp
  simp only [cost] at hlt
  omega

include ranking in
theorem parse_ne_exhausted (r : ρ) : g.parse r s ≠ .exhausted := by
  apply ranking.run_ne_exhausted rfl
  have hrank := ranking.rank_le r
  simp only [Pattern.height, fuelFor]
  rw [Nat.mul_add]
  omega

include ranking in
/-- What a rule reads is what `parse` finds. -/
theorem parse_of_reads {r : ρ} {pos : Position} {w : List Char} {nodes : List (Node ρ)}
    (h : g.Reads (.rule r) pos w rest nodes) :
    ∃ trees, g.parse r (w ++ rest) = .matched trees rest ∧
      (Tree.placeAll pos trees).1 = nodes := by
  obtain ⟨trees, hgives, hnodes⟩ := reads_iff_gives.1 h
  have hends := ranking.parse_ne_exhausted (s := w ++ rest) r
  exact ⟨trees, (hgives.run_cases _).resolve_left hends, hnodes⟩

include ranking in
theorem fails_of_not_reads (hp : p.guarded ranking.consuming = true)
    (h : ∀ pos w rest nodes, s = w ++ rest → ¬ g.Reads p pos w rest nodes) : g.Fails p s := by
  have hrun := ranking.run_ne_exhausted (s := s) hp (Nat.le_refl _)
  generalize p.height g.depth ranking.consuming ranking.rank + g.depth * s.length = fuel at hrun
  cases houtcome : g.run fuel p s with
  | exhausted => exact absurd houtcome hrun
  | failed => exact ⟨fuel, houtcome⟩
  | matched trees rest =>
    exact absurd (reads_of_run .start houtcome)
      (h _ _ _ _ (textOf_run g fuel p s houtcome).symm)

end Ranking

end Grammar

end BlockScript.Peg
