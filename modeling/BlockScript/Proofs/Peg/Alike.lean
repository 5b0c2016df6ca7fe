import BlockScript.Proofs.Peg.Reading

/-!
# Matches of the same shape

Two texts that differ only in their layout are matched by the same leaves and nodes.  `Alike` compares
such matches, and `Agree` the outcomes of the same pattern on two texts.  A pattern that skips no
layout and enters no rule leaves nothing but leaves.
-/

namespace BlockScript.Peg

variable {ρ : Type}

/-- The same leaves and nodes in both, and related layout at the same places. -/
inductive Alike (Gap : List Char → List Char → Prop) : List (Tree ρ) → List (Tree ρ) → Prop
  | nil : Alike Gap [] []
  | leaf {text : List Char} {trees trees' : List (Tree ρ)} (htrees : Alike Gap trees trees') :
      Alike Gap (.leaf text :: trees) (.leaf text :: trees')
  | gap {text text' : List Char} {trees trees' : List (Tree ρ)} (hgap : Gap text text')
      (htrees : Alike Gap trees trees') : Alike Gap (.gap text :: trees) (.gap text' :: trees')
  | node {rule : ρ} {parts parts' trees trees' : List (Tree ρ)} (hparts : Alike Gap parts parts')
      (htrees : Alike Gap trees trees') :
      Alike Gap (.node rule parts :: trees) (.node rule parts' :: trees')

/-- Only leaves, as in the match of a token. -/
def AllLeaves (trees : List (Tree ρ)) : Prop :=
  ∀ tree ∈ trees, ∃ text, tree = .leaf text

namespace Alike

variable {Gap : List Char → List Char → Prop} {trees trees' front back front' back' : List (Tree ρ)}

theorem append (hfront : Alike Gap front front') (hback : Alike Gap back back') :
    Alike Gap (front ++ back) (front' ++ back') := by
  induction hfront with
  | nil => exact hback
  | leaf _ ih => exact .leaf ih
  | gap hgap _ ih => exact .gap hgap ih
  | node hparts _ _ ih => exact .node hparts ih

theorem of_append (h : Alike Gap (front ++ back) trees') :
    ∃ front' back', trees' = front' ++ back' ∧ Alike Gap front front' ∧ Alike Gap back back' := by
  induction front generalizing trees' with
  | nil => exact ⟨[], trees', rfl, .nil, h⟩
  | cons tree front ih =>
    cases h with
    | leaf htrees =>
      obtain ⟨front', back', rfl, hfront, hback⟩ := ih htrees
      exact ⟨_ :: front', back', rfl, .leaf hfront, hback⟩
    | gap hgap htrees =>
      obtain ⟨front', back', rfl, hfront, hback⟩ := ih htrees
      exact ⟨_ :: front', back', rfl, .gap hgap hfront, hback⟩
    | node hparts htrees =>
      obtain ⟨front', back', rfl, hfront, hback⟩ := ih htrees
      exact ⟨_ :: front', back', rfl, .node hparts hfront, hback⟩

mutual

theorem refl_cons (hgap : ∀ text, Gap text text) :
    ∀ (tree : Tree ρ) {trees : List (Tree ρ)}, Alike Gap trees trees →
      Alike Gap (tree :: trees) (tree :: trees)
  | .leaf _, _, h => .leaf h
  | .gap text, _, h => .gap (hgap text) h
  | .node _ parts, _, h => .node (refl hgap parts) h

theorem refl (hgap : ∀ text, Gap text text) : ∀ trees : List (Tree ρ), Alike Gap trees trees
  | [] => .nil
  | tree :: trees => refl_cons hgap tree (refl hgap trees)

end

theorem eq_of_eq (h : Alike Eq trees trees') : trees = trees' := by
  induction h with
  | nil => rfl
  | leaf _ ih => rw [ih]
  | gap hgap _ ih => rw [hgap, ih]
  | node _ _ ihparts ih => rw [ihparts, ih]

theorem eq_of_leaves (h : Alike Gap trees trees') (hleaves : AllLeaves trees) : trees = trees' := by
  induction h with
  | nil => rfl
  | leaf _ ih => rw [ih fun tree hmem => hleaves tree (List.mem_cons_of_mem _ hmem)]
  | gap _ _ _ | node _ _ _ _ =>
    obtain ⟨text, htext⟩ := hleaves _ List.mem_cons_self
    cases htext

end Alike

/-- Both fail, or both match alike and leave related texts. -/
inductive Agree (Gap Rest : List Char → List Char → Prop) : Outcome ρ → Outcome ρ → Prop
  | matched {trees trees' : List (Tree ρ)} {rest rest' : List Char}
      (htrees : Alike Gap trees trees') (hrest : Rest rest rest') :
      Agree Gap Rest (.matched trees rest) (.matched trees' rest')
  | failed : Agree Gap Rest .failed .failed
  | exhausted : Agree Gap Rest .exhausted .exhausted

namespace Grammar

variable (g : Grammar ρ) {Gap Rest Middle : List Char → List Char → Prop} {p q : Pattern ρ}
  {s s' : List Char}

theorem agree_text {chars : List Char} (fuel : Nat)
    (h : ∀ tail, s = chars ++ tail → ∃ tail', s' = chars ++ tail' ∧ Rest tail tail')
    (h' : ∀ tail', s' = chars ++ tail' → ∃ tail, s = chars ++ tail) :
    Agree Gap Rest (g.run fuel (.text chars) s) (g.run fuel (.text chars) s') := by
  cases fuel with
  | zero => exact .exhausted
  | succ fuel =>
    rw [run, run]
    by_cases hpre : chars <+: s
    · obtain ⟨tail, rfl⟩ := hpre
      obtain ⟨tail', rfl, hrest⟩ := h tail rfl
      simp only [List.isPrefixOf_iff_prefix.2 (List.prefix_append _ _), if_true, List.drop_left]
      exact .matched (.leaf .nil) hrest
    · have hpre' : ¬chars <+: s' := by
        rintro ⟨tail', rfl⟩
        obtain ⟨tail, rfl⟩ := h' tail' rfl
        exact hpre (List.prefix_append _ _)
      rw [if_neg (by simpa using hpre), if_neg (by simpa using hpre')]
      exact .failed

theorem agree_text_append (chars t t' : List Char) (fuel : Nat) :
    Agree Gap (fun rest rest' => rest = t ∧ rest' = t') (g.run fuel (.text chars) (chars ++ t))
      (g.run fuel (.text chars) (chars ++ t')) := by
  apply agree_text
  · intro tail heq
    exact ⟨t', rfl, (List.append_cancel_left heq).symm, rfl⟩
  · intro tail' _
    exact ⟨t, rfl⟩

theorem agree_char {test : Char → Bool} (fuel : Nat)
    (h : ∀ c tail, s = c :: tail → test c = true → ∃ tail', s' = c :: tail' ∧ Rest tail tail')
    (h' : ∀ c tail', s' = c :: tail' → test c = true → ∃ tail, s = c :: tail) :
    Agree Gap Rest (g.run fuel (.char test) s) (g.run fuel (.char test) s') := by
  have hfails : ∀ n t, Stops test t → g.run (n + 1) (.char test) t = .failed := by
    intro n t ht
    cases t with
    | nil => rfl
    | cons c t => simp [run, ht c t rfl]
  cases fuel with
  | zero => exact .exhausted
  | succ fuel =>
    by_cases hstarts : ∃ c tail, s = c :: tail ∧ test c = true
    · obtain ⟨c, tail, rfl, hc⟩ := hstarts
      obtain ⟨tail', rfl, hrest⟩ := h c tail rfl hc
      rw [run, run, if_pos hc, if_pos hc]
      exact .matched (.leaf .nil) hrest
    · have hstop : Stops test s := by
        intro c tail heq
        exact Bool.eq_false_iff.2 fun hc => hstarts ⟨c, tail, heq, hc⟩
      have hstop' : Stops test s' := by
        intro c tail' heq
        rw [Bool.eq_false_iff]
        intro hc
        obtain ⟨tail, hs⟩ := h' c tail' heq hc
        exact hstarts ⟨c, tail, hs, hc⟩
      rw [hfails fuel s hstop, hfails fuel s' hstop']
      exact .failed

/-- A sequence agrees if its first part does and the second one on what that leaves. -/
theorem agree_layout {text text' rest rest' : List Char} (fuel : Nat)
    (hlength : g.layoutLength (text ++ rest) = text.length)
    (hlength' : g.layoutLength (text' ++ rest') = text'.length)
    (hgap : Alike Gap (gapOf text : List (Tree ρ)) (gapOf text')) (hrest : Rest rest rest') :
    Agree Gap Rest (g.run fuel .layout (text ++ rest)) (g.run fuel .layout (text' ++ rest')) := by
  cases fuel with
  | zero => exact .exhausted
  | succ fuel =>
    rw [run, run, hlength, hlength', List.take_left, List.drop_left, List.take_left, List.drop_left]
    exact .matched hgap hrest

theorem agree_finish (fuel : Nat) (h : s = [] ↔ s' = []) (hrest : Rest s s') :
    Agree Gap Rest (g.run fuel .finish s) (g.run fuel .finish s') := by
  cases fuel with
  | zero => exact .exhausted
  | succ fuel =>
    rw [run, run]
    by_cases hnil : s = []
    · rw [if_pos (List.isEmpty_iff.2 hnil), if_pos (List.isEmpty_iff.2 (h.1 hnil))]
      obtain rfl := h.1 hnil
      subst hnil
      exact .matched .nil hrest
    · rw [if_neg (mt List.isEmpty_iff.1 hnil), if_neg (mt List.isEmpty_iff.1 (mt h.2 hnil))]
      exact .failed

theorem agree_seq {fuel : Nat} (hp : Agree Gap Middle (g.run fuel p s) (g.run fuel p s'))
    (hq : ∀ t t', Middle t t' → Agree Gap Rest (g.run fuel q t) (g.run fuel q t')) :
    Agree Gap Rest (g.run (fuel + 1) (.seq p q) s) (g.run (fuel + 1) (.seq p q) s') := by
  rw [run, run]
  generalize g.run fuel p s = o at hp
  generalize g.run fuel p s' = o' at hp
  cases hp with
  | failed => exact .failed
  | exhausted => exact .exhausted
  | @matched front front' t t' hfront hmiddle =>
    have hback := hq t t' hmiddle
    dsimp only
    generalize g.run fuel q t = o at hback
    generalize g.run fuel q t' = o' at hback
    cases hback with
    | failed => exact .failed
    | exhausted => exact .exhausted
    | matched htrees hrest => exact .matched (hfront.append htrees) hrest

theorem agree_alt {fuel : Nat} (hp : Agree Gap Rest (g.run fuel p s) (g.run fuel p s'))
    (hq : Agree Gap Rest (g.run fuel q s) (g.run fuel q s')) :
    Agree Gap Rest (g.run (fuel + 1) (.alt p q) s) (g.run (fuel + 1) (.alt p q) s') := by
  rw [run, run]
  generalize g.run fuel p s = o at hp
  generalize g.run fuel p s' = o' at hp
  cases hp with
  | failed => exact hq
  | exhausted => exact .exhausted
  | matched htrees hrest => exact .matched htrees hrest

/-- A repetition agrees if each round does, and where it stops. -/
theorem agree_star {fuel : Nat} (hp : Agree Gap Middle (g.run fuel p s) (g.run fuel p s'))
    (hmore : ∀ t t', Middle t t' → Agree Gap Rest (g.run fuel (.star p) t) (g.run fuel (.star p) t'))
    (hstop : g.run fuel p s = .failed → Rest s s') :
    Agree Gap Rest (g.run (fuel + 1) (.star p) s) (g.run (fuel + 1) (.star p) s') := by
  rw [run, run]
  generalize g.run fuel p s = o at hp hstop
  generalize g.run fuel p s' = o' at hp
  cases hp with
  | failed => exact .matched .nil (hstop rfl)
  | exhausted => exact .exhausted
  | @matched front front' t t' hfront hmiddle =>
    have hback := hmore t t' hmiddle
    dsimp only
    generalize g.run fuel (.star p) t = o at hback
    generalize g.run fuel (.star p) t' = o' at hback
    cases hback with
    | failed => exact .failed
    | exhausted => exact .exhausted
    | matched htrees hrest => exact .matched (hfront.append htrees) hrest

theorem agree_opt {fuel : Nat} (hp : Agree Gap Rest (g.run fuel p s) (g.run fuel p s'))
    (hnone : Rest s s') :
    Agree Gap Rest (g.run (fuel + 1) (.opt p) s) (g.run (fuel + 1) (.opt p) s') := by
  rw [run, run]
  generalize g.run fuel p s = o at hp
  generalize g.run fuel p s' = o' at hp
  cases hp with
  | failed => exact .matched .nil hnone
  | exhausted => exact .exhausted
  | matched htrees hrest => exact .matched htrees hrest

theorem agree_absent {fuel : Nat} (hp : Agree Gap Middle (g.run fuel p s) (g.run fuel p s'))
    (hnone : Rest s s') :
    Agree Gap Rest (g.run (fuel + 1) (.absent p) s) (g.run (fuel + 1) (.absent p) s') := by
  rw [run, run]
  generalize g.run fuel p s = o at hp
  generalize g.run fuel p s' = o' at hp
  cases hp with
  | failed => exact .matched .nil hnone
  | exhausted => exact .exhausted
  | matched htrees hrest => exact .failed

theorem agree_rule {fuel : Nat} {r : ρ}
    (hr : Agree Gap Rest (g.run fuel (g.pattern r) s) (g.run fuel (g.pattern r) s')) :
    Agree Gap Rest (g.run (fuel + 1) (.rule r) s) (g.run (fuel + 1) (.rule r) s') := by
  rw [run, run]
  generalize g.run fuel (g.pattern r) s = o at hr
  generalize g.run fuel (g.pattern r) s' = o' at hr
  cases hr with
  | failed => exact .failed
  | exhausted => exact .exhausted
  | matched htrees hrest =>
    apply Agree.matched _ hrest
    unfold wrap
    split
    · exact htrees
    · exact .node htrees .nil

end Grammar

/-- The pattern skips no layout and enters no rule. -/
def Pattern.isFlat : Pattern ρ → Bool
  | .text _ | .char _ | .finish => true
  | .layout | .rule _ => false
  | .seq first second | .alt first second => first.isFlat && second.isFlat
  | .star body | .opt body | .absent body => body.isFlat

theorem Grammar.Gives.allLeaves {g : Grammar ρ} {p : Pattern ρ} {s rest : List Char}
    {trees : List (Tree ρ)} (h : g.Gives p s (.matched trees rest)) (hflat : p.isFlat = true) :
    AllLeaves trees := by
  induction h using Gives.match_induction with
  | layout | rule => cases hflat
  | text | char | finish | stop | missing | absent => simp [AllLeaves]
  | seq _ _ _ _ _ _ _ _ _ ihFront ihBack =>
    obtain ⟨hfirst, hsecond⟩ := Bool.and_eq_true_iff.1 hflat
    exact List.forall_mem_append.2 ⟨ihFront hfirst, ihBack hsecond⟩
  | again _ _ _ _ _ _ _ _ ihFront ihBack =>
    exact List.forall_mem_append.2 ⟨ihFront hflat, ihBack hflat⟩
  | first _ _ _ _ _ _ ih => exact ih (Bool.and_eq_true_iff.1 hflat).1
  | second _ _ _ _ _ _ _ ih => exact ih (Bool.and_eq_true_iff.1 hflat).2
  | present _ _ _ _ _ ih => exact ih hflat

end BlockScript.Peg
