import BlockScript.Peg.Match

/-!
# Derivations

`Gives` says without fuel what becomes of a pattern at the beginning of a text: a match is put
together from the matches of parts, and a failure from failures.  A run that ends has a derivation,
and with enough fuel a derivation is a run, so that nothing but these two statements looks into
`run`.  No match loses text.
-/

namespace BlockScript.Peg

variable {ρ : Type}

/-- The text does not begin with a character of the class. -/
def Stops (test : Char → Bool) (s : List Char) : Prop :=
  ∀ c tail, s = c :: tail → test c = false

@[simp] theorem stops_nil (test : Char → Bool) : Stops test [] := by
  simp [Stops]

@[simp] theorem stops_cons {test : Char → Bool} {c : Char} {tail : List Char} :
    Stops test (c :: tail) ↔ test c = false := by
  simp [Stops]

namespace Grammar

/-- The pattern has this outcome at the beginning of the text. -/
inductive Gives (g : Grammar ρ) : Pattern ρ → List Char → Outcome ρ → Prop
  | text {chars rest : List Char} :
      Gives g (.text chars) (chars ++ rest) (.matched [.leaf chars] rest)
  | textFails {chars s : List Char} (h : ¬ chars <+: s) : Gives g (.text chars) s .failed
  | char {test : Char → Bool} {c : Char} {rest : List Char} (hc : test c = true) :
      Gives g (.char test) (c :: rest) (.matched [.leaf [c]] rest)
  | charFails {test : Char → Bool} {s : List Char} (hs : Stops test s) :
      Gives g (.char test) s .failed
  | layout {s : List Char} :
      Gives g .layout s (.matched (gapOf (s.take (g.layoutLength s))) (s.drop (g.layoutLength s)))
  | finish : Gives g .finish [] (.matched [] [])
  | finishFails {c : Char} {s : List Char} : Gives g .finish (c :: s) .failed
  | seq {p q : Pattern ρ} {s s' rest : List Char} {front back : List (Tree ρ)}
      (hp : Gives g p s (.matched front s')) (hq : Gives g q s' (.matched back rest)) :
      Gives g (.seq p q) s (.matched (front ++ back) rest)
  | firstFails {p q : Pattern ρ} {s : List Char} (hp : Gives g p s .failed) :
      Gives g (.seq p q) s .failed
  | secondFails {p q : Pattern ρ} {s s' : List Char} {front : List (Tree ρ)}
      (hp : Gives g p s (.matched front s')) (hq : Gives g q s' .failed) :
      Gives g (.seq p q) s .failed
  | first {p q : Pattern ρ} {s rest : List Char} {trees : List (Tree ρ)}
      (hp : Gives g p s (.matched trees rest)) : Gives g (.alt p q) s (.matched trees rest)
  | second {p q : Pattern ρ} {s : List Char} {o : Outcome ρ} (hp : Gives g p s .failed)
      (hq : Gives g q s o) : Gives g (.alt p q) s o
  | stop {p : Pattern ρ} {s : List Char} (hp : Gives g p s .failed) :
      Gives g (.star p) s (.matched [] s)
  | again {p : Pattern ρ} {s s' rest : List Char} {front back : List (Tree ρ)}
      (hp : Gives g p s (.matched front s')) (hmore : Gives g (.star p) s' (.matched back rest)) :
      Gives g (.star p) s (.matched (front ++ back) rest)
  | present {p : Pattern ρ} {s rest : List Char} {trees : List (Tree ρ)}
      (hp : Gives g p s (.matched trees rest)) : Gives g (.opt p) s (.matched trees rest)
  | missing {p : Pattern ρ} {s : List Char} (hp : Gives g p s .failed) :
      Gives g (.opt p) s (.matched [] s)
  | absent {p : Pattern ρ} {s : List Char} (hp : Gives g p s .failed) :
      Gives g (.absent p) s (.matched [] s)
  | absentFails {p : Pattern ρ} {s rest : List Char} {trees : List (Tree ρ)}
      (hp : Gives g p s (.matched trees rest)) : Gives g (.absent p) s .failed
  | rule {r : ρ} {s rest : List Char} {trees : List (Tree ρ)}
      (hr : Gives g (g.pattern r) s (.matched trees rest)) :
      Gives g (.rule r) s (.matched (g.wrap r trees) rest)
  | ruleFails {r : ρ} {s : List Char} (hr : Gives g (g.pattern r) s .failed) :
      Gives g (.rule r) s .failed

variable {g : Grammar ρ} {p : Pattern ρ} {s rest : List Char} {trees : List (Tree ρ)}
  {o o' : Outcome ρ} {fuel : Nat}

/-! ## Runs and derivations -/

/-- A run that ends has a derivation. -/
theorem gives_of_run (h : g.run fuel p s = o) (ho : o ≠ .exhausted) : g.Gives p s o := by
  subst h
  induction fuel generalizing p s with
  | zero => exact absurd rfl ho
  | succ fuel ih =>
    -- the outcome of a part that is not exhausted is derived; an exhausted part exhausts the whole
    have hpart : ∀ {p s o}, g.run fuel p s = o → o ≠ .exhausted → g.Gives p s o := by
      rintro p s _ rfl ho
      exact ih ho
    cases p with
    | text chars =>
      rw [run]
      split
      · rename_i hpre
        obtain ⟨rest, rfl⟩ := List.isPrefixOf_iff_prefix.1 hpre
        rw [List.drop_left]
        exact .text
      · rename_i hpre
        exact .textFails (by simpa using hpre)
    | char test =>
      cases s with
      | nil => exact .charFails (stops_nil test)
      | cons c rest =>
        rw [run]
        split
        · rename_i hc
          exact .char hc
        · rename_i hc
          exact .charFails (by simpa using hc)
    | layout => exact .layout
    | finish =>
      cases s with
      | nil => exact .finish
      | cons c s => exact .finishFails
    | seq first second =>
      rw [run] at ho ⊢
      cases hfirst : g.run fuel first s with
      | exhausted => simp [hfirst] at ho
      | failed => exact .firstFails (hpart hfirst (by simp))
      | matched front s' =>
        rw [hfirst] at ho
        dsimp only at ho ⊢
        cases hsecond : g.run fuel second s' with
        | exhausted => simp [hsecond] at ho
        | failed => exact .secondFails (hpart hfirst (by simp)) (hpart hsecond (by simp))
        | matched back rest => exact .seq (hpart hfirst (by simp)) (hpart hsecond (by simp))
    | alt first second =>
      rw [run] at ho ⊢
      cases hfirst : g.run fuel first s with
      | exhausted => simp [hfirst] at ho
      | failed =>
        rw [hfirst] at ho
        exact .second (hpart hfirst (by simp)) (ih ho)
      | matched trees rest => exact .first (hpart hfirst (by simp))
    | star body =>
      rw [run] at ho ⊢
      cases hbody : g.run fuel body s with
      | exhausted => simp [hbody] at ho
      | failed => exact .stop (hpart hbody (by simp))
      | matched front s' =>
        rw [hbody] at ho
        dsimp only at ho ⊢
        cases hmore : g.run fuel (.star body) s' with
        | exhausted => simp [hmore] at ho
        | failed => cases hpart hmore (by simp)
        | matched back rest => exact .again (hpart hbody (by simp)) (hpart hmore (by simp))
    | opt body =>
      rw [run] at ho ⊢
      cases hbody : g.run fuel body s with
      | exhausted => simp [hbody] at ho
      | failed => exact .missing (hpart hbody (by simp))
      | matched trees rest => exact .present (hpart hbody (by simp))
    | absent body =>
      rw [run] at ho ⊢
      cases hbody : g.run fuel body s with
      | exhausted => simp [hbody] at ho
      | failed => exact .absent (hpart hbody (by simp))
      | matched trees rest => exact .absentFails (hpart hbody (by simp))
    | rule r =>
      rw [run] at ho ⊢
      cases hbody : g.run fuel (g.pattern r) s with
      | exhausted => simp [hbody] at ho
      | failed => exact .ruleFails (hpart hbody (by simp))
      | matched trees rest => exact .rule (hpart hbody (by simp))

/-- Runs are exhausted up to some amount of fuel, and end as derived with more. -/
theorem Gives.exists_fuel (h : g.Gives p s o) :
    ∃ enough, ∀ fuel, g.run fuel p s = if fuel ≤ enough then .exhausted else o := by
  induction h with
  | text | textFails h | char hc | layout | finish | finishFails =>
    refine ⟨0, fun fuel => ?_⟩
    cases fuel with
    | zero => rfl
    | succ fuel => simp [run, *]
  | @charFails test s hs =>
    refine ⟨0, fun fuel => ?_⟩
    cases fuel with
    | zero => rfl
    | succ fuel =>
      cases s with
      | nil => rfl
      | cons c rest => simp [run, stops_cons.1 hs]
  | firstFails _ ih | first _ ih | stop _ ih | present _ ih | missing _ ih | absent _ ih
  | absentFails _ ih | rule _ ih | ruleFails _ ih =>
    obtain ⟨enough, hrun⟩ := ih
    refine ⟨enough + 1, fun fuel => ?_⟩
    cases fuel with
    | zero => rfl
    | succ fuel =>
      simp only [run, hrun, Nat.add_le_add_iff_right]
      by_cases hfuel : fuel ≤ enough <;> simp only [hfuel, if_true, if_false]
  | seq _ _ ihp ihq | secondFails _ _ ihp ihq | second _ _ ihp ihq | again _ _ ihp ihq =>
    obtain ⟨enough, hrun⟩ := ihp
    obtain ⟨enough', hrun'⟩ := ihq
    refine ⟨max enough enough' + 1, fun fuel => ?_⟩
    cases fuel with
    | zero => rfl
    | succ fuel =>
      simp only [run, hrun, Nat.add_le_add_iff_right]
      have hmax : fuel ≤ max enough enough' ↔ fuel ≤ enough ∨ fuel ≤ enough' := by omega
      by_cases hfuel : fuel ≤ enough
      · simp only [hmax, hfuel, true_or, if_true]
      · by_cases hfuel' : fuel ≤ enough' <;>
          simp only [hmax, hfuel, hfuel', or_false, or_true, if_true, if_false, hrun']

/-- More fuel does not change an outcome. -/
theorem run_mono (g : Grammar ρ) {more : Nat} (h : g.run fuel p s ≠ .exhausted)
    (hle : fuel ≤ more) : g.run more p s = g.run fuel p s := by
  obtain ⟨enough, hrun⟩ := (gives_of_run rfl h).exists_fuel
  have hfuel : ¬ fuel ≤ enough := by
    intro hfuel
    exact h (by rw [hrun, if_pos hfuel])
  rw [hrun more, if_neg (by omega)]

theorem Gives.unique (h : g.Gives p s o) (h' : g.Gives p s o') : o = o' := by
  obtain ⟨enough, hrun⟩ := h.exists_fuel
  obtain ⟨enough', hrun'⟩ := h'.exists_fuel
  have heq := hrun (max enough enough' + 1)
  rw [hrun', if_neg (by omega), if_neg (by omega)] at heq
  exact heq.symm

/-- A run is exhausted or ends as derived. -/
theorem Gives.run_cases (h : g.Gives p s o) (fuel : Nat) :
    g.run fuel p s = .exhausted ∨ g.run fuel p s = o := by
  obtain ⟨enough, hrun⟩ := h.exists_fuel
  rw [hrun]
  split
  · exact .inl rfl
  · exact .inr rfl

/-! ## Matches -/

/-- A match is put together from the matches of the parts of its pattern. -/
theorem Gives.match_induction
    {motive : ∀ p s trees rest, g.Gives p s (.matched trees rest) → Prop}
    (text : ∀ chars rest, motive (.text chars) (chars ++ rest) [.leaf chars] rest .text)
    (char : ∀ test c rest (hc : test c = true),
      motive (.char test) (c :: rest) [.leaf [c]] rest (.char hc))
    (layout : ∀ s, motive .layout s (gapOf (s.take (g.layoutLength s)))
      (s.drop (g.layoutLength s)) .layout)
    (finish : motive .finish [] [] [] .finish)
    (seq : ∀ p q s s' rest front back (hp : g.Gives p s (.matched front s'))
      (hq : g.Gives q s' (.matched back rest)), motive _ _ _ _ hp → motive _ _ _ _ hq →
        motive (.seq p q) s (front ++ back) rest (.seq hp hq))
    (first : ∀ p q s rest trees (hp : g.Gives p s (.matched trees rest)), motive _ _ _ _ hp →
      motive (.alt p q) s trees rest (.first hp))
    (second : ∀ p q s rest trees (hp : g.Gives p s .failed)
      (hq : g.Gives q s (.matched trees rest)), motive _ _ _ _ hq →
        motive (.alt p q) s trees rest (.second hp hq))
    (stop : ∀ p s (hp : g.Gives p s .failed), motive (.star p) s [] s (.stop hp))
    (again : ∀ p s s' rest front back (hp : g.Gives p s (.matched front s'))
      (hmore : g.Gives (.star p) s' (.matched back rest)), motive _ _ _ _ hp →
        motive _ _ _ _ hmore → motive (.star p) s (front ++ back) rest (.again hp hmore))
    (present : ∀ p s rest trees (hp : g.Gives p s (.matched trees rest)), motive _ _ _ _ hp →
      motive (.opt p) s trees rest (.present hp))
    (missing : ∀ p s (hp : g.Gives p s .failed), motive (.opt p) s [] s (.missing hp))
    (absent : ∀ p s (hp : g.Gives p s .failed), motive (.absent p) s [] s (.absent hp))
    (rule : ∀ r s rest trees (hr : g.Gives (g.pattern r) s (.matched trees rest)),
      motive _ _ _ _ hr → motive (.rule r) s (g.wrap r trees) rest (.rule hr))
    {p : Pattern ρ} {s : List Char} {trees : List (Tree ρ)} {rest : List Char}
    (h : g.Gives p s (.matched trees rest)) : motive p s trees rest h := by
  suffices hall : ∀ {p s o}, g.Gives p s o → ∀ {trees rest}, o = .matched trees rest →
      ∀ h : g.Gives p s (.matched trees rest), motive p s trees rest h from hall h rfl h
  intro p s o hgives
  induction hgives with
  | text =>
    rintro _ _ ⟨⟩ _
    exact text _ _
  | char hc =>
    rintro _ _ ⟨⟩ _
    exact char _ _ _ hc
  | layout =>
    rintro _ _ ⟨⟩ _
    exact layout _
  | finish =>
    rintro _ _ ⟨⟩ _
    exact finish
  | seq hp hq ihp ihq =>
    rintro _ _ ⟨⟩ _
    exact seq _ _ _ _ _ _ _ hp hq (ihp rfl hp) (ihq rfl hq)
  | first hp ih =>
    rintro _ _ ⟨⟩ _
    exact first _ _ _ _ _ hp (ih rfl hp)
  | second hp hq _ ihq =>
    rintro _ _ rfl _
    exact second _ _ _ _ _ hp hq (ihq rfl hq)
  | stop hp =>
    rintro _ _ ⟨⟩ _
    exact stop _ _ hp
  | again hp hmore ihp ihmore =>
    rintro _ _ ⟨⟩ _
    exact again _ _ _ _ _ _ hp hmore (ihp rfl hp) (ihmore rfl hmore)
  | present hp ih =>
    rintro _ _ ⟨⟩ _
    exact present _ _ _ _ hp (ih rfl hp)
  | missing hp =>
    rintro _ _ ⟨⟩ _
    exact missing _ _ hp
  | absent hp =>
    rintro _ _ ⟨⟩ _
    exact absent _ _ hp
  | rule hr ih =>
    rintro _ _ ⟨⟩ _
    exact rule _ _ _ _ hr (ih rfl hr)
  | textFails | charFails | finishFails | firstFails | secondFails | absentFails | ruleFails =>
    rintro _ _ ⟨⟩

theorem Gives.textOf (h : g.Gives p s (.matched trees rest)) : Tree.textOf trees ++ rest = s := by
  induction h using Gives.match_induction with
  | text | char => simp [Tree.textOf, Tree.text]
  | layout => rw [textOf_gapOf, List.take_append_drop]
  | finish | stop | missing | absent => simp [Tree.textOf]
  | seq _ _ _ _ _ _ _ _ _ ihFront ihBack | again _ _ _ _ _ _ _ _ ihFront ihBack =>
    rw [Tree.textOf_append, List.append_assoc, ihBack, ihFront]
  | first _ _ _ _ _ _ ih | second _ _ _ _ _ _ _ ih | present _ _ _ _ _ ih => exact ih
  | rule _ _ _ _ _ ih => rw [textOf_wrap, ih]

/-- The consumed text and the rest make up the whole. -/
theorem textOf_run (g : Grammar ρ) (fuel : Nat) (p : Pattern ρ) (s : List Char)
    (h : g.run fuel p s = .matched trees rest) : Tree.textOf trees ++ rest = s :=
  (gives_of_run h (by simp)).textOf

end Grammar

end BlockScript.Peg
