import BlockScript.Proofs.Grammar.Brackets

/-!
# Texts that are matched alike

Two texts are parallel if they consist of the same characters and strings and have layout at the same
places.  Whatever a pattern of the grammar does on one of them, it does on the other.

Behind a semicolon outside of all brackets two texts may also differ in every way.  No rule below a
list of statements passes such a semicolon: it is within the brackets that the rule has opened, or
the rule stops before it.  That is why `Parallel` counts the brackets that are still open.
-/

namespace BlockScript.Grammar

open Peg (Pattern Stops Alike Agree)
open Peg.Grammar
open Peg.Tree (textOf textOf_append)

/-- A character that is a token or a part of one, and of no string. -/
def isSolid (c : Char) : Bool :=
  !(isBlank c || c = '#' || c = '"')

/-- The number of open brackets after a character.  At a `hard` border no semicolon is passed outside
of brackets. -/
def depthAfter (hard : Bool) (depth : Nat) (c : Char) : Option Nat :=
  if c = '(' || c = '\x7b' then some (depth + 1)
  else if c = ')' || c = '\x7d' then (if depth = 0 then none else some (depth - 1))
  else if c = ';' && hard && depth = 0 then none
  else some depth

/-- Texts with the same tokens and related layout, behind the given number of open brackets. -/
inductive Parallel (Gap : List Char → List Char → Prop) (hard : Bool) :
    Nat → List Char → List Char → Prop
  | nil : Parallel Gap hard 0 [] []
  | cut {s s' : List Char} (hhard : hard = true) : Parallel Gap hard 0 (';' :: s) (';' :: s')
  | solid {depth depth' : Nat} {c : Char} {s s' : List Char} (hsolid : isSolid c = true)
      (hdepth : depthAfter hard depth c = some depth') (htail : Parallel Gap hard depth' s s') :
      Parallel Gap hard depth (c :: s) (c :: s')
  | gap {depth : Nat} {text text' s s' : List Char} (hgap : Gap text text') (hne : text ≠ [])
      (hne' : text' ≠ []) (hskip : rules.skip (text ++ s) = s)
      (hskip' : rules.skip (text' ++ s') = s') (htail : Parallel Gap hard depth s s') :
      Parallel Gap hard depth (text ++ s) (text' ++ s')
  | string {depth : Nat} {w s s' : List Char} (hstring : IsString w) (hstop : Stops startsQuote s)
      (hstop' : Stops startsQuote s') (htail : Parallel Gap hard depth s s') :
      Parallel Gap hard depth (w ++ s) (w ++ s')

theorem layoutLength_of_isSolid {c : Char} (h : isSolid c = true) (s : List Char) :
    layoutLength (c :: s) = 0 := by
  simp only [isSolid, Bool.not_eq_true', Bool.or_eq_false_iff, decide_eq_false_iff_not] at h
  simp [layoutLength, h]

theorem isSolid_of_skip {c : Char} {text s : List Char}
    (h : rules.skip (c :: text ++ s) = s) : isSolid c = false ∧ c ≠ '"' := by
  have hlength := skip_append_eq_iff.1 h
  constructor
  · rw [Bool.eq_false_iff]
    intro hsolid
    rw [List.cons_append, layoutLength_of_isSolid hsolid] at hlength
    cases hlength
  · intro hquote
    subst hquote
    cases hlength

theorem layoutLength_of_skip {text s : List Char} (h : rules.skip (text ++ s) = s) :
    layoutLength s = 0 := by
  have hlength := layoutLength_drop (text ++ s)
  rwa [skip_append_eq_iff.1 h, List.drop_left] at hlength

namespace Parallel

variable {Gap : List Char → List Char → Prop} {hard : Bool} {depth depth' : Nat} {c : Char}
  {s s' t : List Char}

theorem symm (h : Parallel Gap hard depth s s') :
    Parallel (fun text text' => Gap text' text) hard depth s' s := by
  induction h with
  | nil => exact .nil
  | cut hhard => exact .cut hhard
  | solid hsolid hdepth _ ih => exact .solid hsolid hdepth ih
  | gap hgap hne hne' hskip hskip' _ ih => exact .gap hgap hne' hne hskip' hskip ih
  | string hstring hstop hstop' _ ih => exact .string hstring hstop' hstop ih

theorem eq_nil (h : Parallel Gap hard depth s s') (hs : s = []) : s' = [] := by
  cases h with
  | nil => rfl
  | cut hhard => cases hs
  | solid hsolid hdepth htail => cases hs
  | gap hgap hne hne' hskip hskip' htail => exact absurd (List.append_eq_nil_iff.1 hs).1 hne
  | string hstring hstop hstop' htail =>
    obtain ⟨q, -, rfl⟩ := hstring
    cases hs

/-- A solid character is followed by parallel texts, unless it is the border itself. -/
theorem of_cons (h : Parallel Gap hard depth (c :: s) t) (hc : isSolid c = true) :
    depthAfter hard depth c = none ∨
      ∃ depth' s', depthAfter hard depth c = some depth' ∧ t = c :: s' ∧
        Parallel Gap hard depth' s s' := by
  generalize htext : c :: s = text at h
  cases h with
  | nil => cases htext
  | cut hhard =>
    cases htext
    exact .inl (by simp [depthAfter, hhard])
  | solid hsolid hdepth htail =>
    cases htext
    exact .inr ⟨_, _, hdepth, rfl, htail⟩
  | @gap _ text text' _ _ hgap hne hne' hskip hskip' htail =>
    cases text with
    | nil => exact absurd rfl hne
    | cons d text =>
      cases htext
      rw [(isSolid_of_skip hskip).1] at hc
      cases hc
  | string hstring hstop hstop' htail =>
    obtain ⟨q, -, rfl⟩ := hstring
    cases htext
    cases hc

theorem of_append {chars : List Char} (h : Parallel Gap hard depth (chars ++ s) t)
    (hsolid : ∀ c ∈ chars, isSolid c = true)
    (hdepth : chars.foldlM (depthAfter hard) depth = some depth') :
    ∃ s', t = chars ++ s' ∧ Parallel Gap hard depth' s s' := by
  induction chars generalizing depth t with
  | nil =>
    cases hdepth
    exact ⟨t, rfl, h⟩
  | cons c chars ih =>
    obtain ⟨hc, hchars⟩ := List.forall_mem_cons.1 hsolid
    rw [List.foldlM_cons] at hdepth
    rcases of_cons h hc with hnone | ⟨depth₁, s₁, hsome, rfl, htail⟩
    · rw [hnone] at hdepth
      cases hdepth
    · rw [hsome] at hdepth
      obtain ⟨s', rfl, hparallel⟩ := ih htail hchars hdepth
      exact ⟨s', rfl, hparallel⟩

/-- Where one text has no layout, both are at their end or go on with the same character. -/
theorem head (h : Parallel Gap hard depth s s') (hs : layoutLength s = 0) :
    s = [] ∧ s' = [] ∨ ∃ c tail tail', s = c :: tail ∧ s' = c :: tail' ∧ layoutLength s' = 0 := by
  cases h with
  | nil => exact .inl ⟨rfl, rfl⟩
  | cut hhard => exact .inr ⟨_, _, _, rfl, rfl, rfl⟩
  | solid hsolid hdepth htail =>
    exact .inr ⟨_, _, _, rfl, rfl, layoutLength_of_isSolid hsolid _⟩
  | gap hgap hne hne' hskip hskip' htail =>
    rw [skip_append_eq_iff.1 hskip] at hs
    exact absurd (List.eq_nil_of_length_eq_zero hs) hne
  | string hstring hstop hstop' htail =>
    obtain ⟨q, -, rfl⟩ := hstring
    exact .inr ⟨_, _, _, rfl, rfl, rfl⟩

/-- Both texts begin with the same string, or none of them with a quote. -/
theorem quote_cases (h : Parallel Gap hard depth s s') :
    Stops startsQuote s ∧ Stops startsQuote s' ∨
      ∃ q t t', s = '"' :: (q ++ '"' :: t) ∧ s' = '"' :: (q ++ '"' :: t') ∧ IsQuotable q ∧
        Stops startsQuote t ∧ Stops startsQuote t' ∧ Parallel Gap hard depth t t' := by
  cases h with
  | nil => exact .inl ⟨Peg.stops_nil _, Peg.stops_nil _⟩
  | cut hhard => exact .inl ⟨Peg.stops_cons.2 rfl, Peg.stops_cons.2 rfl⟩
  | @solid _ _ c _ _ hsolid hdepth htail =>
    have hc : startsQuote c = false := by
      simp only [isSolid, Bool.not_eq_true', Bool.or_eq_false_iff] at hsolid
      exact hsolid.2
    exact .inl ⟨Peg.stops_cons.2 hc, Peg.stops_cons.2 hc⟩
  | @gap _ text text' _ _ hgap hne hne' hskip hskip' htail =>
    have hstop : ∀ text t : List Char, text ≠ [] → rules.skip (text ++ t) = t →
        Stops startsQuote (text ++ t) := by
      intro text t hne hskip
      cases text with
      | nil => exact absurd rfl hne
      | cons c text =>
        exact Peg.stops_cons.2 (by simpa [startsQuote] using (isSolid_of_skip hskip).2)
    exact .inl ⟨hstop _ _ hne hskip, hstop _ _ hne' hskip'⟩
  | string hstring hstop hstop' htail =>
    obtain ⟨q, hq, rfl⟩ := hstring
    exact .inr ⟨q, _, _, by simp, by simp, hq, hstop, hstop', htail⟩

theorem stops_quote (h : Parallel Gap hard depth s s') (hs : Stops startsQuote s) :
    Stops startsQuote s' := by
  rcases h.quote_cases with ⟨-, hs'⟩ | ⟨q, t, t', rfl, -⟩
  · exact hs'
  · exact absurd (Peg.stops_cons.1 hs) (by decide)

theorem layout (h : Parallel Gap hard depth s s') :
    ∃ text text' rest rest', s = text ++ rest ∧ s' = text' ++ rest' ∧
      layoutLength s = text.length ∧ layoutLength s' = text'.length ∧
      Alike Gap (Peg.gapOf text : List (Peg.Tree Rule)) (Peg.gapOf text') ∧
      Parallel Gap hard depth rest rest' := by
  by_cases hnone : layoutLength s = 0
  · have hnone' : layoutLength s' = 0 := by
      rcases h.head hnone with ⟨-, rfl⟩ | ⟨c, tail, tail', -, -, hs'⟩
      · rfl
      · exact hs'
    exact ⟨[], [], s, s', rfl, rfl, hnone, hnone', .nil, h⟩
  · cases h with
    | nil => exact absurd rfl hnone
    | cut hhard => exact absurd rfl hnone
    | solid hsolid hdepth htail => exact absurd (layoutLength_of_isSolid hsolid _) hnone
    | @gap _ text text' _ _ hgap hne hne' hskip hskip' htail =>
      refine ⟨text, text', _, _, rfl, rfl, skip_append_eq_iff.1 hskip, skip_append_eq_iff.1 hskip',
        ?_, htail⟩
      simp only [Peg.gapOf, List.isEmpty_iff, hne, hne', if_false]
      exact .gap hgap .nil
    | string hstring hstop hstop' htail =>
      obtain ⟨q, -, rfl⟩ := hstring
      exact absurd rfl hnone

end Parallel

/-! ## Strings -/

/-- One character of a string, or two quotes for one. -/
def stringPart : Pattern Rule :=
  .alt (.text ['"', '"']) (.char isPlain)

theorem run_stringPart_plain {c : Char} (hc : isPlain c = true) (fuel : Nat) (s : List Char) :
    rules.run (fuel + 2) stringPart (c :: s) = .matched [.leaf [c]] s := by
  have hquote : '"' ≠ c := by
    intro heq
    subst heq
    cases hc
  simp [stringPart, run, List.isPrefixOf, hc, hquote]

theorem run_stringPart_closing {s : List Char} (hs : Stops startsQuote s) (fuel : Nat) :
    rules.run (fuel + 2) stringPart ('"' :: s) = .failed := by
  cases s with
  | nil => rfl
  | cons c s =>
    have hquote : '"' ≠ c := by
      intro heq
      subst heq
      exact absurd (Peg.stops_cons.1 hs) (by decide)
    simp [stringPart, run, List.isPrefixOf, isPlain, hquote]

/-- The inside of a string is matched alike in front of texts that do not begin with a quote. -/
theorem agree_quotable {Gap : List Char → List Char → Prop} {q s s' : List Char} (hq : IsQuotable q)
    (hs : Stops startsQuote s) (hs' : Stops startsQuote s') (fuel : Nat) :
    Agree Gap (fun rest rest' => rest = '"' :: s ∧ rest' = '"' :: s')
      (rules.run fuel (.star stringPart) (q ++ '"' :: s))
      (rules.run fuel (.star stringPart) (q ++ '"' :: s')) := by
  induction hq generalizing fuel with
  | nil =>
    rcases fuel with _ | _ | _ | fuel
    · exact .exhausted
    · exact .exhausted
    · exact .exhausted
    · rw [List.nil_append, List.nil_append, run, run, run_stringPart_closing hs,
        run_stringPart_closing hs']
      exact .matched .nil ⟨rfl, rfl⟩
  | @quotes q _ ih =>
    rcases fuel with _ | _ | _ | fuel
    · exact .exhausted
    · exact .exhausted
    · exact .exhausted
    · have hpart : Agree Gap (fun t t' => t = q ++ '"' :: s ∧ t' = q ++ '"' :: s')
          (rules.run (fuel + 2) stringPart ('"' :: '"' :: q ++ '"' :: s))
          (rules.run (fuel + 2) stringPart ('"' :: '"' :: q ++ '"' :: s')) :=
        .matched (.leaf .nil) ⟨rfl, rfl⟩
      apply agree_star _ hpart
      · rintro t t' ⟨rfl, rfl⟩
        exact ih (fuel + 2)
      · intro hfailed
        cases hfailed
  | @plain c q hc _ ih =>
    rcases fuel with _ | _ | _ | fuel
    · exact .exhausted
    · exact .exhausted
    · exact .exhausted
    · have hpart : Agree Gap (fun t t' => t = q ++ '"' :: s ∧ t' = q ++ '"' :: s')
          (rules.run (fuel + 2) stringPart (c :: q ++ '"' :: s))
          (rules.run (fuel + 2) stringPart (c :: q ++ '"' :: s')) := by
        rw [List.cons_append, List.cons_append, run_stringPart_plain hc, run_stringPart_plain hc]
        exact .matched (.leaf .nil) ⟨rfl, rfl⟩
      apply agree_star _ hpart
      · rintro t t' ⟨rfl, rfl⟩
        exact ih (fuel + 2)
      · intro hfailed
        rw [List.cons_append, run_stringPart_plain hc] at hfailed
        cases hfailed

theorem agree_string {Gap : List Char → List Char → Prop} {hard : Bool} {depth : Nat}
    {s s' : List Char} (h : Parallel Gap hard depth s s') (fuel : Nat) :
    Agree Gap (Parallel Gap hard depth) (rules.run fuel (.rule .string) s)
      (rules.run fuel (.rule .string) s') := by
  rcases fuel with _ | _ | fuel
  · exact .exhausted
  · exact .exhausted
  apply agree_rule
  change Agree Gap _
    (rules.run (fuel + 1) (.seq (.text ['"']) (.seq (.star stringPart) (.text ['"']))) s)
    (rules.run (fuel + 1) (.seq (.text ['"']) (.seq (.star stringPart) (.text ['"']))) s')
  rcases h.quote_cases with ⟨hstop, hstop'⟩ | ⟨q, t, t', rfl, rfl, hq, hquote, hquote', htail⟩
  · have hnone : ∀ t tail, Stops startsQuote t → t ≠ ['"'] ++ tail := by
      intro t tail ht heq
      subst heq
      exact absurd (Peg.stops_cons.1 ht) (by decide)
    have hopen : Agree Gap (fun _ _ => False) (rules.run fuel (.text ['"']) s)
        (rules.run fuel (.text ['"']) s') := by
      apply agree_text
      · exact fun tail heq => absurd heq (hnone s tail hstop)
      · exact fun tail heq => absurd heq (hnone s' tail hstop')
    exact agree_seq _ hopen fun _ _ hfalse => hfalse.elim
  · apply agree_seq _ (agree_text_append _ ['"'] (q ++ '"' :: t) (q ++ '"' :: t') fuel)
    rintro u u' ⟨rfl, rfl⟩
    cases fuel with
    | zero => exact .exhausted
    | succ fuel =>
      apply agree_seq _ (agree_quotable hq hquote hquote' fuel)
      rintro u u' ⟨rfl, rfl⟩
      apply agree_text
      · intro tail heq
        obtain ⟨-, rfl⟩ := List.cons.inj heq
        exact ⟨t', rfl, htail⟩
      · intro tail' _
        exact ⟨t, rfl⟩

theorem isSolid_of_isInert {c : Char} (h : isInert c = true) : isSolid c = true := by
  simp only [isInert, Bool.not_eq_true', List.contains_eq_mem, decide_eq_false_iff_not, signs,
    List.mem_cons, List.not_mem_nil, or_false, not_or] at h
  simp [isSolid, isBlank, h]

theorem depthAfter_of_isInert {c : Char} (h : isInert c = true) (hard : Bool) (depth : Nat) :
    depthAfter hard depth c = some depth := by
  simp only [isInert, Bool.not_eq_true', List.contains_eq_mem, decide_eq_false_iff_not, signs,
    List.mem_cons, List.not_mem_nil, or_false, not_or] at h
  simp [depthAfter, h]

theorem bracketsOf_eq_some {r : Rule} {opening closing : Char}
    (h : bracketsOf r = some (opening, closing)) :
    opening = '\x7b' ∧ closing = '\x7d' ∨ opening = '(' ∧ closing = ')' := by
  unfold bracketsOf at h
  split at h <;> cases h <;> simp

/-! ## Nested matches -/

/-- Blanks, and comments that are ended. -/
inductive IsClosedLayout : List Char → Prop
  | nil : IsClosedLayout []
  | blank {c : Char} {rest : List Char} (hblank : isBlank c = true) (hrest : IsClosedLayout rest) :
      IsClosedLayout (c :: rest)
  | comment {body rest : List Char} {c : Char} (hbody : ∀ d ∈ body, isLineEnd d = false)
      (hend : isLineEnd c = true) (hrest : IsClosedLayout rest) :
      IsClosedLayout ('#' :: (body ++ c :: rest))

theorem commentLength_append {body s : List Char} {c : Char}
    (hbody : ∀ d ∈ body, isLineEnd d = false) (hend : isLineEnd c = true) :
    commentLength (body ++ c :: s) = body.length + (layoutLength s + 1) := by
  induction body with
  | nil => simp [commentLength, hend]
  | cons d body ih =>
    obtain ⟨hd, hbody⟩ := List.forall_mem_cons.1 hbody
    rw [List.cons_append, commentLength, if_neg (by simp [hd]), ih hbody, List.length_cons]
    omega

/-- Closed layout is skipped, and no more if no layout follows. -/
theorem IsClosedLayout.skip {text s : List Char} (h : IsClosedLayout text)
    (hs : layoutLength s = 0) : rules.skip (text ++ s) = s := by
  rw [skip_append_eq_iff]
  induction h with
  | nil => exact hs
  | blank hblank _ ih => rw [List.cons_append, layoutLength, if_pos hblank, ih, List.length_cons]
  | comment hbody hend _ ih =>
    rw [List.cons_append, List.append_assoc, List.cons_append, layoutLength, if_neg (by decide),
      if_pos rfl, commentLength_append hbody hend, ih]
    simp

mutual

theorem isClosedLayout_of_length {c : Char} {s : List Char} : ∀ {text : List Char},
    layoutLength (text ++ c :: s) = text.length → IsClosedLayout text
  | [], _ => .nil
  | d :: text, h => by
    rw [List.cons_append, layoutLength, List.length_cons] at h
    split at h
    · rename_i hblank
      exact .blank hblank (isClosedLayout_of_length (Nat.succ.inj h))
    · split at h
      · rename_i hcomment
        obtain ⟨body, e, rest, rfl, hbody, hend, hrest⟩ :=
          closedComment_of_length (Nat.succ.inj h)
        rw [hcomment]
        exact .comment hbody hend hrest
      · cases h

theorem closedComment_of_length {c : Char} {s : List Char} : ∀ {text : List Char},
    commentLength (text ++ c :: s) = text.length →
      ∃ body d rest, text = body ++ d :: rest ∧ (∀ e ∈ body, isLineEnd e = false) ∧
        isLineEnd d = true ∧ IsClosedLayout rest
  | [], h => by
    rw [List.nil_append, commentLength] at h
    split at h <;> cases h
  | d :: text, h => by
    rw [List.cons_append, commentLength, List.length_cons] at h
    split at h
    · rename_i hend
      exact ⟨[], d, text, rfl, by simp, hend, isClosedLayout_of_length (Nat.succ.inj h)⟩
    · rename_i hend
      obtain ⟨body, e, rest, rfl, hbody, hline, hrest⟩ := closedComment_of_length (Nat.succ.inj h)
      exact ⟨d :: body, e, rest, rfl, List.forall_mem_cons.2 ⟨Bool.eq_false_iff.2 hend, hbody⟩,
        hline, hrest⟩

end

/-- Layout before a character of something else ends its comments itself. -/
theorem isClosedLayout_of_skip {text s : List Char} {c : Char}
    (h : rules.skip (text ++ c :: s) = c :: s) : IsClosedLayout text :=
  isClosedLayout_of_length (skip_append_eq_iff.1 h)

namespace Parallel

variable {Gap : List Char → List Char → Prop} {hard : Bool} {depth : Nat} {s s' : List Char}

theorem inert {chars : List Char} (hchars : ∀ c ∈ chars, isInert c = true)
    (h : Parallel Gap hard depth s s') :
    Parallel Gap hard depth (chars ++ s) (chars ++ s') := by
  induction chars with
  | nil => exact h
  | cons c chars ih =>
    obtain ⟨hc, hchars⟩ := List.forall_mem_cons.1 hchars
    exact .solid (isSolid_of_isInert hc) (depthAfter_of_isInert hc hard depth) (ih hchars)

theorem semicolon (h : Parallel Gap hard depth s s') :
    Parallel Gap hard depth (';' :: s) (';' :: s') := by
  by_cases hborder : hard = true ∧ depth = 0
  · obtain ⟨hhard, rfl⟩ := hborder
    exact .cut hhard
  · apply Parallel.solid rfl _ h
    simp only [depthAfter]
    simpa using hborder

theorem bracketed {r : Rule} {opening closing : Char} {t t' : List Char}
    (hr : bracketsOf r = some (opening, closing))
    (hinner : Parallel Gap hard (depth + 1) (s ++ closing :: t) (s' ++ closing :: t')) :
    Parallel Gap hard depth (opening :: (s ++ closing :: t)) (opening :: (s' ++ closing :: t')) := by
  rcases bracketsOf_eq_some hr with ⟨rfl, -⟩ | ⟨rfl, -⟩
  · exact .solid rfl rfl hinner
  · exact .solid rfl rfl hinner

theorem of_cons_inert (h : Parallel Gap hard depth (c :: s) t) (hc : isInert c = true) :
    ∃ s', t = c :: s' ∧ Parallel Gap hard depth s s' := by
  have hstep := depthAfter_of_isInert hc hard depth
  rcases h.of_cons (isSolid_of_isInert hc) with hnone | ⟨_, s', hsome, rfl, htail⟩
  · rw [hstep] at hnone
    cases hnone
  · rw [hstep] at hsome
    cases hsome
    exact ⟨s', rfl, htail⟩

theorem closing {r : Rule} {opening closing : Char} (hr : bracketsOf r = some (opening, closing))
    (h : Parallel Gap hard depth s s') :
    Parallel Gap hard (depth + 1) (closing :: s) (closing :: s') := by
  rcases bracketsOf_eq_some hr with ⟨-, rfl⟩ | ⟨-, rfl⟩
  · exact .solid rfl rfl h
  · exact .solid rfl rfl h

theorem skip_eq {text : List Char} (h : Parallel Gap hard depth s s')
    (hskip : rules.skip (text ++ s) = s) : rules.skip (text ++ s') = s' := by
  rcases h.head (layoutLength_of_skip hskip) with ⟨rfl, rfl⟩ | ⟨c, tail, tail', rfl, rfl, -⟩
  · exact hskip
  · exact skip_replace hskip tail'

theorem replace {text text' : List Char} (hgap : Gap text text')
    (hreplace : text' = text ∨ text' ≠ [] ∧ IsClosedLayout text') (hne : text ≠ [])
    (hskip : rules.skip (text ++ s) = s) (h : Parallel Gap hard depth s s') :
    Parallel Gap hard depth (text ++ s) (text' ++ s') := by
  rcases hreplace with rfl | ⟨hne', hclosed⟩
  · exact .gap hgap hne hne hskip (h.skip_eq hskip) h
  · have hnone : layoutLength s' = 0 := by
      rcases h.head (layoutLength_of_skip hskip) with ⟨-, rfl⟩ | ⟨c, tail, tail', -, -, hnone⟩
      · rfl
      · exact hnone
    exact .gap hgap hne hne' hskip (hclosed.skip hnone) h

end Parallel

/-- Alike matches in front of parallel texts make parallel texts. -/
theorem Nested.parallel {Gap : List Char → List Char → Prop} {hard : Bool} {depth : Nat}
    {trees trees' : List (Peg.Tree Rule)} {rest rest' : List Char}
    (hreplace : ∀ text text', Gap text text' → text' = text ∨ text' ≠ [] ∧ IsClosedLayout text')
    (h : Nested trees rest) (halike : Alike Gap trees trees')
    (hrest : Parallel Gap hard depth rest rest') :
    Parallel Gap hard depth (textOf trees ++ rest) (textOf trees' ++ rest') := by
  induction h generalizing trees' rest' depth with
  | nil =>
    cases halike
    exact hrest
  | leaf hchars _ ih =>
    cases halike with
    | leaf htrees =>
      rw [textOf_leaf_cons, textOf_leaf_cons, List.append_assoc, List.append_assoc]
      exact .inert hchars (ih htrees hrest)
  | semicolon _ ih =>
    cases halike with
    | leaf htrees => exact .semicolon (ih htrees hrest)
  | gap hne hskip _ ih =>
    cases halike with
    | gap hgap htrees =>
      simp only [textOf, Peg.Tree.text, List.append_assoc]
      exact .replace hgap (hreplace _ _ hgap) hne hskip (ih htrees hrest)
  | string hstring hleaves hstop _ ih =>
    cases halike with
    | node hparts htrees =>
      obtain rfl := hparts.eq_of_leaves hleaves
      have htail := ih htrees hrest
      simp only [textOf, Peg.Tree.text, List.append_assoc]
      exact .string hstring hstop (htail.stops_quote hstop) htail
  | plain _ _ _ _ ihparts ih =>
    cases halike with
    | node hparts htrees =>
      simp only [textOf, Peg.Tree.text, List.append_assoc]
      exact ihparts hparts (ih htrees hrest)
  | bracketed hsome _ _ _ _ ihfront ihinner ihback ih =>
    cases halike with
    | node hparts htrees =>
      obtain ⟨front', _, rfl, hfront, hopen⟩ := hparts.of_append
      cases hopen with
      | leaf hbehind =>
        obtain ⟨inner', _, rfl, hinner, hclose⟩ := hbehind.of_append
        cases hclose with
        | leaf hback =>
          have hclosed := Parallel.closing hsome (ihback hback (ih htrees hrest))
          have hopened := Parallel.bracketed hsome (ihinner hinner hclosed)
          simpa [textOf, Peg.Tree.text, textOf_append] using ihfront hfront hopened

/-! ## Runs on parallel texts -/

/-- The number of brackets that a sequence has open. -/
def Stage.depth : Stage → Nat
  | .within => 1
  | _ => 0

/-- A leaf changes the number of open brackets as it changes the stage. -/
theorem depth_of_advance {r : Rule} {hard : Bool} {chars : List Char} {i j : Stage}
    (h : advance (bracketsOf r) (!hard) chars i = some j) (depth : Nat) :
    (∀ c ∈ chars, isSolid c = true) ∧
      chars.foldlM (depthAfter hard) (depth + i.depth) = some (depth + j.depth) := by
  unfold advance at h
  split at h
  · rename_i hinert
    cases h
    have hall := List.all_eq_true.1 hinert
    refine ⟨fun c hc => isSolid_of_isInert (hall c hc), ?_⟩
    induction chars with
    | nil => rfl
    | cons c chars ih =>
      obtain ⟨hc, hchars⟩ := List.forall_mem_cons.1 hall
      rw [List.foldlM_cons, depthAfter_of_isInert hc]
      exact ih (List.all_eq_true.2 hchars) hchars
  · split at h
    · rename_i hsemicolon
      subst hsemicolon
      split at h <;> cases h
      rename_i hbare
      refine ⟨List.forall_mem_singleton.2 rfl, ?_⟩
      cases hard <;> cases i <;> simp_all [depthAfter, Stage.depth]
    · split at h
      · rename_i opening closing heq
        split at h <;> cases h
        rename_i hchars
        subst hchars
        rcases bracketsOf_eq_some heq with ⟨rfl, -⟩ | ⟨rfl, -⟩
        · exact ⟨List.forall_mem_singleton.2 rfl, rfl⟩
        · exact ⟨List.forall_mem_singleton.2 rfl, rfl⟩
      · rename_i opening closing heq
        split at h <;> cases h
        rename_i hchars
        subst hchars
        rcases bracketsOf_eq_some heq with ⟨-, rfl⟩ | ⟨-, rfl⟩
        · exact ⟨List.forall_mem_singleton.2 rfl, rfl⟩
        · exact ⟨List.forall_mem_singleton.2 rfl, rfl⟩
      · cases h

/-- A pattern that respects the brackets does the same on parallel texts. -/
theorem agree_of_parallel {Gap : List Char → List Char → Prop} {hard : Bool} {r : Rule} {fuel : Nat}
    {p : Pattern Rule} {s s' : List Char} {i j : Stage} {depth : Nat} (hinert : IsInertPattern p)
    (hleads : leads (bracketsOf r) (!hard) p i = some j)
    (h : Parallel Gap hard (depth + i.depth) s s') :
    Agree Gap (Parallel Gap hard (depth + j.depth)) (rules.run fuel p s) (rules.run fuel p s') := by
  induction fuel generalizing r p s s' i j depth with
  | zero => exact .exhausted
  | succ fuel ih =>
    cases p with
    | text chars =>
      obtain ⟨hsolid, hdepth⟩ := depth_of_advance hleads depth
      apply agree_text
      · intro tail heq
        subst heq
        exact h.of_append hsolid hdepth
      · intro tail' heq
        subst heq
        obtain ⟨tail, heq, -⟩ := h.symm.of_append hsolid hdepth
        exact ⟨tail, heq⟩
    | char test =>
      cases hleads
      apply agree_char
      · intro c tail heq hc
        subst heq
        exact h.of_cons_inert (hinert c hc)
      · intro c tail' heq hc
        subst heq
        obtain ⟨tail, heq, -⟩ := h.symm.of_cons_inert (hinert c hc)
        exact ⟨tail, heq⟩
    | layout =>
      cases hleads
      obtain ⟨text, text', rest, rest', rfl, rfl, hlength, hlength', hgap, hrest⟩ := h.layout
      exact agree_layout _ _ hlength hlength' hgap hrest
    | finish =>
      cases hleads
      exact agree_finish _ _ ⟨h.eq_nil, h.symm.eq_nil⟩ h
    | seq first second =>
      obtain ⟨middle, hfirst, hsecond⟩ := Option.bind_eq_some_iff.1 hleads
      apply agree_seq _ (ih hinert.1 hfirst h)
      intro t t' hmiddle
      exact ih hinert.2 hsecond hmiddle
    | alt first second =>
      rw [leads] at hleads
      split at hleads
      · rename_i hsame
        exact agree_alt _ (ih hinert.1 hleads h) (ih hinert.2 (hsame ▸ hleads) h)
      · cases hleads
    | star body =>
      have hstar := hleads
      rw [leads] at hleads
      split at hleads <;> cases hleads
      rename_i hbody
      have hinertBody : IsInertPattern body := hinert
      apply agree_star _ (ih hinertBody hbody h)
      · intro t t' hmiddle
        exact ih hinert hstar hmiddle
      · intro _
        exact h
    | opt body =>
      rw [leads] at hleads
      split at hleads <;> cases hleads
      rename_i hbody
      have hinertBody : IsInertPattern body := hinert
      exact agree_opt _ (ih hinertBody hbody h) h
    | absent body =>
      obtain ⟨k, hbody, rfl⟩ := Option.map_eq_some_iff.1 hleads
      have hinertBody : IsInertPattern body := hinert
      exact agree_absent _ (ih hinertBody hbody h) h
    | rule name =>
      rw [leads] at hleads
      split at hleads <;> cases hleads
      rename_i hpart
      by_cases hstring : name = .string
      · subst hstring
        exact agree_string h (fuel + 1)
      · apply agree_rule
        have hpattern := leads_pattern hpart hstring (!hard)
        have hlast : (lastStage name).depth = 0 := by
          unfold lastStage
          split <;> rfl
        have hparts : Agree Gap (Parallel Gap hard (depth + i.depth + (lastStage name).depth))
            (rules.run fuel (pattern name) s) (rules.run fuel (pattern name) s') :=
          ih (isInertPattern_pattern (.inl hpart) hstring) hpattern h
        rwa [hlast] at hparts

end BlockScript.Grammar
