import BlockScript.Proofs.Repl.Programs
import BlockScript.Proofs.Tree.Layout
import BlockScript.Repl.Input
import Mathlib.Data.List.Basic
import Mathlib.Data.List.TakeWhile

/-!
# Complete inputs and open brackets

Whether an input needs more lines is told by counting brackets outside of strings and comments.  In
a text that the grammar matches, this count agrees with the brackets of the match: tokens and layout
leave it as it is, and a node with brackets opens one and closes it again.  The scanner ends a
comment at a line feed only, so a carriage return has to stand before one.
-/

namespace BlockScript.Repl

open Grammar
open Peg (Stops AllLeaves)
open Peg.Tree (textOf textOf_append)

/-! ## What the scanner makes of tokens and layout -/

def outside (braces parentheses : Int) (inComment : Bool) : Scan :=
  ⟨braces, parentheses, false, inComment⟩

theorem next_of_isInert {c : Char} (h : isInert c = true) (b p : Int) :
    (outside b p false).next c = outside b p false := by
  simp only [isInert, Bool.not_eq_true', List.contains_eq_mem, decide_eq_false_iff_not, signs,
    List.mem_cons, List.not_mem_nil, or_false, not_or] at h
  simp [Scan.next, outside, h]

theorem foldl_of_isInert {chars : List Char} (h : ∀ c ∈ chars, isInert c = true) (b p : Int) :
    chars.foldl Scan.next (outside b p false) = outside b p false := by
  induction chars with
  | nil => rfl
  | cons c chars ih =>
    obtain ⟨hc, hchars⟩ := List.forall_mem_cons.1 h
    rw [List.foldl_cons, next_of_isInert hc, ih hchars]

theorem foldl_of_isQuotable {q : List Char} (hq : IsQuotable q) (b p : Int) :
    q.foldl Scan.next ⟨b, p, true, false⟩ = ⟨b, p, true, false⟩ := by
  induction hq with
  | nil => rfl
  | quotes _ ih => exact ih
  | @plain c q hc _ ih =>
    have hquote : c ≠ '"' := by
      intro heq
      subst heq
      cases hc
    have hnext : (Scan.mk b p true false).next c = ⟨b, p, true, false⟩ := by
      simp [Scan.next, hquote]
    rw [List.foldl_cons, hnext, ih]

theorem foldl_of_isString {w : List Char} (hw : IsString w) (b p : Int) :
    w.foldl Scan.next (outside b p false) = outside b p false := by
  obtain ⟨q, hq, rfl⟩ := hw
  have hopen : (outside b p false).next '"' = ⟨b, p, true, false⟩ := rfl
  rw [List.foldl_cons, List.foldl_append, hopen, foldl_of_isQuotable hq]
  rfl

theorem next_return (s : Scan) : s.next '\r' = s := by
  obtain ⟨b, p, inString, inComment⟩ := s
  cases inString <;> cases inComment <;> rfl

theorem next_in_comment {c : Char} (hc : c ≠ '\n') (b p : Int) :
    (outside b p true).next c = outside b p true := by
  simp [Scan.next, outside, hc]

theorem next_comment_sign (b p : Int) (f : Bool) :
    (outside b p f).next '#' = outside b p true := by
  cases f <;> rfl

theorem foldl_behind_comment {text : List Char} (h : '\n' ∉ text) (b p : Int) :
    text.foldl Scan.next (outside b p true) = outside b p true := by
  induction text with
  | nil => rfl
  | cons c text ih =>
    have hc : c ≠ '\n' := (List.ne_of_not_mem_cons h).symm
    rw [List.foldl_cons, next_in_comment hc, ih (List.not_mem_of_not_mem_cons h)]

theorem newline_notMem_of_comment {text : List Char} (h : ∀ c ∈ text, isLineEnd c = false) :
    '\n' ∉ text := by
  intro hmem
  cases h '\n' hmem

theorem foldl_in_comment {text : List Char} (h : ∀ c ∈ text, isLineEnd c = false) (b p : Int) :
    text.foldl Scan.next (outside b p true) = outside b p true :=
  foldl_behind_comment (newline_notMem_of_comment h) b p

theorem next_of_isBlank {c : Char} (hc : isBlank c = true) (b p : Int) :
    (outside b p false).next c = outside b p false := by
  simp only [isBlank, Bool.or_eq_true, decide_eq_true_eq] at hc
  rcases hc with ((rfl | rfl) | rfl) | rfl <;> rfl

/-- Within layout, only the sign for comments is set and taken back. -/
theorem exists_foldl_of_isLayout {text before behind : List Char} (h : IsLayout text)
    (hsplit : text = before ++ behind) (b p : Int) (f : Bool) :
    ∃ f', before.foldl Scan.next (outside b p f) = outside b p f' := by
  induction h generalizing before f with
  | nil =>
    obtain ⟨rfl, -⟩ := List.append_eq_nil_iff.1 hsplit.symm
    exact ⟨f, rfl⟩
  | @blank c rest hblank _ ih =>
    cases before with
    | nil => exact ⟨f, rfl⟩
    | cons d before =>
      obtain ⟨rfl, hrest⟩ := List.cons.inj hsplit
      cases f with
      | false =>
        rw [List.foldl_cons, next_of_isBlank hblank]
        exact ih hrest false
      | true => exact ih hrest (c ≠ '\n')
  | @comment body rest hbody _ _ ih =>
    cases before with
    | nil => exact ⟨f, rfl⟩
    | cons d before =>
      obtain ⟨rfl, hrest⟩ := List.cons.inj hsplit
      rw [List.foldl_cons, next_comment_sign]
      rcases List.append_eq_append_iff.1 hrest with ⟨tail, rfl, htail⟩ | ⟨tail, rfl, -⟩
      · rw [List.foldl_append, foldl_in_comment hbody]
        exact ih htail true
      · exact ⟨true, foldl_in_comment (fun c hc => hbody c (List.mem_append_left _ hc)) b p⟩

/-- Every carriage return stands before a line feed. -/
def ReturnsEnd (text : List Char) : Prop :=
  ∀ front back, text = front ++ '\r' :: back → ∃ tail, back = '\n' :: tail

theorem ReturnsEnd.of_append {front back : List Char} (h : ReturnsEnd (front ++ back)) :
    ReturnsEnd back := by
  intro a b heq
  subst heq
  exact h (front ++ a) b (by simp)

/-- The text leaves a scan outside of strings as it is.  Only at the end of everything it may stay
in a comment. -/
def Quiet (text rest : List Char) : Prop :=
  ∀ b p, ∃ f, text.foldl Scan.next (outside b p false) = outside b p f ∧ (f = true → rest = [])

mutual

theorem quiet_of_layoutLength {rest : List Char} : ∀ {gap : List Char},
    layoutLength (gap ++ rest) = gap.length → ReturnsEnd (gap ++ rest) → Quiet gap rest
  | [], _, _ => fun b p => ⟨false, rfl, nofun⟩
  | c :: gap, h, hreturns => by
    intro b p
    have hlater : ReturnsEnd (gap ++ rest) := @ReturnsEnd.of_append [c] _ hreturns
    rw [List.cons_append, layoutLength, List.length_cons] at h
    rw [List.foldl_cons]
    split at h
    · rename_i hblank
      rw [next_of_isBlank hblank]
      exact quiet_of_layoutLength (Nat.succ.inj h) hlater b p
    · split at h
      · rename_i hcomment
        subst hcomment
        exact quiet_of_commentLength (Nat.succ.inj h) hlater b p
      · cases h

theorem quiet_of_commentLength {rest : List Char} : ∀ {gap : List Char},
    commentLength (gap ++ rest) = gap.length → ReturnsEnd (gap ++ rest) → ∀ b p,
      ∃ f, gap.foldl Scan.next (outside b p true) = outside b p f ∧ (f = true → rest = [])
  | [], h, _, b, p => by
    refine ⟨true, rfl, fun _ => ?_⟩
    cases rest with
    | nil => rfl
    | cons c rest =>
      rw [List.nil_append, commentLength] at h
      split at h <;> cases h
  | c :: gap, h, hreturns, b, p => by
    have hlater : ReturnsEnd (gap ++ rest) := @ReturnsEnd.of_append [c] _ hreturns
    rw [List.cons_append, commentLength, List.length_cons] at h
    split at h
    · rename_i hend
      have hlayout := quiet_of_layoutLength (Nat.succ.inj h) hlater b p
      by_cases hline : c = '\n'
      · subst hline
        exact hlayout
      · -- behind a carriage return, the line feed is what ends the comment for the scanner
        obtain rfl : c = '\r' := by simpa [isLineEnd, hline] using hend
        obtain ⟨tail, htail⟩ := hreturns [] (gap ++ rest) rfl
        cases gap with
        | nil =>
          obtain rfl : rest = '\n' :: tail := htail
          cases h
        | cons d gap =>
          obtain ⟨rfl, -⟩ := List.cons.inj htail
          rw [List.foldl_cons, next_return]
          exact hlayout
    · rename_i hend
      have hline : c ≠ '\n' := by
        intro heq
        subst heq
        exact hend rfl
      rw [List.foldl_cons, next_in_comment hline]
      exact quiet_of_commentLength (Nat.succ.inj h) hlater b p

end

theorem Quiet.append {text text' rest : List Char} (h : Quiet text (text' ++ rest))
    (h' : Quiet text' rest) : Quiet (text ++ text') rest := by
  intro b p
  obtain ⟨f, hfold, hend⟩ := h b p
  rw [List.foldl_append, hfold]
  cases f with
  | false => exact h' b p
  | true =>
    obtain ⟨rfl, rfl⟩ := List.append_eq_nil_iff.1 (hend rfl)
    exact ⟨true, rfl, fun _ => rfl⟩

theorem Quiet.foldl_eq {text rest : List Char} (h : Quiet text rest) (hne : rest ≠ []) (b p : Int) :
    text.foldl Scan.next (outside b p false) = outside b p false := by
  obtain ⟨f, hfold, hend⟩ := h b p
  cases f with
  | false => exact hfold
  | true => exact absurd (hend rfl) hne

theorem next_of_brackets {r : Rule} {opening closing : Char}
    (h : bracketsOf r = some (opening, closing)) : ∃ x y : Nat, x + y = 1 ∧ ∀ b p : Int,
      (outside b p false).next opening = outside (b + x) (p + y) false ∧
        (outside (b + x) (p + y) false).next closing = outside b p false := by
  rcases bracketsOf_eq_some h with ⟨rfl, rfl⟩ | ⟨rfl, rfl⟩
  · refine ⟨1, 0, rfl, fun b p => ⟨?_, ?_⟩⟩
    · simp [Scan.next, outside]
    · simp [Scan.next, outside]
  · refine ⟨0, 1, rfl, fun b p => ⟨?_, ?_⟩⟩
    · simp [Scan.next, outside]
    · simp [Scan.next, outside]

theorem Quiet.bracketed {r : Rule} {opening closing : Char} {front inner behind rest : List Char}
    (hr : bracketsOf r = some (opening, closing))
    (hfront : Quiet front (opening :: (inner ++ closing :: (behind ++ rest))))
    (hinner : Quiet inner (closing :: (behind ++ rest))) (hbehind : Quiet behind rest) :
    Quiet (front ++ opening :: (inner ++ closing :: behind)) rest := by
  obtain ⟨x, y, -, hnext⟩ := next_of_brackets hr
  intro b p
  rw [List.foldl_append, hfront.foldl_eq (List.cons_ne_nil _ _), List.foldl_cons, (hnext b p).1,
    List.foldl_append, hinner.foldl_eq (List.cons_ne_nil _ _), List.foldl_cons, (hnext b p).2]
  exact hbehind b p

/-- The text of a whole match leaves all counts as they are. -/
theorem quiet_of_nested {trees : List (Peg.Tree Rule)} {rest : List Char} (h : Nested trees rest)
    (hreturns : ReturnsEnd (textOf trees ++ rest)) : Quiet (textOf trees) rest := by
  induction h with
  | nil => exact fun b p => ⟨false, rfl, nofun⟩
  | leaf hchars _ ih =>
    rw [textOf_leaf_cons, List.append_assoc] at hreturns
    rw [textOf_leaf_cons]
    exact Quiet.append (fun b p => ⟨false, foldl_of_isInert hchars b p, nofun⟩)
      (ih hreturns.of_append)
  | semicolon _ ih =>
    rw [textOf_leaf_cons, List.append_assoc] at hreturns
    rw [textOf_leaf_cons]
    exact Quiet.append (fun b p => ⟨false, rfl, nofun⟩) (ih hreturns.of_append)
  | gap _ hskip _ ih =>
    simp only [textOf, Peg.Tree.text, List.append_assoc] at hreturns ⊢
    exact (quiet_of_layoutLength (skip_append_eq_iff.1 hskip) hreturns).append
      (ih hreturns.of_append)
  | string hstring _ _ _ ih =>
    simp only [textOf, Peg.Tree.text, List.append_assoc] at hreturns ⊢
    exact Quiet.append (fun b p => ⟨false, foldl_of_isString hstring b p, nofun⟩)
      (ih hreturns.of_append)
  | plain _ _ _ _ ihparts ih =>
    simp only [textOf, Peg.Tree.text, List.append_assoc] at hreturns ⊢
    exact (ihparts hreturns).append (ih hreturns.of_append)
  | @bracketed _ opening closing front inner back trees rest hsome _ _ _ _ ihfront ihinner ihback
      ih =>
    simp only [textOf, Peg.Tree.text, textOf_append, List.append_assoc, List.cons_append,
      List.nil_append] at hreturns ⊢
    have hopened := @ReturnsEnd.of_append [opening] _ hreturns.of_append
    have hclosed := @ReturnsEnd.of_append [closing] _ hopened.of_append
    apply Quiet.bracketed hsome
    · simpa using ihfront hreturns
    · simpa using ihinner hopened
    · exact (ihback hclosed).append (ih hclosed.of_append)

/-! ## Brackets of a match -/

/-- A bracket is open after that many characters of the match: its node has the opening one before
that point, and the closing one behind it. -/
inductive OpenAt : List (Peg.Tree Rule) → Nat → Prop
  | pair {rule : Rule} {opening closing : Char} {front inner back trees : List (Peg.Tree Rule)}
      {n : Nat} (hrule : bracketsOf rule = some (opening, closing))
      (hopen : (textOf front).length < n)
      (hclose : n ≤ (textOf front).length + 1 + (textOf inner).length) :
      OpenAt
        (.node rule (front ++ .leaf [opening] :: (inner ++ .leaf [closing] :: back)) :: trees) n
  | inside {rule : Rule} {parts trees : List (Peg.Tree Rule)} {n : Nat} (hparts : OpenAt parts n) :
      OpenAt (.node rule parts :: trees) n
  | later {tree : Peg.Tree Rule} {trees : List (Peg.Tree Rule)} {n : Nat}
      (htrees : OpenAt trees n) :
      OpenAt (tree :: trees) (tree.text.length + n)

theorem OpenAt.lt {trees : List (Peg.Tree Rule)} {n : Nat} (h : OpenAt trees n) :
    n < (textOf trees).length := by
  induction h with
  | pair _ _ hclose =>
    simp only [textOf, Peg.Tree.text, textOf_append, List.length_append, List.length_cons]
    omega
  | inside _ ih =>
    simp only [textOf, Peg.Tree.text, List.length_append]
    omega
  | later _ ih =>
    simp only [textOf, List.length_append]
    omega

theorem openAt_append {front back : List (Peg.Tree Rule)} {n : Nat} :
    OpenAt (front ++ back) n ↔
      OpenAt front n ∨ ∃ m, n = (textOf front).length + m ∧ OpenAt back m := by
  induction front generalizing n with
  | nil =>
    constructor
    · intro h
      exact .inr ⟨n, (Nat.zero_add n).symm, h⟩
    · rintro (h | ⟨m, rfl, h⟩)
      · cases h
      · rwa [textOf, List.length_nil, Nat.zero_add]
  | cons tree front ih =>
    constructor
    · intro h
      cases h with
      | pair hrule hopen hclose => exact .inl (.pair hrule hopen hclose)
      | inside hparts => exact .inl (.inside hparts)
      | later htrees =>
        rcases ih.1 htrees with h | ⟨m, rfl, h⟩
        · exact .inl (.later h)
        · exact .inr ⟨m, by rw [textOf, List.length_append, Nat.add_assoc], h⟩
    · rintro (h | ⟨m, rfl, h⟩)
      · cases h with
        | pair hrule hopen hclose => exact .pair hrule hopen hclose
        | inside hparts => exact .inside hparts
        | later htrees => exact .later (ih.2 (.inl htrees))
      · rw [textOf, List.length_append, Nat.add_assoc]
        exact .later (ih.2 (.inr ⟨m, rfl, h⟩))

theorem not_openAt_leaf {text : List Char} {n : Nat} : ¬OpenAt [.leaf text] n := by
  intro h
  cases h with
  | later h => cases h

theorem not_openAt_gap {text : List Char} {n : Nat} : ¬OpenAt [.gap text] n := by
  intro h
  cases h with
  | later h => cases h

/-- Without brackets of its own, a node has the open brackets of its parts. -/
theorem openAt_plain {rule : Rule} {parts : List (Peg.Tree Rule)} {n : Nat}
    (hrule : bracketsOf rule = none) : OpenAt [.node rule parts] n ↔ OpenAt parts n := by
  constructor
  · intro h
    cases h with
    | pair hsome => rw [hrule] at hsome; cases hsome
    | inside hparts => exact hparts
    | later h => cases h
  · exact .inside

/-- The brackets of a node are no leaves between nested parts. -/
theorem bracket_notMem {r : Rule} {opening closing : Char} {trees : List (Peg.Tree Rule)}
    {rest : List Char} (hr : bracketsOf r = some (opening, closing)) (h : Nested trees rest) :
    .leaf [opening] ∉ trees ∧ .leaf [closing] ∉ trees := by
  have hinert : isInert opening = false ∧ isInert closing = false ∧ opening ≠ ';' ∧
      closing ≠ ';' := by
    rcases bracketsOf_eq_some hr with ⟨rfl, rfl⟩ | ⟨rfl, rfl⟩ <;> decide
  obtain ⟨hopening, hclosing, hne, hne'⟩ := hinert
  induction h with
  | nil => simp
  | @leaf chars _ _ hchars _ ih =>
    have hleaf : ∀ c, isInert c = false → Peg.Tree.leaf [c] ≠ (.leaf chars : Peg.Tree Rule) := by
      intro c hc heq
      obtain rfl := Peg.Tree.leaf.inj heq
      rw [hchars c List.mem_cons_self] at hc
      cases hc
    simpa [hleaf opening hopening, hleaf closing hclosing] using ih
  | semicolon _ ih => simpa [hne, hne'] using ih
  | gap _ _ _ ih => simpa using ih
  | string _ _ _ _ ih => simpa using ih
  | plain _ _ _ _ _ ih => simpa using ih
  | bracketed _ _ _ _ _ _ _ _ ih => simpa using ih

theorem openAt_leaf_cons {c : Char} {trees : List (Peg.Tree Rule)} {n : Nat} :
    OpenAt (.leaf [c] :: trees) n ↔ ∃ m, n = 1 + m ∧ OpenAt trees m := by
  have happend := @openAt_append [.leaf [c]] trees n
  simpa [not_openAt_leaf, textOf, Peg.Tree.text] using happend

theorem openAt_parts {opening closing : Char} {front inner back : List (Peg.Tree Rule)} {n : Nat} :
    OpenAt (front ++ .leaf [opening] :: (inner ++ .leaf [closing] :: back)) n ↔
      OpenAt front n ∨ (∃ m, n = (textOf front).length + 1 + m ∧ OpenAt inner m) ∨
        ∃ m, n = (textOf front).length + 1 + (textOf inner).length + 1 + m ∧ OpenAt back m := by
  simp only [openAt_append, openAt_leaf_cons]
  constructor
  · rintro (h | ⟨_, rfl, m, rfl, h | ⟨_, rfl, k, rfl, h⟩⟩)
    · exact .inl h
    · exact .inr (.inl ⟨m, by omega, h⟩)
    · exact .inr (.inr ⟨k, by omega, h⟩)
  · rintro (h | ⟨m, rfl, h⟩ | ⟨m, rfl, h⟩)
    · exact .inl h
    · exact .inr ⟨1 + m, by omega, m, rfl, .inl h⟩
    · exact .inr ⟨1 + ((textOf inner).length + (1 + m)), by omega, _, rfl,
        .inr ⟨1 + m, rfl, m, rfl, h⟩⟩

theorem openAt_bracketed {rule : Rule} {opening closing : Char}
    {front inner back : List (Peg.Tree Rule)} {n : Nat} {rest rest' rest'' : List Char}
    (hrule : bracketsOf rule = some (opening, closing))
    (hfront : Nested front rest) (hinner : Nested inner rest') (hback : Nested back rest'') :
    OpenAt [.node rule (front ++ .leaf [opening] :: (inner ++ .leaf [closing] :: back))] n ↔
      (textOf front).length < n ∧ n ≤ (textOf front).length + 1 + (textOf inner).length ∨
        OpenAt front n ∨
        ∃ m, n = (textOf front).length + 1 + (textOf inner).length + 1 + m ∧ OpenAt back m := by
  have hne : Peg.Tree.leaf [opening] ≠ (.leaf [closing] : Peg.Tree Rule) := by
    rcases bracketsOf_eq_some hrule with ⟨rfl, rfl⟩ | ⟨rfl, rfl⟩ <;> simp
  constructor
  · intro h
    generalize heq : front ++ .leaf [opening] :: (inner ++ .leaf [closing] :: back) = parts at h
    cases h with
    | @pair _ opening' closing' front' inner' back' _ _ hrule' hopen hclose =>
      obtain ⟨rfl, rfl⟩ := Prod.mk.inj (Option.some.inj (hrule.symm.trans hrule'))
      have hbehind : .leaf [opening] ∉ inner ++ .leaf [closing] :: back := by
        simp [(bracket_notMem hrule hinner).1, (bracket_notMem hrule hback).1, hne]
      obtain ⟨rfl, -, heq⟩ :=
        (List.append_cons_inj_of_notMem (bracket_notMem hrule hfront).1 hbehind).1 heq
      obtain ⟨rfl, -, rfl⟩ := (List.append_cons_inj_of_notMem (bracket_notMem hrule hinner).2
        (bracket_notMem hrule hback).2).1 heq
      exact .inl ⟨hopen, hclose⟩
    | inside h =>
      subst heq
      rcases openAt_parts.1 h with hopen | ⟨m, rfl, hopen⟩ | hopen
      · exact .inr (.inl hopen)
      · have hlt := hopen.lt
        exact .inl ⟨by omega, by omega⟩
      · exact .inr (.inr hopen)
    | later h => cases h
  · rintro (⟨hopen, hclose⟩ | h | h)
    · exact .pair hrule hopen hclose
    · exact .inside (openAt_parts.2 (.inl h))
    · exact .inside (openAt_parts.2 (.inr (.inr h)))

/-! ## Counts at the ends of lines -/

/-- The text is at its end or goes on in the next line. -/
def AtLineEnd (text : List Char) : Prop :=
  text = [] ∨ ∃ tail, text = '\n' :: tail

/-- At the end of a line within the text, the scanner counts the brackets that are open there. -/
def Counts (isOpen : Nat → Prop) (text rest : List Char) : Prop :=
  ∀ before behind, text = before ++ behind → AtLineEnd (behind ++ rest) → ∀ b p : Int,
    ∃ (x y : Nat) (f : Bool),
      before.foldl Scan.next (outside b p false) = outside (b + x) (p + y) f ∧
        (isOpen before.length ↔ x + y ≠ 0)

theorem split_append {text text' before behind : List Char} (h : text ++ text' = before ++ behind) :
    (∃ more, before = text ++ more ∧ text' = more ++ behind) ∨
      ∃ c cut, text = before ++ c :: cut ∧ behind = c :: cut ++ text' := by
  rcases List.append_eq_append_iff.1 h with ⟨more, rfl, rfl⟩ | ⟨cut, rfl, rfl⟩
  · exact .inl ⟨more, rfl, rfl⟩
  · cases cut with
    | nil => exact .inl ⟨[], by simp, rfl⟩
    | cons c cut => exact .inr ⟨c, cut, rfl, rfl⟩

theorem AtLineEnd.head {c : Char} {text : List Char} (h : AtLineEnd (c :: text)) : c = '\n' := by
  rcases h with h | ⟨tail, h⟩
  · cases h
  · exact (List.cons.inj h).1

theorem counts_of_quiet {isOpen : Nat → Prop} {text rest : List Char} (hquiet : Quiet text rest)
    (hline : '\n' ∉ text) (hopen : ∀ n, ¬isOpen n) : Counts isOpen text rest := by
  intro before behind hsplit hend b p
  cases behind with
  | nil =>
    obtain rfl : text = before := by simpa using hsplit
    obtain ⟨f, hfold, -⟩ := hquiet b p
    exact ⟨0, 0, f, by simpa using hfold, by simp [hopen]⟩
  | cons c behind =>
    have hc := hend.head
    subst hc
    exact absurd (by simp [hsplit]) hline

theorem counts_of_isLayout {isOpen : Nat → Prop} {text rest : List Char} (h : IsLayout text)
    (hopen : ∀ n, ¬isOpen n) : Counts isOpen text rest := by
  intro before behind hsplit _ b p
  obtain ⟨f, hfold⟩ := exists_foldl_of_isLayout h hsplit b p false
  exact ⟨0, 0, f, by simpa using hfold, by simp [hopen]⟩

theorem Counts.append {front back : List (Peg.Tree Rule)} {rest : List Char}
    (hfront : Counts (OpenAt front) (textOf front) (textOf back ++ rest))
    (hquiet : Quiet (textOf front) (textOf back ++ rest))
    (hback : Counts (OpenAt back) (textOf back) rest) :
    Counts (OpenAt (front ++ back)) (textOf (front ++ back)) rest := by
  intro before behind hsplit hend b p
  rw [textOf_append] at hsplit
  rcases split_append hsplit with ⟨more, rfl, hmore⟩ | ⟨c, cut, hcut, rfl⟩
  · obtain ⟨f, hfold, hlast⟩ := hquiet b p
    have hopen : OpenAt (front ++ back) (textOf front ++ more).length ↔
        OpenAt back more.length := by
      rw [openAt_append, List.length_append]
      constructor
      · rintro (h | ⟨m, hm, h⟩)
        · exact absurd h.lt (by omega)
        · obtain rfl : more.length = m := by omega
          exact h
      · intro h
        exact .inr ⟨_, rfl, h⟩
    rw [List.foldl_append, hfold, hopen]
    cases f with
    | false => exact hback more behind hmore hend b p
    | true =>
      obtain ⟨hnil, -⟩ := List.append_eq_nil_iff.1 (hlast rfl)
      rw [hnil] at hmore
      obtain ⟨rfl, -⟩ := List.append_eq_nil_iff.1 hmore.symm
      refine ⟨0, 0, true, by simp, iff_of_false (fun h => ?_) (by simp)⟩
      have hlt := h.lt
      rw [hnil] at hlt
      cases hlt
  · rw [List.append_assoc] at hend
    obtain ⟨x, y, f, hfold, hopen⟩ := hfront before (c :: cut) hcut hend b p
    refine ⟨x, y, f, hfold, ?_⟩
    have hlength := congrArg List.length hcut
    rw [List.length_append, List.length_cons] at hlength
    rw [openAt_append, ← hopen]
    refine or_iff_left ?_
    rintro ⟨m, hm, -⟩
    omega

/-- No line ends at a bracket: it ends before the opening one, between the two or behind them. -/
theorem split_bracketed {opening closing : Char} {front inner back before behind rest : List Char}
    (hopening : opening ≠ '\n') (hclosing : closing ≠ '\n') (hend : AtLineEnd (behind ++ rest))
    (h : front ++ opening :: (inner ++ closing :: back) = before ++ behind) :
    (∃ c cut, front = before ++ c :: cut ∧
        behind ++ rest = c :: cut ++ opening :: (inner ++ closing :: (back ++ rest))) ∨
      (∃ more c cut, before = front ++ opening :: more ∧ inner = more ++ c :: cut ∧
        behind ++ rest = c :: cut ++ closing :: (back ++ rest)) ∨
      ∃ last, before = front ++ opening :: (inner ++ closing :: last) ∧ back = last ++ behind := by
  rcases split_append h with ⟨more, rfl, hmore⟩ | ⟨c, cut, hcut, rfl⟩
  · cases more with
    | nil =>
      obtain rfl : opening :: (inner ++ closing :: back) = behind := hmore
      exact absurd hend.head hopening
    | cons d more =>
      obtain ⟨rfl, hinside⟩ := List.cons.inj hmore
      rcases split_append hinside with ⟨last, rfl, hlast⟩ | ⟨c, cut, hcut, rfl⟩
      · cases last with
        | nil =>
          obtain rfl : closing :: back = behind := hlast
          exact absurd hend.head hclosing
        | cons d last =>
          obtain ⟨rfl, hbehind⟩ := List.cons.inj hlast
          exact .inr (.inr ⟨last, rfl, hbehind⟩)
      · exact .inr (.inl ⟨more, c, cut, rfl, hcut, by simp⟩)
  · exact .inl ⟨c, cut, hcut, by simp⟩

/-- A node with brackets counts one more between them. -/
theorem counts_bracketed {rule : Rule} {opening closing : Char}
    {front inner back : List (Peg.Tree Rule)} {rest : List Char}
    (hrule : bracketsOf rule = some (opening, closing))
    (hfront : Nested front (opening :: (textOf inner ++ closing :: (textOf back ++ rest))))
    (hinner : Nested inner (closing :: (textOf back ++ rest))) (hback : Nested back rest)
    (hreturns : ReturnsEnd
      (textOf front ++ opening :: (textOf inner ++ closing :: (textOf back ++ rest))))
    (hcountsFront : Counts (OpenAt front) (textOf front)
      (opening :: (textOf inner ++ closing :: (textOf back ++ rest))))
    (hcountsInner : Counts (OpenAt inner) (textOf inner) (closing :: (textOf back ++ rest)))
    (hcountsBack : Counts (OpenAt back) (textOf back) rest) :
    Counts (OpenAt [.node rule (front ++ .leaf [opening] :: (inner ++ .leaf [closing] :: back))])
      (textOf front ++ opening :: (textOf inner ++ closing :: textOf back)) rest := by
  have hsigns : opening ≠ '\n' ∧ closing ≠ '\n' := by
    rcases bracketsOf_eq_some hrule with ⟨rfl, rfl⟩ | ⟨rfl, rfl⟩ <;> decide
  obtain ⟨x, y, hone, hnext⟩ := next_of_brackets hrule
  have hopened := @ReturnsEnd.of_append [opening] _ hreturns.of_append
  have hquietFront := (quiet_of_nested hfront hreturns).foldl_eq (List.cons_ne_nil _ _)
  have hquietInner := (quiet_of_nested hinner hopened).foldl_eq (List.cons_ne_nil _ _)
  intro before behind hsplit hend b p
  rw [openAt_bracketed hrule hfront hinner hback]
  rcases split_bracketed hsigns.1 hsigns.2 hend hsplit with
    ⟨c, cut, hcut, htail⟩ | ⟨more, c, cut, rfl, hcut, htail⟩ | ⟨last, rfl, hlast⟩
  · -- up to the opening bracket nothing but the front counts
    rw [htail] at hend
    obtain ⟨i, j, f, hfold, hopen⟩ := hcountsFront before (c :: cut) hcut hend b p
    refine ⟨i, j, f, hfold, ?_⟩
    have hlength := congrArg List.length hcut
    rw [List.length_append, List.length_cons] at hlength
    rw [← hopen]
    constructor
    · rintro (⟨hlt, -⟩ | h | ⟨m, hm, -⟩)
      · omega
      · exact h
      · omega
    · intro h
      exact .inr (.inl h)
  · -- the bracket itself is open here, whatever else is
    rw [htail] at hend
    rw [List.foldl_append, hquietFront, List.foldl_cons, (hnext b p).1]
    obtain ⟨i, j, f, hfold, -⟩ := hcountsInner more (c :: cut) hcut hend (b + x) (p + y)
    refine ⟨x + i, y + j, f, ?_, iff_of_true (.inl ?_) (by omega)⟩
    · rw [hfold, Int.natCast_add, Int.natCast_add, Int.add_assoc, Int.add_assoc]
    · simp only [hcut, List.length_append, List.length_cons]
      omega
  · -- the closing bracket has taken back what the opening one did
    rw [List.foldl_append, hquietFront, List.foldl_cons, (hnext b p).1, List.foldl_append,
      hquietInner, List.foldl_cons, (hnext b p).2]
    obtain ⟨i, j, f, hfold, hopen⟩ := hcountsBack last behind hlast hend b p
    refine ⟨i, j, f, hfold, ?_⟩
    rw [← hopen]
    simp only [List.length_append, List.length_cons]
    constructor
    · rintro (⟨-, hle⟩ | h | ⟨m, hm, h⟩)
      · omega
      · exact absurd h.lt (by omega)
      · obtain rfl : last.length = m := by omega
        exact h
    · intro h
      exact .inr (.inr ⟨last.length, by omega, h⟩)

theorem Counts.cons {tree : Peg.Tree Rule} {trees : List (Peg.Tree Rule)} {rest : List Char}
    (hnested : Nested [tree] (textOf trees ++ rest))
    (hreturns : ReturnsEnd (tree.text ++ (textOf trees ++ rest)))
    (htree : Counts (OpenAt [tree]) tree.text (textOf trees ++ rest))
    (htrees : Counts (OpenAt trees) (textOf trees) rest) :
    Counts (OpenAt (tree :: trees)) (textOf (tree :: trees)) rest := by
  have htext : textOf [tree] = tree.text := List.append_nil _
  have hquiet : Quiet (textOf [tree]) (textOf trees ++ rest) :=
    quiet_of_nested hnested (by rwa [htext])
  exact @Counts.append [tree] trees rest (by rwa [htext]) hquiet htrees

theorem newline_notMem_of_isString {w : List Char} (h : IsString w) : '\n' ∉ w := by
  obtain ⟨q, hq, rfl⟩ := h
  have hinside : '\n' ∉ q := by
    induction hq with
    | nil => simp
    | quotes _ ih => simpa using ih
    | @plain c q hc _ ih =>
      have hline : '\n' ≠ c := by
        intro heq
        subst heq
        cases hc
      simp [hline, ih]
  simp [hinside]

theorem not_openAt_of_leaves {trees : List (Peg.Tree Rule)} (h : AllLeaves trees) (n : Nat) :
    ¬OpenAt trees n := by
  induction trees generalizing n with
  | nil => exact fun hopen => by cases hopen
  | cons tree trees ih =>
    obtain ⟨⟨text, rfl⟩, htrees⟩ := List.forall_mem_cons.1 h
    intro hopen
    cases hopen with
    | later hlater => exact ih htrees _ hlater

theorem counts_of_nested {trees : List (Peg.Tree Rule)} {rest : List Char} (h : Nested trees rest)
    (hreturns : ReturnsEnd (textOf trees ++ rest)) :
    Counts (OpenAt trees) (textOf trees) rest := by
  induction h with
  | nil => exact counts_of_isLayout .nil fun n hopen => by cases hopen
  | leaf hchars _ ih =>
    rw [textOf, List.append_assoc] at hreturns
    apply Counts.cons (.leaf hchars .nil) hreturns _ (ih hreturns.of_append)
    apply counts_of_quiet (fun b p => ⟨false, foldl_of_isInert hchars b p, nofun⟩) _
      fun n => not_openAt_leaf
    intro hmem
    exact absurd (hchars _ hmem) (by decide)
  | semicolon _ ih =>
    rw [textOf, List.append_assoc] at hreturns
    apply Counts.cons (.semicolon .nil) hreturns _ (ih hreturns.of_append)
    exact counts_of_quiet (fun b p => ⟨false, rfl, nofun⟩) (by decide) fun n => not_openAt_leaf
  | gap hne hskip _ ih =>
    rw [textOf, List.append_assoc] at hreturns
    apply Counts.cons (.gap hne hskip .nil) hreturns _ (ih hreturns.of_append)
    exact counts_of_isLayout (isLayout_of_skip hskip) fun n => not_openAt_gap
  | string hstring hleaves hstop _ ih =>
    rw [textOf, List.append_assoc] at hreturns
    apply Counts.cons (.string hstring hleaves hstop .nil) hreturns _ (ih hreturns.of_append)
    apply counts_of_quiet (fun b p => ⟨false, foldl_of_isString hstring b p, nofun⟩)
      (newline_notMem_of_isString hstring)
    intro n
    rw [openAt_plain rfl]
    exact not_openAt_of_leaves hleaves n
  | plain hnone hleaves hparts _ ihparts ih =>
    rw [textOf, List.append_assoc] at hreturns
    apply Counts.cons (.plain hnone hleaves hparts .nil) hreturns _ (ih hreturns.of_append)
    have hcounts := ihparts hreturns
    simpa only [Counts, openAt_plain hnone, Peg.Tree.text] using hcounts
  | @bracketed _ opening closing front inner back trees rest hsome hfront hinner hback _ ihfront
      ihinner ihback ih =>
    rw [textOf, List.append_assoc] at hreturns
    have hparts : ReturnsEnd (textOf front ++ opening :: (textOf inner ++ closing ::
        (textOf back ++ (textOf trees ++ rest)))) := by
      simpa [Peg.Tree.text, textOf_append] using hreturns
    have hopened := @ReturnsEnd.of_append [opening] _ hparts.of_append
    have hclosed := @ReturnsEnd.of_append [closing] _ hopened.of_append
    apply Counts.cons (.bracketed hsome hfront hinner hback .nil) hreturns _ (ih hreturns.of_append)
    have hcounts := counts_bracketed hsome hfront hinner hback hparts (ihfront hparts)
      (ihinner hopened) (ihback hclosed)
    simpa [Peg.Tree.text, textOf_append] using hcounts

/-- At a line end of a matched text the scan is outside of strings, and one of its counts is raised
where a bracket of the match is open. -/
theorem exists_scan_of_match {parts : List (Peg.Tree Rule)} {before behind : List Char}
    (hnested : Nested parts []) (hreturns : ReturnsEnd (textOf parts))
    (hsplit : textOf parts = before ++ behind) (hend : AtLineEnd behind) :
    ∃ (x y : Nat) (f : Bool), before.foldl Scan.next .start = outside x y f ∧
      (OpenAt [.node .program parts] before.length ↔ x + y ≠ 0) := by
  have hcounts := counts_of_nested hnested (by rwa [List.append_nil])
  obtain ⟨x, y, f, hfold, hopen⟩ := hcounts before behind hsplit (by rwa [List.append_nil]) 0 0
  refine ⟨x, y, f, ?_, (openAt_plain rfl).trans hopen⟩
  rw [Int.zero_add, Int.zero_add] at hfold
  exact hfold

theorem isComplete_iff {text : String} {x y : Nat} {f : Bool}
    (h : text.toList.foldl Scan.next .start = outside x y f) :
    isComplete text = true ↔ x + y = 0 := by
  simp only [isComplete, h, outside, Bool.and_eq_true, decide_eq_true_eq, Bool.not_false, and_true]
  omega

/-! ## Lines typed one by one -/

def withoutReturns (text : List Char) : List Char :=
  text.filter fun c => c != '\r'

/-- Lines, each with its end. -/
def typed (lines : List String) : List Char :=
  lines.flatMap fun line => line.toList ++ ['\n']

def joined (pending line : String) : String :=
  if pending.isEmpty then line else pending ++ "\n" ++ line

def pendingNext (pending line : String) : String :=
  match feed pending line with
  | .pending text => text
  | .input _ => ""

/-- What is pending after some lines at a fresh prompt. -/
def pendingAfter (lines : List String) : String :=
  lines.foldl pendingNext ""

theorem foldl_withoutReturns (text : List Char) (s : Scan) :
    (withoutReturns text).foldl Scan.next s = text.foldl Scan.next s := by
  induction text generalizing s with
  | nil => rfl
  | cons c text ih =>
    by_cases hc : c = '\r'
    · subst hc
      rw [List.foldl_cons, next_return, ← ih]
      rfl
    · rw [withoutReturns, List.filter_cons_of_pos (by simpa using hc)]
      exact ih (s.next c)

theorem foldl_eq_of_withoutReturns {text text' : List Char}
    (h : withoutReturns text = withoutReturns text') :
    text.foldl Scan.next .start = text'.foldl Scan.next .start := by
  rw [← foldl_withoutReturns, h, foldl_withoutReturns]

theorem withoutReturns_append (text text' : List Char) :
    withoutReturns (text ++ text') = withoutReturns text ++ withoutReturns text' :=
  List.filter_append text text'

theorem next_of_isWhiteSpace {c : Char} (h : isWhiteSpace c = true) :
    Scan.start.next c = .start := by
  have hne : ∀ d, isWhiteSpace d = false → c ≠ d := by
    intro d hd heq
    rw [heq, hd] at h
    cases h
  simp [Scan.next, Scan.start, hne '"' rfl, hne '#' rfl, hne '\x7b' rfl, hne '\x7d' rfl,
    hne '(' rfl, hne ')' rfl]

theorem isComplete_of_blank {line : String} (h : trimmed line.toList = []) :
    isComplete line = true := by
  have hwhite := List.dropWhile_eq_nil_iff.1 (dropWhile_of_trimmed_nil h)
  have hscan : line.toList.foldl Scan.next .start = .start := by
    generalize line.toList = text at hwhite
    induction text with
    | nil => rfl
    | cons c text ih =>
      obtain ⟨hc, htext⟩ := List.forall_mem_cons.1 hwhite
      rw [List.foldl_cons, next_of_isWhiteSpace hc]
      exact ih htext
  rw [isComplete, hscan]
  rfl

/-- A line that is not a blank one at a fresh prompt goes behind the pending lines. -/
theorem feed_of_visible {pending line : String}
    (h : ¬(pending.isEmpty && (trimmed line.toList).isEmpty) = true) :
    feed pending line =
      if isComplete (joined pending line) = true then .input (joined pending line)
      else .pending (joined pending line) := by
  rw [feed, if_neg h]
  rfl

/-- A line is submitted if the pending lines are complete with it. -/
theorem feed_cases (pending line : String) :
    (isComplete (joined pending line) = true ∧ ∃ input, feed pending line = .input input) ∨
      isComplete (joined pending line) = false ∧
        feed pending line = .pending (joined pending line) := by
  by_cases hblank : (pending.isEmpty && (trimmed line.toList).isEmpty) = true
  · obtain ⟨hfresh, htrimmed⟩ := Bool.and_eq_true_iff.1 hblank
    refine .inl ⟨?_, "", by rw [feed, if_pos hblank]⟩
    rw [joined, if_pos hfresh]
    exact isComplete_of_blank (List.isEmpty_iff.1 htrimmed)
  · rw [feed_of_visible hblank]
    by_cases hcomplete : isComplete (joined pending line) = true
    · rw [if_pos hcomplete]
      exact .inl ⟨hcomplete, _, rfl⟩
    · rw [if_neg hcomplete]
      exact .inr ⟨Bool.eq_false_iff.2 hcomplete, rfl⟩

theorem exists_input_iff (pending line : String) :
    (∃ input, feed pending line = .input input) ↔ isComplete (joined pending line) = true := by
  rcases feed_cases pending line with ⟨hcomplete, hinput⟩ | ⟨hpending, hfeed⟩
  · exact iff_of_true hinput hcomplete
  · simp [hfeed, hpending]

/-- The lines that are pending, the last with its end. -/
def pendingText (pending : String) : List Char :=
  if pending.isEmpty then [] else pending.toList ++ ['\n']

theorem toList_joined (pending line : String) :
    (joined pending line).toList = pendingText pending ++ line.toList := by
  by_cases hfresh : pending.isEmpty = true
  · rw [joined, if_pos hfresh, pendingText, if_pos hfresh, List.nil_append]
  · rw [joined, if_neg hfresh, pendingText, if_neg hfresh, String.toList_append,
      String.toList_append]
    rfl

/-- A line keeps the scan of all text and that of the pending text the same: at a submission both
are back at the start. -/
theorem foldl_pendingNext {pending line : String} {text : List Char} {x y : Nat} {f : Bool}
    (hpending : text.foldl Scan.next .start = (pendingText pending).foldl Scan.next .start)
    (hscan : (text ++ line.toList).foldl Scan.next .start = outside x y f) :
    (text ++ (line.toList ++ ['\n'])).foldl Scan.next .start =
      (pendingText (pendingNext pending line)).foldl Scan.next .start := by
  have hjoined : (joined pending line).toList.foldl Scan.next .start = outside x y f := by
    rw [toList_joined, List.foldl_append, ← hpending, ← List.foldl_append, hscan]
  rw [← List.append_assoc, List.foldl_append, hscan]
  rcases feed_cases pending line with ⟨hcomplete, input, hinput⟩ | ⟨hopen, hfeed⟩
  · have hzero := (isComplete_iff hjoined).1 hcomplete
    obtain ⟨rfl, rfl⟩ : x = 0 ∧ y = 0 := by omega
    rw [pendingNext, hinput]
    cases f <;> rfl
  · have hne : (joined pending line).isEmpty = false := by
      rw [Bool.eq_false_iff]
      intro hempty
      rw [String.isEmpty_iff.1 hempty] at hopen
      cases hopen
    rw [pendingNext, hfeed, pendingText, hne, if_neg Bool.false_ne_true, List.foldl_append, hjoined]

/-- As long as the scan is outside of strings at the end of each line, the lines that were submitted
do not matter for it. -/
theorem foldl_pendingAfter {source : List Char}
    (hscans : ∀ before behind, source = before ++ '\n' :: behind →
      ∃ (x y : Nat) (f : Bool), before.foldl Scan.next .start = outside x y f)
    (lines : List String) (pending : String) (text more : List Char)
    (hsource : withoutReturns source = withoutReturns (text ++ typed lines) ++ more)
    (hpending : text.foldl Scan.next .start = (pendingText pending).foldl Scan.next .start) :
    (text ++ typed lines).foldl Scan.next .start =
      (pendingText (lines.foldl pendingNext pending)).foldl Scan.next .start := by
  induction lines generalizing pending text with
  | nil =>
    rw [typed, List.flatMap_nil, List.append_nil]
    exact hpending
  | cons line lines ih =>
    have htyped : text ++ typed (line :: lines) =
        (text ++ (line.toList ++ ['\n'])) ++ typed lines := by
      rw [List.append_assoc]
      rfl
    rw [htyped] at hsource ⊢
    have hcut : withoutReturns source = withoutReturns (text ++ line.toList) ++
        '\n' :: (withoutReturns (typed lines) ++ more) := by
      rw [hsource]
      simp [withoutReturns]
    -- the end of this line is a line feed of the source too, perhaps behind some returns
    obtain ⟨before, back, rfl, hbefore, hback⟩ := List.filter_eq_append_iff.1 hcut
    obtain ⟨front, behind, rfl, hfront, -, -⟩ := List.filter_eq_cons_iff.1 hback
    obtain ⟨x, y, f, hscan⟩ := hscans (before ++ front) behind (List.append_assoc _ _ _).symm
    have hsame : withoutReturns (before ++ front) = withoutReturns (text ++ line.toList) := by
      have hnone : withoutReturns front = [] := List.filter_eq_nil_iff.2 hfront
      rw [withoutReturns_append, hnone, List.append_nil]
      exact hbefore
    rw [foldl_eq_of_withoutReturns hsame] at hscan
    exact ih _ _ hsource (foldl_pendingNext hpending hscan)

theorem exists_match_of_parse {source : String} {file : Option String} {p : Program}
    (h : Program.parse source file = .ok p) :
    ∃ parts, rules.parse .program source.toList = .matched [.node .program parts] [] ∧
      Nested parts [] ∧ textOf parts = source.toList := by
  obtain ⟨node, hnode, -⟩ := Reader.bind_eq_ok.1 h
  unfold Reader.nodeOf at hnode
  split at hnode
  · rename_i trees rest hmatch
    obtain ⟨fuel, parts, rfl, hrun, hnested⟩ := exists_parts_of_parse hmatch
    have htext : textOf parts ++ [] = source.toList := Peg.Grammar.textOf_run _ _ _ _ hrun
    have hwhole : textOf parts ++ [] ++ rest = source.toList :=
      Peg.Grammar.textOf_run _ _ _ _ hmatch
    have hrest : rest = [] := by
      rw [htext] at hwhole
      exact List.append_right_eq_self.1 hwhole
    rw [List.append_nil] at htext
    rw [hrest] at hmatch
    exact ⟨parts, hmatch, hnested, htext⟩
  · cases hnode

/-- At a line end of a program an input is complete if no bracket of the match is open there, and
lines typed one by one are submitted there and not before. -/
theorem isComplete_iff_not_openAt {source : String} {file : Option String} {p : Program}
    (h : Program.parse source file = .ok p) (hreturns : ReturnsEnd source.toList) :
    ∃ trees, rules.parse .program source.toList = .matched trees [] ∧ isComplete source = true ∧
      ∀ before behind, source.toList = before ++ behind → AtLineEnd behind →
        (isComplete (String.ofList before) = true ↔ ¬OpenAt trees before.length) ∧
          ∀ lines line, withoutReturns (typed lines ++ line.toList) = withoutReturns before →
            ((∃ input, feed (pendingAfter lines) line = .input input) ↔
              ¬OpenAt trees before.length) := by
  obtain ⟨parts, hmatch, hnested, hsource⟩ := exists_match_of_parse h
  rw [← hsource] at hreturns
  have hscans : ∀ before behind, source.toList = before ++ behind → AtLineEnd behind →
      ∃ (x y : Nat) (f : Bool), before.foldl Scan.next .start = outside x y f ∧
        (OpenAt [.node .program parts] before.length ↔ x + y ≠ 0) := by
    intro before behind hsplit hend
    exact exists_scan_of_match hnested hreturns (hsource.trans hsplit) hend
  refine ⟨_, hmatch, ?_, ?_⟩
  · obtain ⟨x, y, f, hscan, hopen⟩ := hscans source.toList [] (List.append_nil _).symm (.inl rfl)
    rw [isComplete_iff hscan]
    by_contra hne
    have hlt := (hopen.2 hne).lt
    rw [← hsource] at hlt
    exact absurd hlt (by simp [textOf, Peg.Tree.text])
  · intro before behind hsplit hend
    obtain ⟨x, y, f, hscan, hopen⟩ := hscans before behind hsplit hend
    constructor
    · rw [isComplete_iff (by rwa [String.toList_ofList]), hopen]
      omega
    · intro lines line hlines
      have hmore : withoutReturns source.toList = withoutReturns ([] ++ typed lines) ++
          (withoutReturns line.toList ++ withoutReturns behind) := by
        rw [hsplit, withoutReturns_append, ← hlines, withoutReturns_append, List.append_assoc,
          List.nil_append]
      have hpending := foldl_pendingAfter
        (fun before behind hcut => by
          obtain ⟨x, y, f, hscan, -⟩ := hscans before _ hcut (.inr ⟨behind, rfl⟩)
          exact ⟨x, y, f, hscan⟩) lines "" [] _ hmore rfl
      have hjoined : (joined (pendingAfter lines) line).toList.foldl Scan.next .start =
          outside x y f := by
        rw [← hscan, ← foldl_eq_of_withoutReturns hlines, toList_joined, List.foldl_append,
          List.foldl_append, pendingAfter, ← hpending]
        rfl
      rw [exists_input_iff, isComplete_iff hjoined, hopen]
      omega

/-- A block stays open behind a comment with a parenthesis and a quote in it. -/
theorem not_submitted_in_block : ∃ trees,
    rules.parse .program "if a \x7b # (\"\r\n b \x7d".toList = .matched trees [] ∧ OpenAt trees 12 ∧
      (¬∃ input, feed (pendingAfter []) "if a \x7b # (\"" = .input input) ∧
      ∃ input, feed (pendingAfter ["if a \x7b # (\""]) " b \x7d" = .input input := by
  have hread : (Program.parse "if a \x7b # (\"\r\n b \x7d" none).isOk = true := by decide +kernel
  have hreturns : ReturnsEnd "if a \x7b # (\"\r\n b \x7d".toList := by
    intro front back heq
    change "if a \x7b # (\"".toList ++ '\r' :: "\n b \x7d".toList = front ++ '\r' :: back at heq
    obtain ⟨-, -, hback⟩ := (List.append_cons_inj_of_notMem (by decide) (by decide)).1 heq
    exact ⟨_, hback.symm⟩
  cases hparse : Program.parse "if a \x7b # (\"\r\n b \x7d" none with
  | error e => simp [hparse, Except.isOk, Except.toBool] at hread
  | ok p =>
    obtain ⟨trees, hmatch, hcomplete, hends⟩ := isComplete_iff_not_openAt hparse hreturns
    obtain ⟨hbefore, hlines⟩ :=
      hends "if a \x7b # (\"\r".toList "\n b \x7d".toList rfl (.inr ⟨_, rfl⟩)
    have hopen : OpenAt trees 12 := by
      by_contra hnone
      cases hbefore.2 hnone
    refine ⟨trees, hmatch, hopen, ?_, ?_⟩
    · rw [hlines [] _ rfl]
      exact not_not.2 hopen
    · obtain ⟨hwhole, hlast⟩ := hends "if a \x7b # (\"\r\n b \x7d".toList [] rfl (.inl rfl)
      exact (hlast ["if a \x7b # (\""] _ rfl).2 (hwhole.1 hcomplete)

end BlockScript.Repl
