import BlockScript.Proofs.Grammar.Separators
import BlockScript.Proofs.Peg.Alike

/-!
# Brackets

Four rules put brackets around a part of what they match, and no other rule has a bracket among its
leaves.  So brackets nest as the nodes of a match do.  `Nested` says this of a match together with
the text behind it, and that layout and strings stop where they could not go on.

The patterns of the grammar are not balanced themselves, since a bracket rule has both brackets in
one sequence.  `leads` follows a pattern through the three stages of such a sequence, before, within
and behind its brackets; what a run leaves is then assembled along the stages.
-/

namespace BlockScript.Grammar

open Peg (Pattern Stops AllLeaves)
open Peg.Grammar
open Peg.Tree (textOf textOf_append)

/-- The characters of layout, strings, brackets and the semicolon. -/
def signs : List Char :=
  [' ', '\t', '\r', '\n', '#', '"', '(', ')', '\x7b', '\x7d', ';']

/-- A character that neither a bracket nor the border of a token or a statement can be made of. -/
def isInert (c : Char) : Bool :=
  !signs.contains c

theorem isInert_of_test (test : Char → Bool) (h : (signs.all fun c => !test c) = true) :
    ∀ c, test c = true → isInert c = true := by
  intro c hc
  have hall := List.all_eq_true.1 h
  simp only [isInert, Bool.not_eq_true', List.contains_eq_mem, decide_eq_false_iff_not]
  intro hmem
  simpa [hc] using hall c hmem

/-- The brackets among the leaves of a rule. -/
def bracketsOf : Rule → Option (Char × Char)
  | .block => some ('\x7b', '\x7d')
  | .parenthesized | .printStatement | .forStatement => some ('(', ')')
  | _ => none

/-- The rules whose text is part of the tree. -/
def isToken : Rule → Bool
  | .identifier | .integer | .float | .string => true
  | _ => false

/-- A match in front of a text, with its brackets closed in the node where they are opened. -/
inductive Nested : List (Peg.Tree Rule) → List Char → Prop
  | nil {rest : List Char} : Nested [] rest
  | leaf {chars : List Char} {trees : List (Peg.Tree Rule)} {rest : List Char}
      (hchars : ∀ c ∈ chars, isInert c = true) (htrees : Nested trees rest) :
      Nested (.leaf chars :: trees) rest
  | semicolon {trees : List (Peg.Tree Rule)} {rest : List Char} (htrees : Nested trees rest) :
      Nested (.leaf [';'] :: trees) rest
  | gap {text : List Char} {trees : List (Peg.Tree Rule)} {rest : List Char} (hne : text ≠ [])
      (hskip : rules.skip (text ++ (textOf trees ++ rest)) = textOf trees ++ rest)
      (htrees : Nested trees rest) : Nested (.gap text :: trees) rest
  | string {parts trees : List (Peg.Tree Rule)} {rest : List Char}
      (hstring : IsString (textOf parts))
      (hleaves : AllLeaves parts) (hstop : Stops startsQuote (textOf trees ++ rest))
      (htrees : Nested trees rest) : Nested (.node .string parts :: trees) rest
  | plain {rule : Rule} {parts trees : List (Peg.Tree Rule)} {rest : List Char}
      (hnone : bracketsOf rule = none) (hleaves : isToken rule = true → AllLeaves parts)
      (hparts : Nested parts (textOf trees ++ rest)) (htrees : Nested trees rest) :
      Nested (.node rule parts :: trees) rest
  | bracketed {rule : Rule} {opening closing : Char} {front inner back trees : List (Peg.Tree Rule)}
      {rest : List Char} (hsome : bracketsOf rule = some (opening, closing))
      (hfront : Nested front
        (opening :: (textOf inner ++ closing :: (textOf back ++ (textOf trees ++ rest)))))
      (hinner : Nested inner (closing :: (textOf back ++ (textOf trees ++ rest))))
      (hback : Nested back (textOf trees ++ rest)) (htrees : Nested trees rest) :
      Nested (.node rule (front ++ .leaf [opening] :: (inner ++ .leaf [closing] :: back)) :: trees)
        rest

theorem Nested.append {front back : List (Peg.Tree Rule)} {rest : List Char}
    (hfront : Nested front (textOf back ++ rest)) (hback : Nested back rest) :
    Nested (front ++ back) rest := by
  generalize hmiddle : textOf back ++ rest = middle at hfront
  have hrest : ∀ trees : List (Peg.Tree Rule),
      textOf trees ++ middle = textOf (trees ++ back) ++ rest := by
    intro trees
    rw [textOf_append, List.append_assoc, hmiddle]
  induction hfront with
  | nil => exact hback
  | leaf hchars _ ih => exact .leaf hchars (ih hmiddle hrest)
  | semicolon _ ih => exact .semicolon (ih hmiddle hrest)
  | gap hne hskip _ ih =>
    subst hmiddle
    rw [hrest] at hskip
    exact .gap hne hskip (ih rfl hrest)
  | string hstring hleaves hstop _ ih =>
    subst hmiddle
    rw [hrest] at hstop
    exact .string hstring hleaves hstop (ih rfl hrest)
  | plain hnone hleaves hparts _ _ ih =>
    subst hmiddle
    rw [hrest] at hparts
    exact .plain hnone hleaves hparts (ih rfl hrest)
  | bracketed hsome hopen hinner hclose _ _ _ _ ih =>
    subst hmiddle
    rw [hrest] at hopen hinner hclose
    exact .bracketed hsome hopen hinner hclose (ih rfl hrest)

/-! ## The stages of a sequence -/

inductive Stage where
  | before
  | within
  | behind
  deriving DecidableEq, Repr, Inhabited

/-- The rules that are entered for the nodes of a program. -/
def isPart (r : Rule) : Bool :=
  !(hidden r || r = .program || r = .soleExpression)

/-- The stage that a leaf leads to.  A semicolon stands within brackets, or anywhere if it may be
`bare`. -/
def advance (brackets : Option (Char × Char)) (bare : Bool) (chars : List Char) (i : Stage) :
    Option Stage :=
  if chars.all isInert then some i
  else if chars = [';'] then (if bare || i = .within then some i else none)
  else
    match brackets, i with
    | some (opening, _), .before => if chars = [opening] then some .within else none
    | some (_, closing), .within => if chars = [closing] then some .behind else none
    | _, _ => none

/-- The stage that a pattern leads to, if it respects the brackets. -/
def leads (brackets : Option (Char × Char)) (bare : Bool) : Pattern Rule → Stage → Option Stage
  | .text chars, i => advance brackets bare chars i
  | .char _, i | .layout, i | .finish, i => some i
  | .seq p q, i => (leads brackets bare p i).bind (leads brackets bare q)
  | .alt p q, i =>
    if leads brackets bare p i = leads brackets bare q i then leads brackets bare p i else none
  | .star p, i | .opt p, i => if leads brackets bare p i = some i then some i else none
  | .absent p, i => (leads brackets bare p i).map fun _ => i
  | .rule r, i => if isPart r then some i else none

/-- The classes of characters in a pattern hold none of the signs. -/
def IsInertPattern : Pattern Rule → Prop
  | .char test => ∀ c, test c = true → isInert c = true
  | .seq p q | .alt p q => IsInertPattern p ∧ IsInertPattern q
  | .star p | .opt p | .absent p => IsInertPattern p
  | .text _ | .layout | .finish | .rule _ => True

def lastStage (r : Rule) : Stage :=
  if (bracketsOf r).isSome then .behind else .before

theorem leads_pattern {r : Rule} (hpart : isPart r = true) (hstring : r ≠ .string) (bare : Bool) :
    leads (bracketsOf r) bare (pattern r) .before = some (lastStage r) := by
  have hall : (Rule.all.all fun r => !isPart r || r = .string || [true, false].all fun bare =>
      leads (bracketsOf r) bare (pattern r) .before = some (lastStage r)) = true := by decide
  have hr := List.all_eq_true.1 hall r (Rule.mem_all r)
  cases bare <;> simp_all

theorem isInertPattern_pattern {r : Rule} (hpart : isPart r = true ∨ r = .program)
    (hstring : r ≠ .string) : IsInertPattern (pattern r) := by
  have hword := isInert_of_test isWordChar (by decide)
  have hstart := isInert_of_test isWordStart (by decide)
  have hdigit := isInert_of_test Char.isDigit (by decide)
  have hmark := isInert_of_test (fun c => c = 'e' || c = 'E') (by decide)
  have hsign := isInert_of_test (fun c => c = '+' || c = '-') (by decide)
  cases r
  case string => exact absurd rfl hstring
  case blank | comment => simp [isPart, hidden] at hpart
  all_goals
    repeat' first
      | exact trivial
      | exact hword
      | exact hstart
      | exact hdigit
      | exact hmark
      | exact hsign
      | apply And.intro

/-! ## Nesting of matches -/

/-- A match that leads from one stage of a sequence to another, with the bracket between them. -/
inductive Staged (brackets : Option (Char × Char)) :
    Stage → List (Peg.Tree Rule) → List Char → Stage → Prop
  | stay {i : Stage} {trees : List (Peg.Tree Rule)} {rest : List Char}
      (htrees : Nested trees rest) :
      Staged brackets i trees rest i
  | opened {opening closing : Char} {front inner : List (Peg.Tree Rule)} {rest : List Char}
      (hbrackets : brackets = some (opening, closing))
      (hfront : Nested front (opening :: (textOf inner ++ rest))) (hinner : Nested inner rest) :
      Staged brackets .before (front ++ .leaf [opening] :: inner) rest .within
  | closed {opening closing : Char} {inner back : List (Peg.Tree Rule)} {rest : List Char}
      (hbrackets : brackets = some (opening, closing))
      (hinner : Nested inner (closing :: (textOf back ++ rest))) (hback : Nested back rest) :
      Staged brackets .within (inner ++ .leaf [closing] :: back) rest .behind
  | whole {opening closing : Char} {front inner back : List (Peg.Tree Rule)} {rest : List Char}
      (hbrackets : brackets = some (opening, closing))
      (hfront : Nested front (opening :: (textOf inner ++ closing :: (textOf back ++ rest))))
      (hinner : Nested inner (closing :: (textOf back ++ rest))) (hback : Nested back rest) :
      Staged brackets .before (front ++ .leaf [opening] :: (inner ++ .leaf [closing] :: back)) rest
        .behind

@[simp] theorem textOf_leaf_cons (chars : List Char) (trees : List (Peg.Tree Rule)) :
    textOf (.leaf chars :: trees) = chars ++ textOf trees := rfl

theorem Staged.append {brackets : Option (Char × Char)} {i j k : Stage}
    {front back : List (Peg.Tree Rule)} {rest : List Char}
    (hfront : Staged brackets i front (textOf back ++ rest) j)
    (hback : Staged brackets j back rest k) : Staged brackets i (front ++ back) rest k := by
  cases hfront with
  | stay hfront =>
    cases hback with
    | stay hback => exact .stay (hfront.append hback)
    | opened hbrackets hopen hinner =>
      rw [← List.append_assoc]
      exact .opened hbrackets (.append (by simpa [textOf_append] using hfront) hopen) hinner
    | closed hbrackets hinner hclose =>
      rw [← List.append_assoc]
      exact .closed hbrackets (.append (by simpa [textOf_append] using hfront) hinner) hclose
    | whole hbrackets hopen hinner hclose =>
      rw [← List.append_assoc]
      exact .whole hbrackets (.append (by simpa [textOf_append] using hfront) hopen) hinner hclose
  | opened hbrackets hopen hinner =>
    rw [List.append_assoc, List.cons_append]
    cases hback with
    | stay hback =>
      exact .opened hbrackets (by simpa [textOf_append] using hopen) (hinner.append hback)
    | closed hbrackets' hinner' hclose =>
      obtain ⟨rfl, rfl⟩ := Prod.mk.inj (Option.some.inj (hbrackets.symm.trans hbrackets'))
      rw [← List.append_assoc]
      exact .whole hbrackets (by simpa [textOf_append] using hopen)
        (.append (by simpa [textOf_append] using hinner) hinner') hclose
  | closed hbrackets hinner hclose =>
    rw [List.append_assoc, List.cons_append]
    cases hback with
    | stay hback =>
      exact .closed hbrackets (by simpa [textOf_append] using hinner) (hclose.append hback)
  | whole hbrackets hopen hinner hclose =>
    rw [List.append_assoc, List.cons_append, List.append_assoc, List.cons_append]
    cases hback with
    | stay hback =>
      exact .whole hbrackets (by simpa [textOf_append] using hopen)
        (by simpa [textOf_append] using hinner) (hclose.append hback)

theorem Nested.gapOf {text rest : List Char} (h : rules.skip (text ++ rest) = rest) :
    Nested (Peg.gapOf text) rest := by
  cases text with
  | nil => exact .nil
  | cons c text => exact .gap (List.cons_ne_nil _ _) h .nil

/-- A token of text is inert, a semicolon, or the bracket of the stage. -/
theorem staged_leaf {brackets : Option (Char × Char)} {bare : Bool} {chars : List Char}
    {i j : Stage} (h : advance brackets bare chars i = some j) (rest : List Char) :
    Staged brackets i [.leaf chars] rest j := by
  unfold advance at h
  split at h
  · rename_i hinert
    cases h
    exact .stay (.leaf (List.all_eq_true.1 hinert) .nil)
  · split at h
    · rename_i hsemicolon
      subst hsemicolon
      split at h <;> cases h
      exact .stay (.semicolon .nil)
    · split at h
      · split at h <;> cases h
        rename_i hchars
        subst hchars
        exact @Staged.opened _ _ _ [] [] rest rfl .nil .nil
      · split at h <;> cases h
        rename_i hchars
        subst hchars
        exact @Staged.closed _ _ _ [] [] rest rfl .nil .nil
      · cases h

theorem nested_string {s rest : List Char} {parts : List (Peg.Tree Rule)}
    (h : rules.Gives (pattern .string) s (.matched parts rest)) :
    Nested [.node .string parts] rest := by
  have hgives : rules.Gives (.rule .string) s (.matched [.node .string parts] rest) := .rule h
  obtain ⟨⟨hstring, hstop⟩, -⟩ := reads_string.1 (hgives.reads .start)
  rw [textOf, textOf, List.append_nil] at hstring
  exact .string hstring (h.allLeaves (by decide)) hstop .nil

/-- A node is nested if its parts lead through the stages of its rule. -/
theorem Staged.node {r : Rule} {parts : List (Peg.Tree Rule)} {rest : List Char}
    (h : Staged (bracketsOf r) .before parts rest (lastStage r))
    (hleaves : isToken r = true → AllLeaves parts) : Nested [.node r parts] rest := by
  unfold lastStage at h
  cases hbrackets : bracketsOf r with
  | none =>
    rw [hbrackets] at h
    cases h with
    | stay htrees => exact .plain hbrackets hleaves htrees .nil
  | some pair =>
    rw [hbrackets] at h
    cases h with
    | whole heq hfront hinner hback =>
      cases heq
      exact .bracketed hbrackets hfront hinner hback .nil

theorem isFlat_of_isToken {r : Rule} (h : isToken r = true) : (pattern r).isFlat = true := by
  cases r <;> first | rfl | cases h

theorem bracketsOf_of_isToken {r : Rule} (h : isToken r = true) : bracketsOf r = none := by
  cases r <;> first | rfl | cases h

/-- Every match of a pattern that respects the brackets leads through their stages. -/
theorem staged_of_run {brackets : Option (Char × Char)} {bare : Bool} {fuel : Nat}
    {p : Pattern Rule} {s rest : List Char} {trees : List (Peg.Tree Rule)} {i j : Stage}
    (hinert : IsInertPattern p) (hleads : leads brackets bare p i = some j)
    (h : rules.run fuel p s = .matched trees rest) : Staged brackets i trees rest j := by
  have hgives := gives_of_run h (by simp)
  clear h
  induction hgives using Gives.match_induction generalizing brackets i j with
  | text chars rest => exact staged_leaf hleads rest
  | char test c rest hc =>
    cases hleads
    exact .stay (.leaf (by simpa using hinert c hc) .nil)
  | layout s =>
    cases hleads
    exact .stay (.gapOf (by rw [List.take_append_drop]; rfl))
  | finish =>
    cases hleads
    exact .stay .nil
  | absent =>
    obtain ⟨_, -, rfl⟩ := Option.map_eq_some_iff.1 hleads
    exact .stay .nil
  | seq first second _ _ rest front back _ hback ihFront ihBack =>
    obtain ⟨middle, hfirst, hsecond⟩ := Option.bind_eq_some_iff.1 hleads
    obtain rfl := hback.textOf
    exact (ihFront hinert.1 hfirst).append (ihBack hinert.2 hsecond)
  | first first second _ _ _ _ ih =>
    rw [leads] at hleads
    split at hleads
    · exact ih hinert.1 hleads
    · cases hleads
  | second first second _ _ _ _ _ ih =>
    rw [leads] at hleads
    split at hleads
    · rename_i hsame
      exact ih hinert.2 (hsame ▸ hleads)
    · cases hleads
  | stop =>
    rw [leads] at hleads
    split at hleads <;> cases hleads
    exact .stay .nil
  | again body _ _ rest front back _ hback ihFront ihBack =>
    have hstar := hleads
    rw [leads] at hleads
    split at hleads <;> cases hleads
    rename_i hbody
    obtain rfl := hback.textOf
    exact (ihFront hinert hbody).append (ihBack hinert hstar)
  | present body _ _ _ _ ih =>
    rw [leads] at hleads
    split at hleads <;> cases hleads
    rename_i hbody
    exact ih hinert hbody
  | missing =>
    rw [leads] at hleads
    split at hleads <;> cases hleads
    exact .stay .nil
  | rule r s rest parts hparts ih =>
    rw [leads] at hleads
    split at hleads <;> cases hleads
    rename_i hpart
    have hhidden : hidden r = false := by
      simp only [isPart, Bool.not_eq_true', Bool.or_eq_false_iff] at hpart
      exact hpart.1.1
    have hwrap : rules.wrap r parts = [.node r parts] := by
      rw [wrap]
      exact if_neg (by simp [rules, hhidden])
    rw [hwrap]
    by_cases hstring : r = .string
    · subst hstring
      exact .stay (nested_string hparts)
    · have hstaged := ih (isInertPattern_pattern (.inl hpart) hstring)
        (leads_pattern hpart hstring bare)
      exact .stay (hstaged.node fun htoken => hparts.allLeaves (isFlat_of_isToken htoken))

end BlockScript.Grammar
