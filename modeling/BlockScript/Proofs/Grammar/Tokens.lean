import BlockScript.Proofs.Grammar.Ranking

/-!
# Tokens

What the rules for layout, words, numbers and strings take, as conditions on the text.  A word goes
as far as there are characters for it, and a keyword is never an identifier; a number or a string is
the same token in front of every text that it stops at.
-/

namespace BlockScript.Grammar

open Peg (Stops)
open Peg.Grammar

variable {pos : Position} {w rest : List Char} {nodes : List (Peg.Node Rule)}

/-! ## Layout -/

@[simp] theorem skip_nil : rules.skip [] = [] := rfl

theorem skip_cons_of_blank {c : Char} (h : isBlank c = true) (s : List Char) :
    rules.skip (c :: s) = rules.skip s := by
  change (c :: s).drop (layoutLength (c :: s)) = s.drop (layoutLength s)
  simp [layoutLength, h]

theorem skip_cons_of_solid {c : Char} (hblank : isBlank c = false) (hcomment : c ≠ '#')
    (s : List Char) : rules.skip (c :: s) = c :: s := by
  change (c :: s).drop (layoutLength (c :: s)) = c :: s
  simp [layoutLength, hblank, hcomment]

mutual

theorem layoutLength_drop : ∀ s : List Char, layoutLength (s.drop (layoutLength s)) = 0
  | [] => rfl
  | c :: s => by
    rw [layoutLength]
    split
    · exact layoutLength_drop s
    · split
      · exact layoutLength_drop_comment s
      · rename_i hblank hcomment
        simp [layoutLength, hblank, hcomment]

theorem layoutLength_drop_comment : ∀ s : List Char, layoutLength (s.drop (commentLength s)) = 0
  | [] => rfl
  | c :: s => by
    rw [commentLength]
    split
    · exact layoutLength_drop s
    · exact layoutLength_drop_comment s

end

@[simp] theorem skip_skip (s : List Char) : rules.skip (rules.skip s) = rules.skip s := by
  change (rules.skip s).drop (layoutLength (s.drop (layoutLength s))) = rules.skip s
  rw [layoutLength_drop, List.drop_zero]

/-! ## Words -/

theorem reads_wholeWord {s : String} :
    rules.Reads (wholeWord s) pos w rest nodes ↔
      w = s.toList ∧ Stops isWordChar rest ∧ nodes = [] := by
  change rules.Reads (.seq (.text s.toList) (.absent (.char isWordChar))) pos w rest nodes ↔ _
  rw [reads_seq]
  constructor
  · rintro ⟨front, back, before, behind, rfl, rfl, hword, hend⟩
    obtain ⟨rfl, rfl⟩ := reads_text.1 hword
    obtain ⟨rfl, rfl, hrest⟩ := reads_absent.1 hend
    exact ⟨List.append_nil _, fails_char.1 hrest, rfl⟩
  · rintro ⟨rfl, hrest, rfl⟩
    exact ⟨s.toList, [], [], [], by simp, rfl, reads_text.2 ⟨rfl, rfl⟩,
      reads_absent.2 ⟨rfl, rfl, fails_char.2 hrest⟩⟩

theorem reads_anyOf_words {words : List String}
    (h : rules.Reads (.anyOf (words.map .word)) pos w rest nodes) :
    w ∈ words.map String.toList ∧ nodes = [] := by
  obtain ⟨p, hp, hread⟩ := h.of_anyOf
  obtain ⟨s, hs, rfl⟩ := List.mem_map.1 hp
  obtain ⟨rfl, rfl⟩ := reads_text.1 hread
  exact ⟨List.mem_map_of_mem hs, rfl⟩

/-- No keyword begins with another one, so the first one that matches is the whole word. -/
theorem reads_anyOf_keywords {k : String} (hk : k ∈ keywords) :
    rules.Reads (.anyOf (keywords.map .word)) pos k.toList rest [] := by
  simp only [keywords, List.mem_cons, List.not_mem_nil, or_false] at hk
  rcases hk with rfl | rfl | rfl | rfl | rfl | rfl | rfl | rfl | rfl | rfl | rfl | rfl | rfl
  all_goals exact ⟨20, _, rfl, rfl⟩

theorem reads_keyword :
    rules.Reads keyword pos w rest nodes ↔
      w ∈ keywords.map String.toList ∧ Stops isWordChar rest ∧ nodes = [] := by
  change rules.Reads (.seq (.anyOf (keywords.map .word)) (.absent (.char isWordChar))) pos w rest
    nodes ↔ _
  rw [reads_seq]
  constructor
  · rintro ⟨front, back, before, behind, rfl, rfl, hword, hend⟩
    obtain ⟨hmem, rfl⟩ := reads_anyOf_words hword
    obtain ⟨rfl, rfl, hrest⟩ := reads_absent.1 hend
    exact ⟨by simpa using hmem, fails_char.1 hrest, rfl⟩
  · rintro ⟨hw, hrest, rfl⟩
    obtain ⟨k, hk, rfl⟩ := List.mem_map.1 hw
    exact ⟨k.toList, [], [], [], by simp, rfl, reads_anyOf_keywords hk,
      reads_absent.2 ⟨rfl, rfl, fails_char.2 hrest⟩⟩

/-- A word that is no keyword. -/
def IsIdentifier (w : List Char) : Prop :=
  ∃ c s, w = c :: s ∧ isWordStart c = true ∧ (∀ d ∈ s, isWordChar d = true) ∧
    w ∉ keywords.map String.toList

theorem isWordChar_of_isWordStart {c : Char} (h : isWordStart c = true) : isWordChar c = true := by
  simp only [isWordStart, isWordChar, Char.isAlphanum, Bool.or_eq_true] at h ⊢
  exact h.imp_left .inl

theorem isWordChar_of_mem_keyword {k : List Char} (hk : k ∈ keywords.map String.toList) :
    ∀ c ∈ k, isWordChar c = true := by
  have hall : ((keywords.map String.toList).all fun k => k.all isWordChar) = true := by decide
  exact List.all_eq_true.1 (List.all_eq_true.1 hall k hk)

theorem IsIdentifier.wordChars (h : IsIdentifier w) : ∀ c ∈ w, isWordChar c = true := by
  obtain ⟨c, s, rfl, hc, hs, -⟩ := h
  exact List.forall_mem_cons.2 ⟨isWordChar_of_isWordStart hc, hs⟩

theorem IsIdentifier.fails_keyword (h : IsIdentifier w) (hrest : Stops isWordChar rest) :
    rules.Fails keyword (w ++ rest) := by
  apply ranking.fails_of_not_reads rfl
  intro pos w' rest' nodes heq hread
  obtain ⟨hkeyword, hrest', -⟩ := reads_keyword.1 hread
  obtain ⟨rfl, -⟩ := Peg.append_inj_of_stops h.wordChars (isWordChar_of_mem_keyword hkeyword)
    hrest hrest' heq
  obtain ⟨c, s, -, -, -, hnot⟩ := h
  exact hnot hkeyword

theorem reads_identifier :
    rules.Reads (.rule .identifier) pos w rest nodes ↔
      (IsIdentifier w ∧ Stops isWordChar rest) ∧
        nodes = [.mk .identifier pos (pos.afterAll w) w []] := by
  refine reads_leaf rfl fun children => ?_
  change rules.Reads (.seq (.absent keyword) (.seq (.char isWordStart)
    (.star (.char isWordChar)))) pos w rest children ↔ _
  rw [reads_seq]
  constructor
  · rintro ⟨front, back, before, behind, rfl, rfl, habsent, hword⟩
    obtain ⟨rfl, rfl, hkeyword⟩ := reads_absent.1 habsent
    obtain ⟨_, s, _, _, rfl, rfl, hstart, hmore⟩ := reads_seq.1 hword
    obtain ⟨c, hc, rfl, rfl⟩ := reads_char.1 hstart
    obtain ⟨hs, hrest, rfl⟩ := reads_star_char.1 hmore
    refine ⟨⟨⟨c, s, rfl, hc, hs, fun hmem => ?_⟩, hrest⟩, rfl⟩
    have hread : rules.Reads keyword pos (c :: s) rest [] := reads_keyword.2 ⟨hmem, hrest, rfl⟩
    exact hread.not_fails hkeyword
  · rintro ⟨⟨hw, hrest⟩, rfl⟩
    have hkeyword := hw.fails_keyword hrest
    obtain ⟨c, s, rfl, hc, hs, -⟩ := hw
    refine ⟨[], c :: s, [], [], rfl, rfl, reads_absent.2 ⟨rfl, rfl, hkeyword⟩, ?_⟩
    exact reads_seq.2 ⟨[c], s, [], [], rfl, rfl, reads_char.2 ⟨c, hc, rfl, rfl⟩,
      reads_star_char.2 ⟨hs, hrest, rfl⟩⟩

/-- Where one word ends, no other one does. -/
theorem fails_wholeWord_of_ne (hw : ∀ c ∈ w, isWordChar c = true) (hrest : Stops isWordChar rest)
    {k : String} (hk : k ∈ keywords) (hne : w ≠ k.toList) :
    rules.Fails (wholeWord k) (w ++ rest) := by
  apply ranking.fails_of_not_reads rfl
  intro pos w' rest' nodes heq hread
  obtain ⟨rfl, hrest', -⟩ := reads_wholeWord.1 hread
  have hmem : k.toList ∈ keywords.map String.toList := List.mem_map_of_mem hk
  exact hne (Peg.append_inj_of_stops hw (isWordChar_of_mem_keyword hmem) hrest hrest' heq).1

theorem IsIdentifier.fails_wholeWord (h : IsIdentifier w) (hrest : Stops isWordChar rest)
    {k : String} (hk : k ∈ keywords) : rules.Fails (wholeWord k) (w ++ rest) := by
  refine fails_wholeWord_of_ne h.wordChars hrest hk ?_
  rintro rfl
  obtain ⟨c, s, -, -, -, hnot⟩ := h
  exact hnot (List.mem_map_of_mem hk)

theorem fails_identifier_of_keyword {k : String} (hk : k ∈ keywords)
    (hrest : Stops isWordChar rest) : rules.Fails (.rule .identifier) (k.toList ++ rest) := by
  apply ranking.fails_of_not_reads rfl
  intro pos w rest' nodes heq hread
  obtain ⟨⟨hw, hrest'⟩, -⟩ := reads_identifier.1 hread
  have hmem : k.toList ∈ keywords.map String.toList := List.mem_map_of_mem hk
  obtain ⟨rfl, -⟩ := Peg.append_inj_of_stops (isWordChar_of_mem_keyword hmem) hw.wordChars
    hrest hrest' heq
  obtain ⟨c, s, -, -, -, hnot⟩ := hw
  exact hnot hmem

/-! ## Numbers -/

def IsDigits (w : List Char) : Prop :=
  ∀ c ∈ w, c.isDigit = true

theorem reads_integer :
    rules.Reads (.rule .integer) pos w rest nodes ↔
      (w ≠ [] ∧ IsDigits w ∧ Stops Char.isDigit rest) ∧
        nodes = [.mk .integer pos (pos.afterAll w) w []] := by
  refine reads_leaf rfl fun children => ?_
  exact reads_oneOrMore_char.trans (by simp [IsDigits, and_assoc])

/-- The mark, the sign if there is one, and the digits of an exponent. -/
def IsExponent (w : List Char) : Prop :=
  ∃ mark sign digits, w = mark :: (sign ++ digits) ∧ (mark = 'e' ∨ mark = 'E') ∧
    (sign = [] ∨ sign = ['+'] ∨ sign = ['-']) ∧ digits ≠ [] ∧ IsDigits digits

theorem reads_exponent :
    rules.Reads exponent pos w rest nodes ↔
      IsExponent w ∧ Stops Char.isDigit rest ∧ nodes = [] := by
  change rules.Reads (.seq (.char fun c => c = 'e' || c = 'E')
    (.seq (.opt (.char fun c => c = '+' || c = '-')) (.oneOrMore (.char Char.isDigit)))) pos w rest
    nodes ↔ _
  rw [reads_seq]
  constructor
  · rintro ⟨_, _, _, _, rfl, rfl, hchar, htail⟩
    obtain ⟨mark, hmark, rfl, rfl⟩ := reads_char.1 hchar
    obtain ⟨sign, digits, _, _, rfl, rfl, hsign, hdigits⟩ := reads_seq.1 htail
    obtain ⟨hne, hall, hrest, rfl⟩ := reads_oneOrMore_char.1 hdigits
    simp only [Bool.or_eq_true, decide_eq_true_eq] at hmark
    rcases reads_opt.1 hsign with hsign | ⟨-, rfl, rfl⟩
    · obtain ⟨c, hc, rfl, rfl⟩ := reads_char.1 hsign
      simp only [Bool.or_eq_true, decide_eq_true_eq] at hc
      refine ⟨⟨mark, [c], digits, rfl, hmark, ?_, hne, hall⟩, hrest, rfl⟩
      simpa using hc
    · exact ⟨⟨mark, [], digits, rfl, hmark, .inl rfl, hne, hall⟩, hrest, rfl⟩
  · rintro ⟨⟨mark, sign, digits, rfl, hmark, hsign, hne, hall⟩, hrest, rfl⟩
    refine ⟨[mark], sign ++ digits, [], [], rfl, rfl, reads_char.2 ⟨mark, ?_, rfl, rfl⟩, ?_⟩
    · simpa using hmark
    · refine reads_seq.2 ⟨sign, digits, [], [], rfl, rfl, reads_opt.2 ?_,
        reads_oneOrMore_char.2 ⟨hne, hall, hrest, rfl⟩⟩
      rcases hsign with rfl | rfl | rfl
      · -- a digit is no sign
        refine .inr ⟨fails_char.2 fun c tail heq => ?_, rfl, rfl⟩
        cases digits with
        | nil => exact absurd rfl hne
        | cons d digits =>
          obtain ⟨rfl, -⟩ := List.cons.inj heq
          have hd := hall d (by simp)
          simp only [Bool.or_eq_false_iff, decide_eq_false_iff_not]
          constructor <;> (rintro rfl; simp at hd)
      · exact .inl (reads_char.2 ⟨'+', rfl, rfl, rfl⟩)
      · exact .inl (reads_char.2 ⟨'-', rfl, rfl, rfl⟩)

/-- Digits around a point with or without an exponent, or digits with an exponent. -/
def IsFloat (w : List Char) : Prop :=
  (∃ whole fraction exponent, w = whole ++ '.' :: (fraction ++ exponent) ∧
      (whole ≠ [] ∨ fraction ≠ []) ∧ IsDigits whole ∧ IsDigits fraction ∧
      (exponent = [] ∨ IsExponent exponent)) ∨
    ∃ whole exponent, w = whole ++ exponent ∧ whole ≠ [] ∧ IsDigits whole ∧ IsExponent exponent

theorem reads_opt_exponent (h : rules.Reads (.opt exponent) pos w rest nodes) :
    (w = [] ∨ IsExponent w) ∧ nodes = [] := by
  rcases reads_opt.1 h with hread | ⟨-, rfl, rfl⟩
  · obtain ⟨hw, -, rfl⟩ := reads_exponent.1 hread
    exact ⟨.inr hw, rfl⟩
  · exact ⟨.inl rfl, rfl⟩

theorem isFloat_of_reads (h : rules.Reads (.rule .float) pos w rest nodes) : IsFloat w := by
  obtain ⟨children, hread, -⟩ := reads_rule.1 h
  change rules.Reads (.alt (.seq (.oneOrMore (.char Char.isDigit)) (.seq (.text ['.'])
      (.seq (.star (.char Char.isDigit)) (.opt exponent))))
    (.alt (.seq (.text ['.']) (.seq (.oneOrMore (.char Char.isDigit)) (.opt exponent)))
      (.seq (.oneOrMore (.char Char.isDigit)) exponent))) pos w rest children at hread
  rcases reads_alt.1 hread with hread | ⟨-, hread⟩
  · obtain ⟨whole, _, _, _, rfl, rfl, hwhole, hread⟩ := reads_seq.1 hread
    obtain ⟨_, _, _, _, rfl, rfl, hpoint, hread⟩ := reads_seq.1 hread
    obtain ⟨fraction, exponent, _, _, rfl, rfl, hfraction, hexponent⟩ := reads_seq.1 hread
    obtain ⟨hne, hdigits, -⟩ := reads_oneOrMore_char.1 hwhole
    obtain ⟨rfl, -⟩ := reads_text.1 hpoint
    exact .inl ⟨whole, fraction, exponent, rfl, .inl hne, hdigits,
      (reads_star_char.1 hfraction).1, (reads_opt_exponent hexponent).1⟩
  rcases reads_alt.1 hread with hread | ⟨-, hread⟩
  · obtain ⟨_, _, _, _, rfl, rfl, hpoint, hread⟩ := reads_seq.1 hread
    obtain ⟨fraction, exponent, _, _, rfl, rfl, hfraction, hexponent⟩ := reads_seq.1 hread
    obtain ⟨rfl, -⟩ := reads_text.1 hpoint
    obtain ⟨hne, hdigits, -⟩ := reads_oneOrMore_char.1 hfraction
    exact .inl ⟨[], fraction, exponent, rfl, .inr hne, by simp [IsDigits], hdigits,
      (reads_opt_exponent hexponent).1⟩
  · obtain ⟨whole, exponent, _, _, rfl, rfl, hwhole, hexponent⟩ := reads_seq.1 hread
    obtain ⟨hne, hdigits, -⟩ := reads_oneOrMore_char.1 hwhole
    exact .inr ⟨whole, exponent, rfl, hne, hdigits, (reads_exponent.1 hexponent).1⟩

/-- The characters that could continue a float. -/
def continuesFloat (c : Char) : Bool :=
  c.isDigit || c = 'e' || c = 'E'

theorem IsExponent.stops_digit (h : IsExponent w) (s : List Char) :
    Stops Char.isDigit (w ++ s) := by
  obtain ⟨mark, sign, digits, rfl, rfl | rfl, -⟩ := h <;> exact Peg.stops_cons.2 rfl

theorem stops_digit_of_continuesFloat (h : Stops continuesFloat rest) :
    Stops Char.isDigit rest := by
  intro c tail heq
  have hc := h c tail heq
  simp only [continuesFloat, Bool.or_eq_false_iff] at hc
  exact hc.1.1

theorem fails_exponent (h : Stops continuesFloat rest) : rules.Fails exponent rest := by
  refine fails_seq.2 (.inl (fails_char.2 fun c tail heq => ?_))
  have hc := h c tail heq
  simp only [continuesFloat, Bool.or_eq_false_iff] at hc
  simp [hc]

theorem reads_opt_exponent_of (h : w = [] ∨ IsExponent w) (hrest : Stops continuesFloat rest) :
    rules.Reads (.opt exponent) pos w rest [] := by
  rcases h with rfl | h
  · exact reads_opt.2 (.inr ⟨fails_exponent hrest, rfl, rfl⟩)
  · exact reads_opt.2 (.inl (reads_exponent.2 ⟨h, stops_digit_of_continuesFloat hrest, rfl⟩))

theorem stops_digit_of_exponent (h : w = [] ∨ IsExponent w) (hrest : Stops continuesFloat rest) :
    Stops Char.isDigit (w ++ rest) := by
  rcases h with rfl | h
  · exact stops_digit_of_continuesFloat hrest
  · exact h.stops_digit rest

theorem fails_oneOrMore_digit {s : List Char} (h : Stops Char.isDigit s) :
    rules.Fails (.oneOrMore (.char Char.isDigit)) s :=
  fails_seq.2 (.inl (fails_char.2 h))

/-- A float is read in front of every text that does not continue it. -/
theorem IsFloat.reads (h : IsFloat w) (hrest : Stops continuesFloat rest) :
    rules.Reads (.rule .float) pos w rest [.mk .float pos (pos.afterAll w) w []] := by
  refine reads_rule.2 ⟨[], ?_, rfl⟩
  rcases h with ⟨whole, fraction, exponent, rfl, hne, hwhole, hfraction, hexponent⟩ |
    ⟨whole, exponent, rfl, hne, hwhole, hexponent⟩
  · by_cases hempty : whole = []
    · -- without digits before the point only the second form matches
      subst hempty
      have hfails : rules.Fails (.oneOrMore (.char Char.isDigit))
          ('.' :: (fraction ++ exponent) ++ rest) := fails_oneOrMore_digit (Peg.stops_cons.2 rfl)
      refine reads_alt.2 (.inr ⟨fails_seq.2 (.inl hfails), reads_alt.2 (.inl ?_)⟩)
      refine reads_seq.2 ⟨['.'], fraction ++ exponent, [], [], rfl, rfl,
        reads_text.2 ⟨rfl, rfl⟩, ?_⟩
      refine reads_seq.2 ⟨fraction, exponent, [], [], rfl, rfl, ?_,
        reads_opt_exponent_of hexponent hrest⟩
      exact reads_oneOrMore_char.2 ⟨hne.resolve_left (by simp), hfraction,
        stops_digit_of_exponent hexponent hrest, rfl⟩
    · refine reads_alt.2 (.inl (reads_seq.2 ⟨whole, _, [], [], rfl, rfl, ?_, ?_⟩))
      · exact reads_oneOrMore_char.2 ⟨hempty, hwhole, Peg.stops_cons.2 rfl, rfl⟩
      · refine reads_seq.2 ⟨['.'], fraction ++ exponent, [], [], rfl, rfl,
          reads_text.2 ⟨rfl, rfl⟩, ?_⟩
        refine reads_seq.2 ⟨fraction, exponent, [], [], rfl, rfl, ?_,
          reads_opt_exponent_of hexponent hrest⟩
        exact reads_star_char.2 ⟨hfraction, stops_digit_of_exponent hexponent hrest, rfl⟩
  · have hdigits : rules.Reads (.oneOrMore (.char Char.isDigit)) pos whole (exponent ++ rest) [] :=
      reads_oneOrMore_char.2 ⟨hne, hwhole, hexponent.stops_digit rest, rfl⟩
    have hpoint : rules.Fails (.text ['.']) (exponent ++ rest) := by
      obtain ⟨mark, sign, digits, rfl, rfl | rfl, -⟩ := hexponent <;> simp
    have hstart : rules.Fails (.text ['.']) (whole ++ exponent ++ rest) := by
      cases whole with
      | nil => exact absurd rfl hne
      | cons d whole =>
        have hd := hwhole d (by simp)
        simp only [fails_text, List.cons_append, List.cons_prefix_cons, not_and]
        rintro rfl
        simp at hd
    have hfirst : rules.Fails (.seq (.oneOrMore (.char Char.isDigit)) (.seq (.text ['.'])
        (.seq (.star (.char Char.isDigit)) (.opt Grammar.exponent)))) (whole ++ exponent ++ rest) :=
      fails_seq.2 (.inr ⟨pos, whole, exponent ++ rest, [], by simp, hdigits,
        fails_seq.2 (.inl hpoint)⟩)
    refine reads_alt.2 (.inr ⟨hfirst, reads_alt.2 (.inr ⟨fails_seq.2 (.inl hstart), ?_⟩)⟩)
    exact reads_seq.2 ⟨whole, exponent, [], [], rfl, rfl, hdigits,
      reads_exponent.2 ⟨hexponent, stops_digit_of_continuesFloat hrest, rfl⟩⟩

/-! ## Strings -/

theorem isPlain_iff {c : Char} : isPlain c = true ↔ c ≠ '"' ∧ isLineEnd c = false := by
  simp [isPlain, isLineEnd, and_assoc]

/-- What may stand between the quotes of a string. -/
inductive IsQuotable : List Char → Prop
  | nil : IsQuotable []
  | quotes {s : List Char} : IsQuotable s → IsQuotable ('"' :: '"' :: s)
  | plain {c : Char} {s : List Char} : isPlain c = true → IsQuotable s → IsQuotable (c :: s)

def IsString (w : List Char) : Prop :=
  ∃ s, IsQuotable s ∧ w = '"' :: (s ++ ['"'])

def startsQuote (c : Char) : Bool :=
  c = '"'

theorem isQuotable_of_reads
    (h : rules.Reads (.star (.alt (.text ['"', '"']) (.char isPlain))) pos w rest nodes) :
    IsQuotable w ∧ rules.Fails (.text ['"', '"']) rest ∧ nodes = [] := by
  apply h.star_induction
  · intro hfails pos
    exact ⟨.nil, (fails_alt.1 hfails).1, rfl⟩
  · rintro pos front back before behind hread - ⟨hback, hfails, rfl⟩
    rcases reads_alt.1 hread with hquotes | ⟨-, hplain⟩
    · obtain ⟨rfl, rfl⟩ := reads_text.1 hquotes
      exact ⟨.quotes hback, hfails, rfl⟩
    · obtain ⟨c, hc, rfl, rfl⟩ := reads_char.1 hplain
      exact ⟨.plain hc hback, hfails, rfl⟩

theorem IsQuotable.reads (h : IsQuotable w) (hrest : Stops startsQuote rest) :
    rules.Reads (.star (.alt (.text ['"', '"']) (.char isPlain))) pos w ('"' :: rest) [] := by
  induction h generalizing pos with
  | nil =>
    refine reads_star.2 (.inl ⟨fails_alt.2 ⟨fails_text.2 ?_, fails_char.2 ?_⟩, rfl, rfl⟩)
    · rintro ⟨tail, heq⟩
      have hquote := hrest '"' tail (by simpa using heq.symm)
      simp [startsQuote] at hquote
    · simp [isPlain]
  | quotes hs ih =>
    exact reads_star.2 (.inr ⟨['"', '"'], _, [], [], rfl, rfl,
      reads_alt.2 (.inl (reads_text.2 ⟨rfl, rfl⟩)), ih⟩)
  | @plain c s hc hs ih =>
    have hquotes : rules.Fails (.text ['"', '"']) (c :: s ++ '"' :: rest) := by
      simp only [fails_text, List.cons_append, List.cons_prefix_cons, not_and]
      rintro rfl
      simp [isPlain] at hc
    exact reads_star.2 (.inr ⟨[c], s, [], [], rfl, rfl,
      reads_alt.2 (.inr ⟨hquotes, reads_char.2 ⟨c, hc, rfl, rfl⟩⟩), ih⟩)

theorem reads_string :
    rules.Reads (.rule .string) pos w rest nodes ↔
      (IsString w ∧ Stops startsQuote rest) ∧
        nodes = [.mk .string pos (pos.afterAll w) w []] := by
  refine reads_leaf rfl fun children => ?_
  change rules.Reads (.seq (.text ['"']) (.seq (.star (.alt (.text ['"', '"']) (.char isPlain)))
    (.text ['"']))) pos w rest children ↔ _
  rw [reads_seq]
  constructor
  · rintro ⟨_, _, _, _, rfl, rfl, hopen, hread⟩
    obtain ⟨s, _, _, _, rfl, rfl, hinner, hclose⟩ := reads_seq.1 hread
    obtain ⟨rfl, rfl⟩ := reads_text.1 hopen
    obtain ⟨rfl, rfl⟩ := reads_text.1 hclose
    obtain ⟨hs, hfails, rfl⟩ := isQuotable_of_reads hinner
    refine ⟨⟨⟨s, hs, rfl⟩, fun c tail heq => ?_⟩, rfl⟩
    simp only [startsQuote, decide_eq_false_iff_not]
    rintro rfl
    simp [heq] at hfails
  · rintro ⟨⟨⟨s, hs, rfl⟩, hrest⟩, rfl⟩
    refine ⟨['"'], s ++ ['"'], [], [], rfl, rfl, reads_text.2 ⟨rfl, rfl⟩, ?_⟩
    exact reads_seq.2 ⟨s, ['"'], [], [], rfl, rfl, hs.reads hrest, reads_text.2 ⟨rfl, rfl⟩⟩

/-! ## Whole tokens -/

/-- The rule matches exactly this text. -/
def IsToken (r : Rule) (w : List Char) : Prop :=
  ∃ trees, rules.parse r w = .matched trees []

theorem isToken_iff_reads {r : Rule} :
    IsToken r w ↔ ∃ nodes, rules.Reads (.rule r) .start w [] nodes := by
  constructor
  · rintro ⟨trees, hparse⟩
    exact ⟨_, _, trees, by rwa [List.append_nil], rfl⟩
  · rintro ⟨nodes, hread⟩
    obtain ⟨trees, hparse, -⟩ := ranking.parse_of_reads hread
    exact ⟨trees, by rwa [List.append_nil] at hparse⟩

theorem isToken_float : IsToken .float w ↔ IsFloat w := by
  rw [isToken_iff_reads]
  constructor
  · rintro ⟨nodes, hread⟩
    exact isFloat_of_reads hread
  · intro hw
    exact ⟨_, hw.reads (by simp)⟩

theorem isToken_string : IsToken .string w ↔ IsString w := by
  rw [isToken_iff_reads]
  constructor
  · rintro ⟨nodes, hread⟩
    exact (reads_string.1 hread).1.1
  · intro hw
    exact ⟨_, reads_string.2 ⟨⟨hw, by simp⟩, rfl⟩⟩

end BlockScript.Grammar
