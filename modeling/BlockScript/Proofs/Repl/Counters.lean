import BlockScript.Repl.Input

/-!
# Counters of 32 bits

Whether an input is complete is decided by two counters.  They change by one at most with every
character, so they are bounded by the length of the text.  Counters of 32 bits that wrap around
agree with them modulo 2 ^ 32; on a text of fewer than 2 ^ 31 characters they never wrap around, and
the input is complete by the one count if and only if it is by the other.
-/

namespace BlockScript.Repl

/-! ## The counters are bounded -/

/-- Neither counter is further from zero than `bound`. -/
def Scan.Within (bound : Nat) (s : Scan) : Prop :=
  s.braces.natAbs ≤ bound ∧ s.parentheses.natAbs ≤ bound

theorem Scan.Within.next {bound : Nat} {s : Scan} (h : s.Within bound) (c : Char) :
    (s.next c).Within (bound + 1) := by
  obtain ⟨braces, parentheses, inString, inComment⟩ := s
  obtain ⟨hbraces, hparentheses⟩ := h
  dsimp only at hbraces hparentheses
  unfold Scan.next
  dsimp only
  repeat' split
  all_goals constructor <;> dsimp only <;> omega

theorem Scan.Within.foldl {bound : Nat} {s : Scan} (h : s.Within bound) (text : List Char) :
    (text.foldl Scan.next s).Within (bound + text.length) := by
  induction text generalizing bound s with
  | nil => exact h
  | cons c text ih =>
    have hrest := ih (h.next c)
    rwa [Nat.add_assoc, Nat.add_comm 1] at hrest

theorem Scan.within_length (text : List Char) :
    (text.foldl Scan.next .start).Within text.length := by
  have hstart : Scan.start.Within 0 := ⟨Nat.le_refl 0, Nat.le_refl 0⟩
  simpa using hstart.foldl text

/-! ## The counters in words -/

/-- What has been seen of an input, with counters that wrap around. -/
structure WordScan where
  braces : Int32
  parentheses : Int32
  inString : Bool
  inComment : Bool
  deriving DecidableEq, Repr, Inhabited

namespace WordScan

def start : WordScan := ⟨0, 0, false, false⟩

def next (s : WordScan) (c : Char) : WordScan :=
  if s.inComment then { s with inComment := c ≠ '\n' }
  else if c = '"' then { s with inString := !s.inString }
  else if s.inString then s
  else if c = '#' then { s with inComment := true }
  else if c = '\x7b' then { s with braces := s.braces + 1 }
  else if c = '\x7d' then { s with braces := s.braces - 1 }
  else if c = '(' then { s with parentheses := s.parentheses + 1 }
  else if c = ')' then { s with parentheses := s.parentheses - 1 }
  else s

/-- Whether an input needs no more lines, by counters that wrap around. -/
def isComplete (input : String) : Bool :=
  let s := input.toList.foldl next start
  decide (s.braces ≤ 0) && decide (s.parentheses ≤ 0) && !s.inString

end WordScan

/-- The same scan with its counters in words. -/
def Scan.toWords (s : Scan) : WordScan :=
  ⟨.ofInt s.braces, .ofInt s.parentheses, s.inString, s.inComment⟩

theorem Scan.toWords_next (s : Scan) (c : Char) : (s.next c).toWords = s.toWords.next c := by
  obtain ⟨braces, parentheses, inString, inComment⟩ := s
  have hone : Int32.ofInt 1 = 1 := rfl
  rw [Scan.next]
  simp only [apply_ite toWords]
  simp only [toWords, Int32.ofInt_add, Int32.ofInt_sub, hone]
  rfl

theorem Scan.toWords_foldl (text : List Char) (s : Scan) :
    (text.foldl Scan.next s).toWords = text.foldl WordScan.next s.toWords := by
  induction text generalizing s with
  | nil => rfl
  | cons c text ih => rw [List.foldl_cons, List.foldl_cons, ih, toWords_next]

theorem toInt_ofInt_of_natAbs_le {count : Int} {bound : Nat} (h : count.natAbs ≤ bound)
    (hbound : bound < Nat.pow 2 31) : (Int32.ofInt count).toInt = count := by
  have hpow : Nat.pow 2 31 = 2147483648 := rfl
  exact Int32.toInt_ofInt_of_le (by omega) (by omega)

/-- On a text of fewer than 2 ^ 31 characters, counters of 32 bits hold the counts behind every
character, and they decide alike whether the text is complete. -/
theorem wordScan_agrees {input : String} (h : input.toList.length < Nat.pow 2 31) :
    (∀ seen, seen <+: input.toList →
      (seen.foldl WordScan.next .start).braces.toInt = (seen.foldl Scan.next .start).braces ∧
        (seen.foldl WordScan.next .start).parentheses.toInt =
          (seen.foldl Scan.next .start).parentheses) ∧
      WordScan.isComplete input = isComplete input := by
  have hcounts : ∀ seen, seen <+: input.toList →
      (seen.foldl WordScan.next .start).braces.toInt = (seen.foldl Scan.next .start).braces ∧
        (seen.foldl WordScan.next .start).parentheses.toInt =
          (seen.foldl Scan.next .start).parentheses := by
    intro seen hseen
    have hwords : seen.foldl WordScan.next .start = (seen.foldl Scan.next .start).toWords :=
      (Scan.toWords_foldl seen .start).symm
    have hlength := Nat.lt_of_le_of_lt hseen.length_le h
    obtain ⟨hbraces, hparentheses⟩ := Scan.within_length seen
    rw [hwords]
    exact ⟨toInt_ofInt_of_natAbs_le hbraces hlength,
      toInt_ofInt_of_natAbs_le hparentheses hlength⟩
  refine ⟨hcounts, ?_⟩
  obtain ⟨hbraces, hparentheses⟩ := hcounts _ List.prefix_rfl
  have hstring : (input.toList.foldl WordScan.next .start).inString =
      (input.toList.foldl Scan.next .start).inString :=
    congrArg WordScan.inString (Scan.toWords_foldl input.toList .start).symm
  simp only [WordScan.isComplete, isComplete, Int32.le_iff_toInt_le, Int32.toInt_zero, hbraces,
    hparentheses, hstring]

end BlockScript.Repl
