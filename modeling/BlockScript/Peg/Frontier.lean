import BlockScript.Peg.Match

/-!
# The furthest failures of a match

When a text does not match, the useful report names what was tried at the furthest position that
any rule failed at.  `Grammar.explore` matches exactly as `Grammar.run` does and keeps this record
on the way; the record survives backtracking.
-/

namespace BlockScript.Peg

/-- The rules that failed at the furthest position so far, in the order of their failures.  The
position is given by the number of characters that remain after it. -/
structure Frontier (ρ : Type) where
  remaining : Nat
  attempts : List ρ

namespace Frontier

variable {ρ : Type}

/-- Nothing has failed yet in a text of `length` characters. -/
def start (length : Nat) : Frontier ρ := ⟨length, []⟩

/-- The number of attempts recorded at a position. -/
def countAt (f : Frontier ρ) (remaining : Nat) : Nat :=
  if remaining = f.remaining then f.attempts.length else 0

/-- Records that `rule` failed at a position where `before` attempts stood when it was entered.
A single attempt made inside the rule is the better report and stays; several are replaced by the
rule itself.  A failure before the furthest position is forgotten. -/
def fail (f : Frontier ρ) (rule : ρ) (remaining before : Nat) : Frontier ρ :=
  if f.countAt remaining = before + 1 then
    f
  else if remaining = f.remaining then
    ⟨remaining, f.attempts.take before ++ [rule]⟩
  else if remaining < f.remaining then
    ⟨remaining, [rule]⟩
  else
    f

end Frontier

namespace Grammar

variable {ρ : Type}

def explore (g : Grammar ρ) :
    Nat → Pattern ρ → List Char → Frontier ρ → Outcome ρ × Frontier ρ
  | 0, _, _, f => (.exhausted, f)
  | _ + 1, .text chars, s, f =>
    (if chars.isPrefixOf s then .matched [.leaf chars] (s.drop chars.length) else .failed, f)
  | _ + 1, .char test, s, f =>
    match s with
    | [] => (.failed, f)
    | c :: rest => (if test c then .matched [.leaf [c]] rest else .failed, f)
  | _ + 1, .layout, s, f =>
    (.matched (gapOf (s.take (g.layoutLength s))) (s.drop (g.layoutLength s)), f)
  | _ + 1, .finish, s, f => (if s.isEmpty then .matched [] s else .failed, f)
  | fuel + 1, .seq first second, s, f =>
    match g.explore fuel first s f with
    | (.matched front s', f) =>
      match g.explore fuel second s' f with
      | (.matched back rest, f) => (.matched (front ++ back) rest, f)
      | (.failed, f) => (.failed, f)
      | (.exhausted, f) => (.exhausted, f)
    | (.failed, f) => (.failed, f)
    | (.exhausted, f) => (.exhausted, f)
  | fuel + 1, .alt first second, s, f =>
    match g.explore fuel first s f with
    | (.matched trees rest, f) => (.matched trees rest, f)
    | (.failed, f) => g.explore fuel second s f
    | (.exhausted, f) => (.exhausted, f)
  | fuel + 1, .star body, s, f =>
    match g.explore fuel body s f with
    | (.matched front s', f) =>
      match g.explore fuel (.star body) s' f with
      | (.matched back rest, f) => (.matched (front ++ back) rest, f)
      | (.failed, f) => (.failed, f)
      | (.exhausted, f) => (.exhausted, f)
    | (.failed, f) => (.matched [] s, f)
    | (.exhausted, f) => (.exhausted, f)
  | fuel + 1, .opt body, s, f =>
    match g.explore fuel body s f with
    | (.matched trees rest, f) => (.matched trees rest, f)
    | (.failed, f) => (.matched [] s, f)
    | (.exhausted, f) => (.exhausted, f)
  | fuel + 1, .absent body, s, f =>
    match g.explore fuel body s f with
    | (.matched _ _, f) => (.failed, f)
    | (.failed, f) => (.matched [] s, f)
    | (.exhausted, f) => (.exhausted, f)
  | fuel + 1, .rule r, s, f =>
    match g.explore fuel (g.pattern r) s f with
    | (.matched trees rest, f') => (.matched (g.wrap r trees) rest, f')
    | (.failed, f') =>
      (.failed, if g.hidden r then f' else f'.fail r s.length (f.countAt s.length))
    | (.exhausted, f') => (.exhausted, f')

/-- Keeping the record changes nothing in the match. -/
theorem explore_fst (g : Grammar ρ) (fuel : Nat) (p : Pattern ρ) (s : List Char)
    (f : Frontier ρ) : (g.explore fuel p s f).1 = g.run fuel p s := by
  induction fuel generalizing p s f with
  | zero => rfl
  | succ fuel ih =>
    cases p with
    | char test => cases s <;> rfl
    | seq first second =>
      have hfirst := ih first s f
      rw [run, ← hfirst, explore]
      rcases g.explore fuel first s f with ⟨_ | _ | _, f'⟩
      · rename_i front s'
        have hsecond := ih second s' f'
        simp only [← hsecond]
        rcases g.explore fuel second s' f' with ⟨_ | _ | _, f''⟩ <;> rfl
      all_goals rfl
    | alt first second =>
      have hfirst := ih first s f
      rw [run, ← hfirst, explore]
      rcases g.explore fuel first s f with ⟨_ | _ | _, f'⟩
      · rfl
      · exact ih second s f'
      · rfl
    | star body =>
      have hbody := ih body s f
      rw [run, ← hbody, explore]
      rcases g.explore fuel body s f with ⟨_ | _ | _, f'⟩
      · rename_i front s'
        have hmore := ih (.star body) s' f'
        simp only [← hmore]
        rcases g.explore fuel (.star body) s' f' with ⟨_ | _ | _, f''⟩ <;> rfl
      all_goals rfl
    | opt body =>
      have hbody := ih body s f
      rw [run, ← hbody, explore]
      rcases g.explore fuel body s f with ⟨_ | _ | _, f'⟩ <;> rfl
    | absent body =>
      have hbody := ih body s f
      rw [run, ← hbody, explore]
      rcases g.explore fuel body s f with ⟨_ | _ | _, f'⟩ <;> rfl
    | rule r =>
      have hbody := ih (g.pattern r) s f
      rw [run, ← hbody, explore]
      rcases g.explore fuel (g.pattern r) s f with ⟨_ | _ | _, f'⟩ <;> rfl
    | _ => rfl

/-- The furthest failures of a rule tried at the beginning of a text. -/
def frontier (g : Grammar ρ) (r : ρ) (s : List Char) : Frontier ρ :=
  (g.explore (g.fuelFor s) (.rule r) s (.start s.length)).2

end Grammar

end BlockScript.Peg
