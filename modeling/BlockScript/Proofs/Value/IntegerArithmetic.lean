import Mathlib.Data.Int.ModEq
import BlockScript.Proofs.Environment.Growth

/-!
# Integers that wrap around

Taking a number to the word of 64 bits with its residue commutes with sums, differences, products
and negation.  So it does not matter how often the parts of an expression wrap around: its value is
the word of its exact value.

A quotient of two words leaves the range in one case only, where the least integer is divided by -1.
The word of the quotient is then the least integer again.  It still has the right residue, so a
quotient and its remainder give the dividend back in every case.
-/

namespace BlockScript

/-! ## Expressions of integers -/

/-- The expression is built from integers, names of integers, parentheses, negation, sums,
differences and products, and this is its exact value. -/
inductive Expr.Denotes (env : Environment) : Expr → Int → Prop
  | integer (n : Int64) (span : Span) : Denotes env (.integer n span) n.toInt
  | name {id : Identifier} {n : Int64} (h : env.get? id.name = some (.integer n)) :
    Denotes env (.name id) n.toInt
  | group {inner : Expr} {v : Int} (span : Span) (h : Denotes env inner v) :
    Denotes env (.group inner span) v
  | negate {operand : Expr} {v : Int} (span : Span) (h : Denotes env operand v) :
    Denotes env (.unary .negate operand span) (-v)
  | add {left right : Expr} {v w : Int} (span : Span) (hleft : Denotes env left v)
    (hright : Denotes env right w) : Denotes env (.binary .add left right span) (v + w)
  | subtract {left right : Expr} {v w : Int} (span : Span) (hleft : Denotes env left v)
    (hright : Denotes env right w) : Denotes env (.binary .subtract left right span) (v - w)
  | multiply {left right : Expr} {v w : Int} (span : Span) (hleft : Denotes env left v)
    (hright : Denotes env right w) : Denotes env (.binary .multiply left right span) (v * w)

open Evaluation in
theorem Expr.eval_binary_of_ok {op : BinaryOp} {left right : Expr} {span : Span}
    {env : Environment} {a b c : Value} (hleft : left.eval env = .ok a env)
    (hright : right.eval env = .ok b env) (hvalue : op.apply a b = .ok c) :
    (Expr.binary op left right span).eval env = .ok c env := by
  apply within_of_ok
  rw [bind_of_ok hleft, bind_of_ok hright, hvalue]
  rfl

open Evaluation in
theorem Expr.eval_of_denotes {e : Expr} {env : Environment} {v : Int} (h : e.Denotes env v) :
    e.eval env = .ok (.integer (.ofInt v)) env := by
  induction h with
  | integer n span =>
    rw [Int64.ofInt_toInt]
    rfl
  | name h =>
    rw [Int64.ofInt_toInt]
    exact variableValue_of_get? h
  | group span _ ih => exact within_of_ok ih
  | negate span _ ih =>
    apply within_of_ok
    rw [bind_of_ok ih, Int64.ofInt_neg]
    rfl
  | add span _ _ ihLeft ihRight =>
    rw [Int64.ofInt_add]
    exact eval_binary_of_ok ihLeft ihRight rfl
  | subtract span _ _ ihLeft ihRight =>
    rw [Int64.ofInt_sub]
    exact eval_binary_of_ok ihLeft ihRight rfl
  | multiply span _ _ ihLeft ihRight =>
    rw [Int64.ofInt_mul]
    exact eval_binary_of_ok ihLeft ihRight rfl

theorem eq_toInt_ofInt_iff (m v : Int) :
    m = (Int64.ofInt v).toInt ↔ (-2 ^ 63 ≤ m ∧ m < 2 ^ 63) ∧ m ≡ v [ZMOD 2 ^ 64] := by
  rw [eq_comm, Int64.toInt_ofInt, Int.bmod_eq_iff (by decide), Int.modEq_comm,
    Int.modEq_iff_dvd, and_assoc]
  exact Iff.rfl

/-- An expression of integers has a value and leaves the environment as it is.  The value is the
only number of 64 bits that is congruent to the exact one. -/
theorem Expr.eval_congruent_exact {e : Expr} {env : Environment} {v : Int}
    (h : e.Denotes env v) : ∃ r : Int64, e.eval env = .ok (.integer r) env ∧
      ∀ m : Int, m = r.toInt ↔ (-2 ^ 63 ≤ m ∧ m < 2 ^ 63) ∧ m ≡ v [ZMOD 2 ^ 64] :=
  ⟨.ofInt v, Expr.eval_of_denotes h, fun m => eq_toInt_ofInt_iff m v⟩

/-- A product that overflows twice over: the exact value is `2 ^ 63 * (2 ^ 63 - 1) + 3`. -/
theorem eval_congruent_exact_overflow :
    let span : Span := ⟨0, 0, none⟩
    let env := Environment.empty.assign "x" (.integer Int64.maxValue)
    let negated : Expr := .unary .negate (.group (.integer Int64.minValue span) span) span
    let e : Expr := .binary .add (.binary .multiply negated (.name ⟨"x", span⟩) span)
      (.integer 3 span) span
    e.Denotes env (2 ^ 63 * (2 ^ 63 - 1) + 3) ∧
      e.eval env = .ok (.integer (-9223372036854775805)) env := by
  intro span env negated e
  have hexact : e.Denotes env (2 ^ 63 * (2 ^ 63 - 1) + 3) :=
    .add span (.multiply span (.negate span (.group span (.integer Int64.minValue span)))
      (.name (n := Int64.maxValue) rfl)) (.integer 3 span)
  obtain ⟨r, heval, hvalue⟩ := Expr.eval_congruent_exact hexact
  have hr : -9223372036854775805 = r.toInt := (hvalue _).2 ⟨by decide, by decide⟩
  have hword : r = -9223372036854775805 := Int64.toInt_inj.1 hr.symm
  rw [hword] at heval
  exact ⟨hexact, heval⟩

/-! ## Quotients and remainders -/

theorem div_eq_ofInt_tdiv (a b : Int64) : a / b = .ofInt (a.toInt.tdiv b.toInt) := by
  rw [Int64.ofInt_tdiv a.minValue_le_toInt a.toInt_le b.minValue_le_toInt b.toInt_le,
    Int64.ofInt_toInt, Int64.ofInt_toInt]

theorem mod_eq_ofInt_tmod (a b : Int64) : a % b = .ofInt (a.toInt.tmod b.toInt) := by
  rw [← Int64.toInt_mod, Int64.ofInt_toInt]

-- the quotient may wrap around here: only its residue matters
theorem div_mul_add_mod (a b : Int64) : a / b * b + a % b = a :=
  calc a / b * b + a % b
      = .ofInt (a.toInt.tdiv b.toInt) * .ofInt b.toInt + .ofInt (a.toInt.tmod b.toInt) := by
        rw [← div_eq_ofInt_tdiv, ← mod_eq_ofInt_tmod, Int64.ofInt_toInt]
    _ = .ofInt (a.toInt.tdiv b.toInt * b.toInt + a.toInt.tmod b.toInt) := by
        rw [Int64.ofInt_add, Int64.ofInt_mul]
    _ = a := by
        rw [Int.tdiv_mul_add_tmod, Int64.ofInt_toInt]

theorem natAbs_mod_lt {a b : Int64} (hb : b ≠ 0) :
    (a % b).toInt.natAbs < b.toInt.natAbs := by
  have hpos : 0 < b.toInt.natAbs := by
    rw [Int.natAbs_pos]
    intro hzero
    exact hb (Int64.toInt_inj.1 hzero)
  rw [Int64.toInt_mod, Int.natAbs_tmod]
  exact Nat.mod_lt _ hpos

theorem mod_eq_zero_or_sign (a b : Int64) :
    a % b = 0 ∨ (a % b).toInt.sign = a.toInt.sign := by
  by_cases hdvd : b.toInt ∣ a.toInt
  · left
    rw [mod_eq_ofInt_tmod, Int.tmod_eq_zero_of_dvd hdvd]
    rfl
  · right
    rw [Int64.toInt_mod, Int.sign_tmod, if_neg hdvd]

theorem toInt_div_of_fits {a b : Int64} (h : ¬(a = Int64.minValue ∧ b = -1)) :
    (a / b).toInt = a.toInt.tdiv b.toInt := by
  by_cases ha : a = Int64.minValue
  · exact Int64.toInt_div_of_ne_right a b fun hb => h ⟨ha, hb⟩
  · exact Int64.toInt_div_of_ne_left a b ha

namespace Value

theorem divide_integer {a b : Int64} (hb : b ≠ 0) :
    (integer a).divide (integer b) = .ok (.integer (a / b)) :=
  if_neg hb

theorem modulo_integer {a b : Int64} (hb : b ≠ 0) :
    (integer a).modulo (integer b) = .ok (.integer (a % b)) :=
  if_neg hb

/-- Dividing by zero fails, and so does taking the remainder.  By any other integer, the remainder
is smaller than the divisor and has the sign of the dividend, quotient times divisor plus remainder
is the dividend, and the quotient is the exact one rounded toward zero, save that the least integer
divided by -1 is itself. -/
theorem divide_modulo_recompose (a b : Int64) :
    (b = 0 → (integer a).divide (integer b) = .error .divisionByZero ∧
      (integer a).modulo (integer b) = .error .divisionByZero) ∧
    (b ≠ 0 → ∃ q r : Int64, (integer a).divide (integer b) = .ok (integer q) ∧
      (integer a).modulo (integer b) = .ok (integer r) ∧
      r.toInt.natAbs < b.toInt.natAbs ∧ (r = 0 ∨ r.toInt.sign = a.toInt.sign) ∧
      (do ((← (integer q).multiply (integer b)).add (integer r))) = .ok (integer a) ∧
      (¬(a = Int64.minValue ∧ b = -1) → q.toInt = a.toInt.tdiv b.toInt) ∧
      (a = Int64.minValue ∧ b = -1 → q = Int64.minValue ∧ r = 0)) := by
  constructor
  · intro hb
    exact ⟨if_pos hb, if_pos hb⟩
  · intro hb
    refine ⟨a / b, a % b, divide_integer hb, modulo_integer hb, natAbs_mod_lt hb,
      mod_eq_zero_or_sign a b, ?_, toInt_div_of_fits, ?_⟩
    · change Except.ok (integer (a / b * b + a % b)) = .ok (integer a)
      rw [div_mul_add_mod]
    · rintro ⟨rfl, rfl⟩
      decide

/-- The quotient that leaves the range, a negative dividend, and a divisor that is zero. -/
theorem divide_modulo_recompose_least :
    (integer Int64.minValue).divide (integer (-1)) = .ok (integer Int64.minValue) ∧
      (integer Int64.minValue).modulo (integer (-1)) = .ok (integer 0) ∧
      (∃ q r : Int64, (integer (-7)).divide (integer 2) = .ok (integer q) ∧
        (integer (-7)).modulo (integer 2) = .ok (integer r) ∧ q.toInt = -3 ∧
        (r = 0 ∨ r.toInt.sign = -1)) ∧
      (integer Int64.minValue).modulo (integer 0) = .error .divisionByZero := by
  obtain ⟨q, r, hq, hr, -, -, -, -, hleast⟩ :=
    (divide_modulo_recompose Int64.minValue (-1)).2 (by decide)
  obtain ⟨q', r', hq', hr', -, hsign, -, hexact, -⟩ :=
    (divide_modulo_recompose (-7) 2).2 (by decide)
  obtain ⟨rfl, rfl⟩ := hleast ⟨rfl, rfl⟩
  refine ⟨hq, hr, ⟨q', r', hq', hr', ?_, hsign⟩, ?_⟩
  · exact hexact (by decide)
  · exact ((divide_modulo_recompose Int64.minValue 0).1 rfl).2

end Value

end BlockScript
