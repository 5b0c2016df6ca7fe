import BlockScript.Evaluate
import BlockScript.Proofs.Tree.DatumReading
import BlockScript.Proofs.Tree.SoleExpressions

/-!
# Literals

What is read from a text that is a single literal.  A string and the text that it denotes determine
each other.  An integer may have any number of zeros before it and has to fit in 64 bits with its
sign; only the least one is recognized by its digits, and zeros before them are not passed over.
-/

namespace BlockScript

open Grammar Reader
open Peg (Node)
open Peg.Grammar

/-! ## One operand -/

namespace Grammar

variable {w : List Char} {nodes : List (Node Rule)}

theorem isSole_of_operand (h : rules.Reads (.phrase operand) .start w [] nodes)
    (hsolid : rules.skip w = w) :
    IsSole w (.mk .expression .start (Position.start.afterAll w) w nodes) := by
  refine ⟨[], w, [], by simp, by simpa using hsolid, rfl, reads_rule.2 ⟨nodes, ?_, rfl⟩⟩
  obtain ⟨leading, _, before, _, rfl, rfl, hleading, htail⟩ := reads_seq.1 h
  obtain ⟨gap, text, _, behind, rfl, rfl, hgap, hprimary⟩ := reads_seq.1 htail
  have hlinks : ∀ pos, rules.Reads (.seq .layout (.many link)) pos [] [] [] := fun pos =>
    reads_seq.2 ⟨[], [], [], [], rfl, rfl, reads_layout.2 ⟨rfl, rfl⟩,
      reads_many.2 (.inl ⟨⟨30, rfl⟩, rfl, rfl⟩)⟩
  refine reads_seq.2 ⟨leading, gap ++ text, before, _, rfl, rfl, hleading, ?_⟩
  refine reads_seq.2 ⟨gap, text, _, behind, rfl, rfl, hgap, ?_⟩
  exact reads_seq.2 ⟨text, [], behind, [], by simp, by simp, hprimary, hlinks _⟩

theorem isSole_of_primary {c : Char} {tail : List Char} (hw : w = c :: tail)
    (hc : c ∈ plainHeads) (h : rules.Reads primary .start w [] nodes) :
    IsSole w (.mk .expression .start (Position.start.afterAll w) w nodes) := by
  have hsolid : rules.skip w = w := by
    rw [hw]
    exact skip_plainHead hc tail
  have hleading : rules.Fails leadingOperator (w ++ []) := by
    have hfails := (plain_cons hc tail).leadingOperator
    rwa [Refuses, ← hw, hsolid, ← List.append_nil w] at hfails
  refine isSole_of_operand (reads_seq.2 ⟨[], w, [], nodes, rfl, rfl, ?_, ?_⟩) hsolid
  · exact reads_many.2 (.inl ⟨hleading, rfl, rfl⟩)
  · exact reads_seq.2 ⟨[], w, [], nodes, rfl, rfl, reads_layout.2 ⟨by simpa using hsolid, rfl⟩, h⟩

end Grammar

/-! ## Strings -/

namespace Quoted

/-- Writes each quote twice. -/
def double : List Char → List Char
  | [] => []
  | c :: rest => if c = '"' then '"' :: '"' :: double rest else c :: double rest

def encode (text : List Char) : List Char :=
  '"' :: (double text ++ ['"'])

theorem collapse_cons_of_ne {c : Char} (h : c ≠ '"') (rest : List Char) :
    collapse (c :: rest) = c :: collapse rest := by
  rw [collapse]
  rintro _ rfl -
  exact h rfl

theorem collapse_double (text : List Char) : collapse (double text) = text := by
  induction text with
  | nil => rfl
  | cons c rest ih =>
    by_cases hc : c = '"'
    · rw [double, if_pos hc, collapse, ih, hc]
    · rw [double, if_neg hc, collapse_cons_of_ne hc, ih]

theorem double_collapse {s : List Char} (h : IsQuotable s) : double (collapse s) = s := by
  induction h with
  | nil => rfl
  | quotes _ ih => rw [collapse, double, if_pos rfl, ih]
  | plain hc _ ih =>
    have hne := (isPlain_iff.1 hc).1
    rw [collapse_cons_of_ne hne, double, if_neg hne, ih]

theorem isLineEnd_of_mem_collapse {s : List Char} (h : IsQuotable s) :
    ∀ c ∈ collapse s, isLineEnd c = false := by
  induction h with
  | nil => simp [collapse]
  | quotes _ ih => exact List.forall_mem_cons.2 ⟨rfl, ih⟩
  | plain hc _ ih =>
    obtain ⟨hne, hend⟩ := isPlain_iff.1 hc
    rw [collapse_cons_of_ne hne]
    exact List.forall_mem_cons.2 ⟨hend, ih⟩

theorem isQuotable_double {text : List Char} (h : ∀ c ∈ text, isLineEnd c = false) :
    IsQuotable (double text) := by
  induction text with
  | nil => exact .nil
  | cons c rest ih =>
    obtain ⟨hc, hrest⟩ := List.forall_mem_cons.1 h
    by_cases hquote : c = '"'
    · rw [double, if_pos hquote]
      exact .quotes (ih hrest)
    · rw [double, if_neg hquote]
      exact .plain (isPlain_iff.2 ⟨hquote, hc⟩) (ih hrest)

theorem decode_quoted (s : List Char) : decode ('"' :: (s ++ ['"'])) = collapse s := by
  simp [decode, inner?]

theorem decode_encode (text : List Char) : decode (encode text) = text := by
  rw [encode, decode_quoted, collapse_double]

theorem isString_encode {text : List Char} (h : ∀ c ∈ text, isLineEnd c = false) :
    IsString (encode text) :=
  ⟨double text, isQuotable_double h, rfl⟩

theorem encode_decode {w : List Char} (h : IsString w) :
    encode (decode w) = w ∧ ∀ c ∈ decode w, isLineEnd c = false := by
  obtain ⟨s, hs, rfl⟩ := h
  rw [decode_quoted, encode, double_collapse hs]
  exact ⟨rfl, isLineEnd_of_mem_collapse hs⟩

end Quoted

theorem readExpr_of_primary {node : Node Rule} (h : operatorOf? node = none) (start stop : Position)
    (text : List Char) : readExpr (.mk .expression start stop text [node]) = readPrimary node := by
  simp only [readExpr, readItems, h]
  cases readPrimary node <;> rfl

theorem Expr.parse_string {token : String} (h : IsString token.toList) : Expr.parse token =
    .ok (.string token (.between .start (Position.start.afterAll token.toList))) := by
  obtain ⟨tail, htail⟩ : ∃ tail, token.toList = '"' :: tail := by
    obtain ⟨s, -, hs⟩ := h
    exact ⟨_, hs⟩
  rw [Expr.parse_of_isSole (isSole_of_primary htail (by decide) (reads_quoted h (Peg.stops_nil _))),
    readExpr_of_primary rfl, readPrimary, String.ofList_toList]

/-- The token of a text. -/
def quote (text : String) : String :=
  String.ofList (Quoted.encode text.toList)

/-- Strings and texts without line ends correspond to each other: the quoted text is read as one
string that denotes the text, and every string is the quoted form of the text that it denotes. -/
theorem quote_corresponds :
    (∀ text : String, (∀ c ∈ text.toList, isLineEnd c = false) →
      Expr.parse (quote text) = .ok (.string (quote text)
        (.between .start (Position.start.afterAll (quote text).toList))) ∧
      Value.ofToken (quote text) = .text text) ∧
    (∀ (pos : Position) (w rest : List Char) (nodes : List (Node Rule)),
      rules.Reads (.rule .string) pos w rest nodes →
        ∃ text : String, Value.ofToken (String.ofList w) = .text text ∧
          String.ofList w = quote text ∧ ∀ c ∈ text.toList, isLineEnd c = false) ∧
    ∀ token token' : String, IsToken .string token.toList → IsToken .string token'.toList →
      Value.ofToken token = Value.ofToken token' → token = token' := by
  refine ⟨fun text htext => ?_, fun pos w rest nodes h => ?_, fun token token' h h' heq => ?_⟩
  · have hlist : (quote text).toList = Quoted.encode text.toList := String.toList_ofList
    constructor
    · apply Expr.parse_string
      rw [hlist]
      exact Quoted.isString_encode htext
    · rw [Value.ofToken, hlist, Quoted.decode_encode, String.ofList_toList]
  · obtain ⟨⟨hw, -⟩, -⟩ := reads_string.1 h
    obtain ⟨hencode, hends⟩ := Quoted.encode_decode hw
    refine ⟨String.ofList (Quoted.decode w), ?_, ?_, ?_⟩
    · rw [Value.ofToken, String.toList_ofList]
    · rw [quote, String.toList_ofList, hencode]
    · rwa [String.toList_ofList]
  · have hdecode : Quoted.decode token.toList = Quoted.decode token'.toList :=
      String.ofList_injective (Value.text.inj heq)
    have hlist : token.toList = token'.toList := by
      rw [← (Quoted.encode_decode (isToken_string.1 h)).1, hdecode,
        (Quoted.encode_decode (isToken_string.1 h')).1]
    exact String.toList_injective hlist

/-- Quotes at both ends, next to each other and alone. -/
theorem quote_corresponds_quotes : quote "\"a\"\"" = "\"\"\"a\"\"\"\"\"" ∧
    (∃ span, Expr.parse (quote "\"a\"\"") = .ok (.string (quote "\"a\"\"") span)) ∧
      Value.ofToken (quote "\"a\"\"") = .text "\"a\"\"" := by
  obtain ⟨hparse, hvalue⟩ := quote_corresponds.1 "\"a\"\"" (by simp [isLineEnd])
  exact ⟨by decide, ⟨_, hparse⟩, hvalue⟩

/-! ## Integers -/

namespace Decimal

theorem digitChar_digitValue {c : Char} (h : c.isDigit = true) :
    digitValue c < 10 ∧ Nat.digitChar (digitValue c) = c := by
  obtain ⟨hlow, hhigh⟩ := toNat_of_isDigit h
  have hvalue : digitValue c = c.toNat - 48 := rfl
  have hlt : digitValue c < 10 := by omega
  refine ⟨hlt, Char.toNat_inj.1 ?_⟩
  rw [Nat.toNat_digitChar_of_lt_ten hlt]
  omega

/-- Digits behind a positive number are read as they are written. -/
theorem toDigits_foldl {digits : List Char} (h : IsDigits digits) {n : Nat} (hn : 0 < n) :
    Nat.toDigits 10 n ++ digits =
      Nat.toDigits 10 (digits.foldl (fun n c => 10 * n + digitValue c) n) := by
  induction digits generalizing n with
  | nil => simp
  | cons c digits ih =>
    obtain ⟨hc, hdigits⟩ := List.forall_mem_cons.1 h
    obtain ⟨hlt, hchar⟩ := digitChar_digitValue hc
    have hstep : Nat.toDigits 10 n ++ [c] = Nat.toDigits 10 (10 * n + digitValue c) := by
      rw [← Nat.toDigits_append_toDigits (by decide) hn hlt, Nat.toDigits_of_lt_base hlt, hchar]
    rw [List.foldl_cons, ← ih hdigits (by omega), ← hstep, List.append_assoc, List.singleton_append]

theorem eq_toDigits {digits : List Char} (h : IsDigits digits) (hne : digits ≠ [])
    (hhead : digits.head? ≠ some '0') : digits = Nat.toDigits 10 (natOfDigits digits) := by
  cases digits with
  | nil => exact absurd rfl hne
  | cons c digits =>
    obtain ⟨hc, hdigits⟩ := List.forall_mem_cons.1 h
    obtain ⟨hlt, hchar⟩ := digitChar_digitValue hc
    have hpos : 0 < digitValue c := by
      refine Nat.pos_of_ne_zero fun hzero => hhead ?_
      rw [← hchar, hzero]
      rfl
    have hread := toDigits_foldl hdigits hpos
    rw [Nat.toDigits_of_lt_base hlt, hchar] at hread
    simpa [natOfDigits] using hread

end Decimal

theorem eq_minimumDigits_iff {digits : List Char} (h : IsDigits digits) (hne : digits ≠ []) :
    digits = minimumDigits ↔
      Decimal.natOfDigits digits = Nat.pow 2 63 ∧ digits.head? ≠ some '0' := by
  constructor
  · rintro rfl
    exact ⟨by decide, by decide⟩
  · rintro ⟨hvalue, hhead⟩
    rw [Decimal.eq_toDigits h hne hhead, hvalue]
    decide

/-- The position behind a minus sign that the text begins with. -/
def behindSign : Position :=
  ⟨1, 1, 2⟩

section

variable {digits : String} (hne : digits.toList ≠ []) (hdigits : IsDigits digits.toList)
include hne hdigits

theorem Expr.parse_digits : Expr.parse digits =
    readInteger digits.toList (.between .start (Position.start.afterAll digits.toList)) := by
  obtain ⟨c, tail, htail, hc⟩ := hdigits.head hne
  rw [Expr.parse_of_isSole (isSole_of_primary htail hc (reads_digits hne hdigits (.inl rfl))),
    readExpr_of_primary rfl, readPrimary]

theorem isSole_negative : IsSole ("-" ++ digits).toList
    (.mk .expression .start (behindSign.afterAll digits.toList) ('-' :: digits.toList)
      [.mk .negateOperator .start behindSign ['-'] [],
        .mk .integer behindSign (behindSign.afterAll digits.toList) digits.toList []]) := by
  rw [String.toList_append]
  exact isSole_of_operand (reads_negative rfl hne hdigits (.inl rfl))
    (skip_cons_of_solid rfl (by decide) _)

/-- Digits behind a minus sign are read as without it, the least integer apart. -/
theorem Expr.parse_negative : Expr.parse ("-" ++ digits) =
    if digits.toList = minimumDigits then
      .ok (.integer Int64.minValue ⟨0, (behindSign.afterAll digits.toList).offset, none⟩)
    else (readInteger digits.toList (.between behindSign (behindSign.afterAll digits.toList))).map
      fun e => .unary .negate e ⟨0, e.span.stop, none⟩ := by
  rw [Expr.parse_of_isSole (isSole_negative hne hdigits)]
  have hminimum : isMinimum (.mk .negateOperator .start behindSign ['-'] [])
      (.mk .integer behindSign (behindSign.afterAll digits.toList) digits.toList []) = true ↔
        digits.toList = minimumDigits := by
    constructor
    · intro h
      simp only [isMinimum, Bool.and_eq_true, decide_eq_true_eq] at h
      exact h.1.2
    · intro h
      simp [isMinimum, Node.rule, Node.text, Node.start, Node.stop, h]
  by_cases h : digits.toList = minimumDigits
  · rw [if_pos h, readExpr, readItems, if_pos (hminimum.2 h)]
    rfl
  · rw [if_neg h, readExpr, readItems, if_neg (mt hminimum.1 h)]
    simp only [readItems, readPrimary]
    cases readInteger digits.toList
      (.between behindSign (behindSign.afterAll digits.toList)) <;> rfl

end

theorem readInteger_of_lt {text : List Char} (h : Decimal.natOfDigits text < Nat.pow 2 63)
    (span : Span) :
    readInteger text span = .ok (.integer (Int64.ofNat (Decimal.natOfDigits text)) span) :=
  if_pos h

theorem readInteger_of_le {text : List Char} (h : Nat.pow 2 63 ≤ Decimal.natOfDigits text)
    (span : Span) :
    readInteger text span = .error (.integerRange span.region (String.ofList text)) :=
  if_neg (Nat.not_lt.2 h)

theorem toInt_neg_ofNat {n : Nat} (h : n < Nat.pow 2 63) : (-Int64.ofNat n).toInt = -n := by
  rw [Int64.toInt_neg, Int64.toInt_ofNat_of_lt h]
  change n < 9223372036854775808 at h
  exact Int.bmod_eq_of_le (by omega) (by omega)

/-- The text is read as an expression whose value is the integer, in every environment. -/
def Writes (source : String) (n : Int) : Prop :=
  ∃ (e : Expr) (value : Int64), Expr.parse source = .ok e ∧ value.toInt = n ∧
    ∀ env, e.eval env = .ok (.integer value) env

def OutOfRange (source : String) : Prop :=
  ∃ region found, Expr.parse source = .error (.integerRange region found)

section

variable {digits : String} (hne : digits.toList ≠ []) (hdigits : IsDigits digits.toList)
include hne hdigits

theorem writes_digits (h : Decimal.natOfDigits digits.toList < Nat.pow 2 63) :
    Writes digits (Decimal.natOfDigits digits.toList) := by
  have hparse := Expr.parse_digits hne hdigits
  rw [readInteger_of_lt h] at hparse
  exact ⟨_, _, hparse, Int64.toInt_ofNat_of_lt h, fun _ => rfl⟩

theorem outOfRange_digits (h : Nat.pow 2 63 ≤ Decimal.natOfDigits digits.toList) :
    OutOfRange digits := by
  have hparse := Expr.parse_digits hne hdigits
  rw [readInteger_of_le h] at hparse
  exact ⟨_, _, hparse⟩

theorem writes_negative (h : Decimal.natOfDigits digits.toList < Nat.pow 2 63) :
    Writes ("-" ++ digits) (-Decimal.natOfDigits digits.toList) := by
  have hminimum : digits.toList ≠ minimumDigits := by
    intro heq
    exact absurd ((eq_minimumDigits_iff hdigits hne).1 heq).1 (Nat.ne_of_lt h)
  have hparse := Expr.parse_negative hne hdigits
  rw [if_neg hminimum, readInteger_of_lt h] at hparse
  exact ⟨_, _, hparse, toInt_neg_ofNat h, fun _ => rfl⟩

theorem writes_least (h : digits.toList = minimumDigits) :
    Writes ("-" ++ digits) (-Decimal.natOfDigits digits.toList) := by
  have hparse := Expr.parse_negative hne hdigits
  rw [if_pos h] at hparse
  refine ⟨_, _, hparse, ?_, fun _ => rfl⟩
  rw [h]
  decide

theorem outOfRange_negative (h : Nat.pow 2 63 ≤ Decimal.natOfDigits digits.toList)
    (hminimum : digits.toList ≠ minimumDigits) : OutOfRange ("-" ++ digits) := by
  have hparse := Expr.parse_negative hne hdigits
  rw [if_neg hminimum, readInteger_of_le h] at hparse
  exact ⟨_, _, hparse⟩

end

/-- The digits that an integer is printed with, behind its sign if it has one. -/
theorem render_integer (n : Int64) :
    ∃ digits : String, digits.toList = Nat.toDigits 10 n.toInt.natAbs ∧
      (Value.integer n).render = if n.toInt < 0 then "-" ++ digits else digits := by
  refine ⟨String.ofList (Nat.toDigits 10 n.toInt.natAbs), String.toList_ofList, ?_⟩
  apply String.toList_injective
  rw [Value.render, Decimal.toList_toString]
  split <;> simp

theorem writes_render (n : Int64) : Writes (Value.integer n).render n.toInt := by
  obtain ⟨digits, htext, hrender⟩ := render_integer n
  have hne : digits.toList ≠ [] := by
    rw [htext]
    exact Nat.toDigits_ne_nil
  have hdigits : IsDigits digits.toList := by
    rw [htext]
    exact fun c hc => Nat.isDigit_of_mem_toDigits (by decide) (by decide) hc
  have hvalue : Decimal.natOfDigits digits.toList = n.toInt.natAbs := by
    rw [htext]
    exact Nat.ofDigitChars_toDigits (by decide) (by decide)
  have hlow : -9223372036854775808 ≤ n.toInt := n.le_toInt
  have hhigh : n.toInt < 9223372036854775808 := n.toInt_lt
  rw [hrender]
  split
  · rename_i hneg
    have hn : n.toInt = -Decimal.natOfDigits digits.toList := by omega
    by_cases hlt : Decimal.natOfDigits digits.toList < Nat.pow 2 63
    · rw [hn]
      exact writes_negative hne hdigits hlt
    · have hleast : n.toInt.natAbs = 9223372036854775808 := by
        change ¬ _ < 9223372036854775808 at hlt
        omega
      rw [hn]
      refine writes_least hne hdigits ?_
      rw [htext, hleast]
      decide
  · rename_i hnonneg
    have hn : n.toInt = Decimal.natOfDigits digits.toList := by omega
    have hlt : Decimal.natOfDigits digits.toList < Nat.pow 2 63 := by
      change _ < 9223372036854775808
      omega
    rw [hn]
    exact writes_digits hne hdigits hlt

/-- Digits are read as their value if it fits in 64 bits, and else are reported.  Behind a minus
sign one more value fits, but only without zeros before it.  So every integer is read as it is
printed. -/
theorem Expr.parse_integer_range (digits : String) (n : Int64) :
    (digits.toList ≠ [] → IsDigits digits.toList →
      ∀ v, Decimal.natOfDigits digits.toList = v →
        (v < Nat.pow 2 63 → Writes digits v) ∧ (Nat.pow 2 63 ≤ v → OutOfRange digits) ∧
        (v < Nat.pow 2 63 ∨ v = Nat.pow 2 63 ∧ digits.toList.head? ≠ some '0' →
          Writes ("-" ++ digits) (-v)) ∧
        (Nat.pow 2 63 < v ∨ v = Nat.pow 2 63 ∧ digits.toList.head? = some '0' →
          OutOfRange ("-" ++ digits))) ∧
    Writes (Value.integer n).render n.toInt := by
  refine ⟨?_, writes_render n⟩
  rintro hne hdigits _ rfl
  refine ⟨writes_digits hne hdigits, outOfRange_digits hne hdigits, ?_, ?_⟩
  · rintro (hlt | hleast)
    · exact writes_negative hne hdigits hlt
    · exact writes_least hne hdigits ((eq_minimumDigits_iff hdigits hne).2 hleast)
  · intro h
    refine outOfRange_negative hne hdigits ?_ fun hminimum => ?_
    · rcases h with hlt | ⟨heq, -⟩
      · exact Nat.le_of_lt hlt
      · exact Nat.le_of_eq heq.symm
    · obtain ⟨heq, hhead⟩ := (eq_minimumDigits_iff hdigits hne).1 hminimum
      rcases h with hlt | ⟨-, hzero⟩
      · exact absurd heq.symm (Nat.ne_of_lt hlt)
      · exact hhead hzero

/-- Zeros before the greatest integer, and the least integer, which is out of range without its
sign. -/
theorem parse_integer_range_ends :
    Writes "009223372036854775807" 9223372036854775807 ∧
      Writes ("-" ++ "009223372036854775807") (-9223372036854775807) ∧
      Writes ("-" ++ "9223372036854775808") (-9223372036854775808) ∧
      OutOfRange "9223372036854775808" ∧ Writes "-9223372036854775808" Int64.minValue.toInt := by
  obtain ⟨hdigits, hleast⟩ := Expr.parse_integer_range "009223372036854775807" Int64.minValue
  obtain ⟨hgreatest, -, hopposite, -⟩ :=
    hdigits (by decide) (List.all_eq_true.1 (by decide)) 9223372036854775807 (by decide)
  obtain ⟨-, hrange, hsigned, -⟩ := (Expr.parse_integer_range "9223372036854775808" 0).1
    (by decide) (List.all_eq_true.1 (by decide)) 9223372036854775808 (by decide)
  exact ⟨hgreatest (by decide), hopposite (.inl (by decide)), hsigned (.inr ⟨rfl, by decide⟩),
    hrange (Nat.le_refl _), hleast⟩

/-- The number fits in 64 bits with its sign and is reported for the zero before it. -/
theorem outOfRange_leading_zero :
    Decimal.natOfDigits "09223372036854775808".toList = Nat.pow 2 63 ∧
      Expr.parse "-09223372036854775808" =
        .error (.integerRange ⟨1, 20⟩ "09223372036854775808") :=
  ⟨by decide, eq_error_of_errorOf? (by decide +kernel)⟩

end BlockScript
