import BlockScript.Proofs.Tree.Datum
import BlockScript.Proofs.Tree.Soundness

/-!
# Programs read back from s-expressions

Every node of a program is shown as a list with a head that tells its kind, except for names and
`nil`.  A head is shared only by negation and subtraction, which differ in the number of their items.
So a program is read back from the datum that it is shown as, up to its spans, and two programs with
the same text are the same.  The one thing taken on trust is that the decimals in the programs are
written differently if they are different.
-/

namespace BlockScript

open Grammar
open SExpr (AllLegible isBare isDelimiter)

/-! ## Names and numbers are atoms -/

namespace SExpr

theorem isBare_iff {text : List Char} :
    isBare text = true ↔ text ≠ [] ∧ ∀ c ∈ text, isDelimiter c = false := by
  simp [isBare]

theorem isDelimiter_of_isWordChar {c : Char} (h : isWordChar c = true) : isDelimiter c = false := by
  have hne : ∀ d : Char, isWordChar d = false → c ≠ d := by
    intro d hd heq
    rw [heq, hd] at h
    cases h
  simp [isDelimiter, hne ' ' rfl, hne '\n' rfl, hne '(' rfl, hne ')' rfl, hne '"' rfl]

theorem isBare_of_isIdentifier {name : List Char} (h : IsIdentifier name) : isBare name = true := by
  obtain ⟨c, tail, rfl, hc, htail, -⟩ := h
  rw [isBare_iff]
  refine ⟨List.cons_ne_nil _ _, List.forall_mem_cons.2 ⟨?_, ?_⟩⟩
  · exact isDelimiter_of_isWordChar (isWordChar_of_isWordStart hc)
  · exact fun d hd => isDelimiter_of_isWordChar (htail d hd)

end SExpr

open SExpr (isBare_iff isBare_of_isIdentifier isDelimiter_of_isWordChar)

namespace Decimal

theorem isDelimiter_of_isDigit {c : Char} (h : c.isDigit = true) : isDelimiter c = false :=
  isDelimiter_of_isWordChar (by simp [isWordChar, Char.isAlphanum, h])

theorem isDelimiter_of_mem_toDigits {n : Nat} {c : Char} (h : c ∈ Nat.toDigits 10 n) :
    isDelimiter c = false :=
  isDelimiter_of_isDigit (Nat.isDigit_of_mem_toDigits (by decide) (by decide) h)

theorem toList_toString (i : Int) : (toString i).toList =
    (if i < 0 then ['-'] else []) ++ Nat.toDigits 10 i.natAbs := by
  cases i with
  | ofNat n =>
    have hn : ¬Int.ofNat n < 0 := by simp
    rw [if_neg hn]
    show (String.ofList (Nat.toDigits 10 n)).toList = _
    rw [String.toList_ofList]
    rfl
  | negSucc n =>
    rw [if_pos (Int.negSucc_lt_zero n)]
    show ("-" ++ String.ofList (Nat.toDigits 10 (n + 1))).toList = _
    rw [String.toList_append, String.toList_ofList (l := Nat.toDigits 10 (n + 1))]
    rfl

theorem isBare_toString (i : Int) : isBare (toString i).toList = true := by
  rw [toList_toString, isBare_iff]
  refine ⟨?_, List.forall_mem_append.2 ⟨?_, fun c hc => isDelimiter_of_mem_toDigits hc⟩⟩
  · exact List.append_ne_nil_of_right_ne_nil _ Nat.toDigits_ne_nil
  · by_cases hi : i < 0
    · rw [if_pos hi]
      simp [isDelimiter]
    · simp [hi]

theorem isDelimiter_of_mem_shortest {m : Nat} {e : Int} {c : Char}
    (h : c ∈ (shortest m e).digits) : isDelimiter c = false := by
  unfold shortest at h
  simp only at h
  cases hfound : (List.range 17).findSome? fun (count : Nat) =>
      ((interval m e).neighbour? (pointOf m e - (count + 1))).map fun n =>
        digitsOf n (pointOf m e - (count + 1)) with
  | none => simp [hfound] at h
  | some d =>
    obtain ⟨count, -, hcount⟩ := List.exists_of_findSome?_eq_some hfound
    obtain ⟨n, -, rfl⟩ := Option.map_eq_some_iff.1 hcount
    rw [hfound] at h
    have hmem := (List.dropWhile_sublist _).subset (List.mem_reverse.1 h)
    exact isDelimiter_of_mem_toDigits (List.mem_reverse.1 hmem)

theorem isBare_positional {d : Digits} (h : ∀ c ∈ d.digits, isDelimiter c = false) :
    isBare (d.positional true) = true := by
  have hzeros : ∀ count, ∀ c ∈ zeros count, isDelimiter c = false := by
    intro count c hc
    rw [List.eq_of_mem_replicate hc]
    rfl
  have hpoint : isDelimiter '.' = false ∧ isDelimiter '0' = false := by decide
  rw [isBare_iff, Digits.positional]
  simp only
  split
  · refine ⟨List.cons_ne_nil _ _, ?_⟩
    simpa [or_imp, forall_and, hpoint] using ⟨hzeros _, h⟩
  · split
    · refine ⟨by simp, ?_⟩
      simpa [or_imp, forall_and, hpoint] using ⟨h, hzeros _⟩
    · refine ⟨by simp, List.forall_mem_append.2 ⟨?_, List.forall_mem_cons.2 ⟨hpoint.1, ?_⟩⟩⟩
      · exact fun c hc => h c (List.mem_of_mem_take hc)
      · exact fun c hc => h c (List.mem_of_mem_drop hc)

theorem isBare_scientific {d : Digits} (h : ∀ c ∈ d.digits, isDelimiter c = false) :
    isBare d.scientific = true := by
  have hfraction : ∀ c ∈ d.digits.drop 1, isDelimiter c = false := by
    intro c hc
    exact h c (List.mem_of_mem_drop hc)
  rw [isBare_iff, Digits.scientific]
  simp only [List.forall_mem_append, List.forall_mem_cons]
  refine ⟨by simp, ⟨fun c hc => h c (List.mem_of_mem_take hc), ?_⟩, by decide, ?_⟩
  · split
    · simp
    · exact List.forall_mem_cons.2 ⟨by decide, hfraction⟩
  · exact (isBare_iff.1 (isBare_toString _)).2

theorem isBare_write {d : Digits} (h : ∀ c ∈ d.digits, isDelimiter c = false) :
    isBare (Style.precise.write d) = true := by
  simp only [Style.write, Style.precise]
  split
  · exact isBare_positional h
  · exact isBare_scientific h

theorem isBare_signed {negative : Bool} {text : List Char} (h : isBare text = true) :
    isBare (signed negative text).toList = true := by
  rw [signed, String.toList_ofList]
  cases negative with
  | false => exact h
  | true =>
    rw [isBare_iff] at h
    exact isBare_iff.2 ⟨List.cons_ne_nil _ _, List.forall_mem_cons.2 ⟨by decide, h.2⟩⟩

theorem isBare_text (value : Float) : isBare (Style.precise.text value).toList = true := by
  unfold Style.text
  split
  · decide
  · exact isBare_signed (by decide)
  · split
    · exact isBare_signed (by decide)
    · exact isBare_signed (isBare_write fun c hc => isDelimiter_of_mem_shortest hc)

end Decimal

/-! ## Programs are legible -/

theorem UnaryOp.isBare_symbol (op : UnaryOp) : isBare op.symbol.toList = true := by
  cases op <;> decide

theorem BinaryOp.isBare_symbol (op : BinaryOp) : isBare op.symbol.toList = true := by
  cases op <;> decide

theorem UpdateOp.isBare_symbol (op : UpdateOp) : isBare op.symbol.toList = true := by
  cases op <;> decide

theorem isBare_stepHead (fixity : Fixity) (direction : Direction) :
    isBare (fixity.mark ++ direction.symbol).toList = true := by
  cases fixity <;> cases direction <;> decide

theorem Expr.legible_toSExpr {e : Expr} (h : e.Canonical) : e.toSExpr.Legible := by
  induction e with
  | integer value span => exact ⟨by decide, .inl (Decimal.isBare_toString _), trivial⟩
  | float value span => exact ⟨by decide, .inl (Decimal.isBare_text value), trivial⟩
  | string token span => exact ⟨by decide, .inr (isToken_string.1 h), trivial⟩
  | boolean value span => exact ⟨by decide, .inl (by cases value <;> decide), trivial⟩
  | nil span => exact .inl (by decide)
  | name id => exact .inl (isBare_of_isIdentifier h)
  | group inner span ih => exact ⟨by decide, ih h, trivial⟩
  | unary op operand span ih => exact ⟨op.isBare_symbol, ih h.2, trivial⟩
  | binary op left right span ihleft ihright =>
    obtain ⟨-, -, -, hleft, hright⟩ := h
    exact ⟨op.isBare_symbol, ihleft hleft, ihright hright, trivial⟩
  | step direction fixity target span =>
    exact ⟨isBare_stepHead fixity direction, .inl (isBare_of_isIdentifier h), trivial⟩
  | update op target value span ih =>
    exact ⟨op.isBare_symbol, .inl (isBare_of_isIdentifier h.1), ih h.2, trivial⟩

theorem Assignment.legible_toSExpr {a : Assignment} (h : a.Canonical) : a.toSExpr.Legible :=
  ⟨by decide, .inl (isBare_of_isIdentifier h.1), Expr.legible_toSExpr h.2, trivial⟩

theorem legible_initSExpr {init : Option Assignment} (h : ∀ a, init = some a → a.Canonical) :
    (initSExpr init).Legible := by
  cases init with
  | none => exact ⟨by decide, trivial⟩
  | some a => exact Assignment.legible_toSExpr (h a rfl)

mutual

theorem Statement.legible_toSExpr (s : Statement) (h : s.Canonical) : s.toSExpr.Legible := by
  cases s with
  | assign a => exact Assignment.legible_toSExpr h
  | print mode value span =>
    exact ⟨by cases mode <;> decide, Expr.legible_toSExpr h, trivial⟩
  | block body => exact body.legible_toSExpr h
  | conditional arms span => exact ⟨by decide, arms.legible_toSExprs h.2⟩
  | whileLoop condition body span =>
    exact ⟨by decide, Expr.legible_toSExpr h.1, body.legible_toSExpr h.2, trivial⟩
  | forLoop init condition update body span =>
    obtain ⟨hinit, hcondition, hupdate, hbody⟩ := h
    exact ⟨by decide, legible_initSExpr hinit, Expr.legible_toSExpr hcondition,
      Expr.legible_toSExpr hupdate, body.legible_toSExpr hbody, trivial⟩
  | expression value span => exact Expr.legible_toSExpr h

theorem Block.legible_toSExpr (b : Block) (h : b.Canonical) : b.toSExpr.Legible := by
  cases b with
  | mk statements span => exact ⟨by decide, Statement.legible_toSExprs statements h⟩

theorem Arms.legible_toSExprs (arms : Arms) (h : arms.Canonical) : AllLegible arms.toSExprs := by
  cases arms with
  | done => trivial
  | otherwise body => exact ⟨⟨by decide, body.legible_toSExpr h, trivial⟩, trivial⟩
  | arm condition body span rest =>
    obtain ⟨hcondition, hbody, hrest⟩ := h
    exact ⟨⟨by decide, Expr.legible_toSExpr hcondition, body.legible_toSExpr hbody, trivial⟩,
      rest.legible_toSExprs hrest⟩

theorem Statement.legible_toSExprs (statements : List Statement)
    (h : Statement.AllCanonical statements) : AllLegible (Statement.toSExprs statements) := by
  cases statements with
  | nil => trivial
  | cons statement rest =>
    exact ⟨statement.legible_toSExpr h.1, Statement.legible_toSExprs rest h.2⟩

end

theorem Program.legible_toSExpr {p : Program} (h : p.Canonical) : p.toSExpr.Legible :=
  ⟨by decide, Statement.legible_toSExprs p.statements h⟩

/-! ## Decimals of a program -/

def Expr.floats : Expr → List Float
  | .float value _ => [value]
  | .group inner _ => inner.floats
  | .unary _ operand _ => operand.floats
  | .binary _ left right _ => left.floats ++ right.floats
  | .update _ _ value _ => value.floats
  | _ => []

def initFloats : Option Assignment → List Float
  | some a => a.value.floats
  | none => []

mutual

def Statement.floats : Statement → List Float
  | .assign a => a.value.floats
  | .print _ value _ => value.floats
  | .block body => body.floats
  | .conditional arms _ => arms.floats
  | .whileLoop condition body _ => condition.floats ++ body.floats
  | .forLoop init condition update body _ =>
    initFloats init ++ condition.floats ++ update.floats ++ body.floats
  | .expression value _ => value.floats

def Block.floats : Block → List Float
  | .mk statements _ => Statement.floatsAll statements

def Arms.floats : Arms → List Float
  | .done => []
  | .otherwise body => body.floats
  | .arm condition body _ rest => condition.floats ++ body.floats ++ rest.floats

def Statement.floatsAll : List Statement → List Float
  | [] => []
  | statement :: rest => statement.floats ++ Statement.floatsAll rest

end

def Program.floats (p : Program) : List Float :=
  Statement.floatsAll p.statements

/-! ## Reading a datum -/

def Decimal.intOfText : List Char → Int
  | '-' :: digits => -(natOfDigits digits : Int)
  | digits => natOfDigits digits

theorem Decimal.intOfText_toString (i : Int) : intOfText (toString i).toList = i := by
  have hdigits : natOfDigits (Nat.toDigits 10 i.natAbs) = i.natAbs :=
    Nat.ofDigitChars_toDigits (by decide) (by decide)
  rw [toList_toString]
  by_cases hi : i < 0
  · rw [if_pos hi]
    show -(natOfDigits (Nat.toDigits 10 i.natAbs) : Int) = i
    omega
  · rw [if_neg hi, List.nil_append]
    unfold intOfText
    split
    · rename_i digits heq
      have hminus := Nat.isDigit_of_mem_toDigits (by decide) (by decide)
        (heq ▸ List.mem_cons_self : '-' ∈ Nat.toDigits 10 i.natAbs)
      cases hminus
    · omega

/-- The text of an item that is an atom. -/
def Datum.text : Datum → String
  | .atom text => text
  | .list _ _ => ""

def UpdateOp.ofSymbol? (symbol : String) : Option UpdateOp :=
  [.add, .subtract, .multiply, .divide, .modulo].find? fun op => op.symbol == symbol

section Reader

-- the decimals are looked up by their text
variable (floatOf : String → Option Float)

/-- An expression with a single item. -/
def Expr.withItem? (head text : String) (operand : Option Expr) : Option Expr :=
  match head with
  | "integer" => some (.integer (Int64.ofInt (Decimal.intOfText text.toList)) default)
  | "float" => (floatOf text).map fun value => .float value default
  | "string" => some (.string text default)
  | "boolean" => some (.boolean (text == "true") default)
  | "group" => operand.map fun inner => .group inner default
  | "not" => operand.map fun inner => .unary .not inner default
  | "-" => operand.map fun inner => .unary .negate inner default
  | "pre++" => some (.step .up .before ⟨text, default⟩ default)
  | "pre--" => some (.step .down .before ⟨text, default⟩ default)
  | "post++" => some (.step .up .after ⟨text, default⟩ default)
  | "post--" => some (.step .down .after ⟨text, default⟩ default)
  | _ => none

/-- An expression with two items. -/
def Expr.withItems? (head name : String) (left right : Option Expr) : Option Expr :=
  match UpdateOp.ofSymbol? head with
  | some op => right.map fun value => .update op ⟨name, default⟩ value default
  | none => do return .binary (← BinaryOp.ofSymbol? head) (← left) (← right) default

def Expr.ofDatum? : Datum → Option Expr
  | .atom text => some (if text = "nil" then .nil default else .name ⟨text, default⟩)
  | .list head [item] => Expr.withItem? floatOf head item.text (Expr.ofDatum? item)
  | .list head [item, item'] =>
    Expr.withItems? head item.text (Expr.ofDatum? item) (Expr.ofDatum? item')
  | .list _ _ => none

def Assignment.ofDatum? : Datum → Option Assignment
  | .list "assign" [target, value] =>
    (Expr.ofDatum? floatOf value).map fun value => ⟨⟨target.text, default⟩, value, default⟩
  | _ => none

def initOfDatum? : Datum → Option (Option Assignment)
  | .list "no-init" [] => some none
  | datum => (Assignment.ofDatum? floatOf datum).map some

mutual

def Statement.ofDatum? : Datum → Option Statement
  | .list "assign" items => (Assignment.ofDatum? floatOf (.list "assign" items)).map .assign
  | .list "print_value" [value] =>
    (Expr.ofDatum? floatOf value).map fun value => .print .value value default
  | .list "print_line" [value] =>
    (Expr.ofDatum? floatOf value).map fun value => .print .line value default
  | .list "block" items =>
    (Statement.ofData? items).map fun statements => .block (.mk statements default)
  | .list "if" items => (Arms.ofData? items).map fun arms => .conditional arms default
  | .list "while" [condition, body] => do
    return .whileLoop (← Expr.ofDatum? floatOf condition) (← Block.ofDatum? body) default
  | .list "for" [init, condition, update, body] => do
    return .forLoop (← initOfDatum? floatOf init) (← Expr.ofDatum? floatOf condition)
      (← Expr.ofDatum? floatOf update) (← Block.ofDatum? body) default
  | datum => (Expr.ofDatum? floatOf datum).map fun value => .expression value default

def Block.ofDatum? : Datum → Option Block
  | .list "block" items => (Statement.ofData? items).map fun statements => .mk statements default
  | _ => none

def Arms.ofData? : List Datum → Option Arms
  | [] => some .done
  | [.list "else" [body]] => (Block.ofDatum? body).map .otherwise
  | .list "when" [condition, body] :: rest => do
    return .arm (← Expr.ofDatum? floatOf condition) (← Block.ofDatum? body) default
      (← Arms.ofData? rest)
  | _ => none

def Statement.ofData? : List Datum → Option (List Statement)
  | [] => some []
  | datum :: rest => do return (← Statement.ofDatum? datum) :: (← Statement.ofData? rest)

end

/-- Decimals that are found by their text. -/
def Recalls (floats : List Float) : Prop :=
  ∀ value ∈ floats, floatOf (Decimal.Style.precise.text value) = some value

theorem recalls_append {floats floats' : List Float} :
    Recalls floatOf (floats ++ floats') ↔ Recalls floatOf floats ∧ Recalls floatOf floats' :=
  List.forall_mem_append

theorem Expr.ofDatum?_toSExpr {e : Expr} (hcanonical : e.Canonical)
    (hfloats : Recalls floatOf e.floats) :
    Expr.ofDatum? floatOf e.toSExpr.datum = some e.erase := by
  induction e with
  | integer value span =>
    show some (Expr.integer (Int64.ofInt (Decimal.intOfText (toString value.toInt).toList)) _) = _
    rw [Decimal.intOfText_toString, Int64.ofInt_toInt]
    rfl
  | float value span =>
    show (floatOf (Decimal.Style.precise.text value)).map _ = _
    rw [hfloats value (List.mem_singleton.2 rfl)]
    rfl
  | string token span => rfl
  | boolean value span => cases value <;> rfl
  | nil span => rfl
  | name id =>
    -- the other bare atom is a keyword
    have hne : id.name ≠ "nil" := by
      intro heq
      obtain ⟨_, _, -, -, -, hkeyword⟩ := hcanonical
      rw [heq] at hkeyword
      exact hkeyword (by decide)
    show some (if id.name = "nil" then _ else _) = _
    rw [if_neg hne]
    rfl
  | group inner span ih =>
    show (Expr.ofDatum? floatOf inner.toSExpr.datum).map _ = _
    rw [ih hcanonical hfloats]
    rfl
  | unary op operand span ih =>
    show Expr.withItem? floatOf op.symbol _ (Expr.ofDatum? floatOf operand.toSExpr.datum) = _
    rw [ih hcanonical.2 hfloats]
    cases op <;> rfl
  | binary op left right span ihleft ihright =>
    obtain ⟨-, -, -, hleft, hright⟩ := hcanonical
    obtain ⟨hfloatsLeft, hfloatsRight⟩ := (recalls_append floatOf).1 hfloats
    show Expr.withItems? op.symbol _ (Expr.ofDatum? floatOf left.toSExpr.datum)
      (Expr.ofDatum? floatOf right.toSExpr.datum) = _
    rw [ihleft hleft hfloatsLeft, ihright hright hfloatsRight]
    cases op <;> rfl
  | step direction fixity target span => cases direction <;> cases fixity <;> rfl
  | update op target value span ih =>
    show Expr.withItems? op.symbol _ _ (Expr.ofDatum? floatOf value.toSExpr.datum) = _
    rw [ih hcanonical.2 hfloats]
    cases op <;> rfl

theorem Assignment.ofDatum?_toSExpr {a : Assignment} (hcanonical : a.Canonical)
    (hfloats : Recalls floatOf a.value.floats) :
    Assignment.ofDatum? floatOf a.toSExpr.datum = some a.erase := by
  show (Expr.ofDatum? floatOf a.value.toSExpr.datum).map _ = _
  rw [Expr.ofDatum?_toSExpr floatOf hcanonical.2 hfloats]
  rfl

theorem initOfDatum?_initSExpr {init : Option Assignment}
    (hcanonical : ∀ a, init = some a → a.Canonical)
    (hfloats : Recalls floatOf (initFloats init)) :
    initOfDatum? floatOf (initSExpr init).datum = some (init.map Assignment.erase) := by
  cases init with
  | none => rfl
  | some a =>
    show (Assignment.ofDatum? floatOf a.toSExpr.datum).map some = _
    rw [Assignment.ofDatum?_toSExpr floatOf (hcanonical a rfl) hfloats]
    rfl

/-- No expression has the head of a statement. -/
theorem Statement.ofDatum?_expression (e : Expr) :
    Statement.ofDatum? floatOf e.toSExpr.datum =
      (Expr.ofDatum? floatOf e.toSExpr.datum).map fun value => .expression value default := by
  cases e with
  | unary op operand span => cases op <;> rfl
  | binary op left right span => cases op <;> rfl
  | step direction fixity target span => cases direction <;> cases fixity <;> rfl
  | update op target value span => cases op <;> rfl
  | _ => rfl

mutual

theorem Statement.ofDatum?_toSExpr (s : Statement) (hcanonical : s.Canonical)
    (hfloats : Recalls floatOf s.floats) :
    Statement.ofDatum? floatOf s.toSExpr.datum = some s.erase := by
  cases s with
  | assign a =>
    show (Assignment.ofDatum? floatOf a.toSExpr.datum).map _ = _
    rw [Assignment.ofDatum?_toSExpr floatOf hcanonical hfloats]
    rfl
  | print mode value span =>
    have hdatum : Statement.ofDatum? floatOf (Statement.print mode value span).toSExpr.datum =
        (Expr.ofDatum? floatOf value.toSExpr.datum).map fun value => .print mode value default := by
      cases mode <;> rfl
    rw [hdatum, Expr.ofDatum?_toSExpr floatOf hcanonical hfloats]
    rfl
  | block body =>
    cases body with
    | mk statements span =>
      show (Statement.ofData? floatOf (SExpr.dataOf (Statement.toSExprs statements))).map _ = _
      rw [Statement.ofData?_toSExprs statements hcanonical hfloats]
      rfl
  | conditional arms span =>
    show (Arms.ofData? floatOf (SExpr.dataOf arms.toSExprs)).map _ = _
    rw [arms.ofData?_toSExprs hcanonical.2 hfloats]
    rfl
  | whileLoop condition body span =>
    obtain ⟨hfloatsCondition, hfloatsBody⟩ := (recalls_append floatOf).1 hfloats
    show (Expr.ofDatum? floatOf condition.toSExpr.datum).bind (fun _ =>
      (Block.ofDatum? floatOf body.toSExpr.datum).bind _) = _
    rw [Expr.ofDatum?_toSExpr floatOf hcanonical.1 hfloatsCondition,
      body.ofDatum?_toSExpr hcanonical.2 hfloatsBody]
    rfl
  | forLoop init condition update body span =>
    obtain ⟨hinit, hcondition, hupdate, hbody⟩ := hcanonical
    simp only [Statement.floats, recalls_append] at hfloats
    obtain ⟨⟨⟨hfloatsInit, hfloatsCondition⟩, hfloatsUpdate⟩, hfloatsBody⟩ := hfloats
    show (initOfDatum? floatOf (initSExpr init).datum).bind (fun _ =>
      (Expr.ofDatum? floatOf condition.toSExpr.datum).bind fun _ =>
        (Expr.ofDatum? floatOf update.toSExpr.datum).bind fun _ =>
          (Block.ofDatum? floatOf body.toSExpr.datum).bind _) = _
    rw [initOfDatum?_initSExpr floatOf hinit hfloatsInit,
      Expr.ofDatum?_toSExpr floatOf hcondition hfloatsCondition,
      Expr.ofDatum?_toSExpr floatOf hupdate hfloatsUpdate, body.ofDatum?_toSExpr hbody hfloatsBody]
    rfl
  | expression value span =>
    rw [Statement.toSExpr, Statement.ofDatum?_expression,
      Expr.ofDatum?_toSExpr floatOf hcanonical hfloats]
    rfl

theorem Block.ofDatum?_toSExpr (b : Block) (hcanonical : b.Canonical)
    (hfloats : Recalls floatOf b.floats) :
    Block.ofDatum? floatOf b.toSExpr.datum = some b.erase := by
  cases b with
  | mk statements span =>
    show (Statement.ofData? floatOf (SExpr.dataOf (Statement.toSExprs statements))).map _ = _
    rw [Statement.ofData?_toSExprs statements hcanonical hfloats]
    rfl

theorem Arms.ofData?_toSExprs (arms : Arms) (hcanonical : arms.Canonical)
    (hfloats : Recalls floatOf arms.floats) :
    Arms.ofData? floatOf (SExpr.dataOf arms.toSExprs) = some arms.erase := by
  cases arms with
  | done => rfl
  | otherwise body =>
    show (Block.ofDatum? floatOf body.toSExpr.datum).map _ = _
    rw [body.ofDatum?_toSExpr hcanonical hfloats]
    rfl
  | arm condition body span rest =>
    obtain ⟨hcondition, hbody, hrest⟩ := hcanonical
    simp only [Arms.floats, recalls_append] at hfloats
    obtain ⟨⟨hfloatsCondition, hfloatsBody⟩, hfloatsRest⟩ := hfloats
    show (Expr.ofDatum? floatOf condition.toSExpr.datum).bind (fun _ =>
      (Block.ofDatum? floatOf body.toSExpr.datum).bind fun _ =>
        (Arms.ofData? floatOf (SExpr.dataOf rest.toSExprs)).bind _) = _
    rw [Expr.ofDatum?_toSExpr floatOf hcondition hfloatsCondition,
      body.ofDatum?_toSExpr hbody hfloatsBody, rest.ofData?_toSExprs hrest hfloatsRest]
    rfl

theorem Statement.ofData?_toSExprs (statements : List Statement)
    (hcanonical : Statement.AllCanonical statements)
    (hfloats : Recalls floatOf (Statement.floatsAll statements)) :
    Statement.ofData? floatOf (SExpr.dataOf (Statement.toSExprs statements)) =
      some (Statement.eraseAll statements) := by
  cases statements with
  | nil => rfl
  | cons statement rest =>
    obtain ⟨hfloatsFirst, hfloatsRest⟩ := (recalls_append floatOf).1 hfloats
    show (Statement.ofDatum? floatOf statement.toSExpr.datum).bind (fun _ =>
      (Statement.ofData? floatOf (SExpr.dataOf (Statement.toSExprs rest))).bind _) = _
    rw [statement.ofDatum?_toSExpr hcanonical.1 hfloatsFirst,
      Statement.ofData?_toSExprs rest hcanonical.2 hfloatsRest]
    rfl

end

end Reader

/-! ## Programs with the same text -/

def floatAmong (floats : List Float) (text : String) : Option Float :=
  floats.find? fun value => Decimal.Style.precise.text value == text

theorem recalls_floatAmong {floats : List Float}
    (h : ∀ a ∈ floats, ∀ b ∈ floats,
      Decimal.Style.precise.text a = Decimal.Style.precise.text b → a = b) :
    Recalls (floatAmong floats) floats := by
  intro value hmem
  cases hfound : floatAmong floats (Decimal.Style.precise.text value) with
  | none =>
    have hne := List.find?_eq_none.1 hfound value hmem
    exact absurd (beq_self_eq_true _) hne
  | some found =>
    unfold floatAmong at hfound
    have htext := List.find?_some hfound
    rw [h found (List.mem_of_find?_eq_some hfound) value hmem (beq_iff_eq.1 htext)]

/-- Programs that are shown by the same text are the same up to spans, if different decimals in them
are written differently. -/
theorem Program.eraseAll_eq_of_render {source source' : String} {file file' : Option String}
    {p q : Program} (hp : Program.parse source file = .ok p)
    (hq : Program.parse source' file' = .ok q)
    (hfloats : ∀ a ∈ p.floats ++ q.floats, ∀ b ∈ p.floats ++ q.floats,
      Decimal.Style.precise.text a = Decimal.Style.precise.text b → a = b)
    (h : p.toSExpr.render = q.toSExpr.render) :
    Statement.eraseAll p.statements = Statement.eraseAll q.statements := by
  have hcanonical := Program.canonical_of_parse hp
  have hcanonical' := Program.canonical_of_parse hq
  have hdatum := SExpr.datum_eq_of_render (Program.legible_toSExpr hcanonical)
    (Program.legible_toSExpr hcanonical') h
  obtain ⟨-, hdata⟩ := Datum.list.inj hdatum
  obtain ⟨hrecalls, hrecalls'⟩ := (recalls_append _).1 (recalls_floatAmong hfloats)
  have hread := Statement.ofData?_toSExprs _ p.statements hcanonical hrecalls
  have hread' := Statement.ofData?_toSExprs _ q.statements hcanonical' hrecalls'
  rw [hdata, hread'] at hread
  exact (Option.some.inj hread).symm

/-- A string with delimiters in it, and a loop over two floats that are written in other ways. -/
theorem eraseAll_eq_of_render_delimiters : ∃ p q,
    Program.parse "a=\") \"\"(\";while a\x7b-1.5;a-=25e-3\x7d" none = .ok p ∧
      Program.parse "a = \") \"\"(\" # a\nwhile a \x7b - 1.50 a -= .025; \x7d" none = .ok q ∧
      p.floats.length = 2 ∧ Statement.eraseAll p.statements = Statement.eraseAll q.statements := by
  have hread : ((Program.parse "a=\") \"\"(\";while a\x7b-1.5;a-=25e-3\x7d" none).toOption.bind
      fun p => (Program.parse "a = \") \"\"(\" # a\nwhile a \x7b - 1.50 a -= .025; \x7d"
        none).toOption.map fun q => (p.floats.length, p.toSExpr.render == q.toSExpr.render,
          decide (∀ a ∈ p.floats ++ q.floats, ∀ b ∈ p.floats ++ q.floats,
            Decimal.Style.precise.text a = Decimal.Style.precise.text b → a = b))) =
      some (2, true, true) := by
    decide +kernel
  cases hp : Program.parse "a=\") \"\"(\";while a\x7b-1.5;a-=25e-3\x7d" none with
  | error e => simp [hp, Except.toOption] at hread
  | ok p =>
    cases hq : Program.parse "a = \") \"\"(\" # a\nwhile a \x7b - 1.50 a -= .025; \x7d" none with
    | error e => simp [hp, hq, Except.toOption] at hread
    | ok q =>
      rw [hp, hq] at hread
      obtain ⟨hcount, hmore⟩ := Prod.mk.inj (Option.some.inj hread)
      obtain ⟨hrender, hfloats⟩ := Prod.mk.inj hmore
      exact ⟨p, q, rfl, rfl, hcount, Program.eraseAll_eq_of_render hp hq
        (of_decide_eq_true hfloats) (beq_iff_eq.1 hrender)⟩

end BlockScript
