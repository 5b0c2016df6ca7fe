import BlockScript.Proofs.Grammar.Expressions
import BlockScript.Proofs.Grammar.Terminals
import BlockScript.Proofs.Tree.Itemized

/-!
# Rendered operators and operands

Every operator and every operand of a canonical tree is found by its rule where it is rendered.  The
alternatives that are tried before that rule are refused there: by the first character, by the
whole word, or, behind an identifier, by the token that follows it.
-/

namespace BlockScript

open Grammar Reader
open Peg (Node Pattern)

/-! ## Operators -/

theorem takes_binaryOperator (op : BinaryOp) (tokens : List String) :
    Takes binaryOperator (trail (op.symbol :: tokens)) (trail tokens) (Itemized [.infixed op]) := by
  have hsolid : Solid op.symbol := by cases op <;> decide
  refine takes_token hsolid fun pos => ?_
  rcases spaced_trail tokens with h | ⟨tail, h⟩ <;> rw [h] <;> cases op
  all_goals exact ⟨_, ⟨30, _, rfl, rfl⟩, itemized_infixed rfl nofun nofun⟩

/-- A node that is read as an operator before its operand. -/
def IsLeading (op : UnaryOp) (node : Node Rule) : Prop :=
  (∃ start, operatorOf? node = some (.leading op start)) ∧ node.rule ≠ .integer

theorem takes_leadingOperator (op : UnaryOp) (tokens : List String) :
    Takes leadingOperator (trail (op.symbol :: tokens)) (trail tokens) (Single (IsLeading op)) := by
  have hsolid : Solid op.symbol := by cases op <;> decide
  refine takes_token hsolid fun pos => ?_
  rcases spaced_trail tokens with h | ⟨tail, h⟩ <;> rw [h] <;> cases op
  all_goals exact ⟨_, ⟨30, _, rfl, rfl⟩, _, rfl, ⟨_, rfl⟩, nofun⟩

theorem takes_compoundOperator (op : UpdateOp) (tokens : List String) :
    Takes compoundOperator (trail (op.symbol :: tokens)) (trail tokens)
      (Single fun node => readUpdateOp node = .ok op) := by
  have hsolid : Solid op.symbol := by cases op <;> decide
  refine takes_token hsolid fun pos => ?_
  rcases spaced_trail tokens with h | ⟨tail, h⟩ <;> rw [h] <;> cases op
  all_goals exact ⟨_, ⟨30, _, rfl, rfl⟩, _, rfl, rfl⟩

/-! ## Operands -/

/-- A node that is read as this operand up to spans. -/
structure IsOperand (e : Expr) (node : Node Rule) : Prop where
  operator : operatorOf? node = none
  digits : ¬ (node.rule = .integer ∧ node.text = minimumDigits)
  reads : ∃ e', readPrimary node = .ok e' ∧ e'.erase = e.erase

theorem IsOperand.itemized {e : Expr} {node : Node Rule} (h : IsOperand e node) :
    Itemized [.operand e] [node] := by
  obtain ⟨e', hread, herase⟩ := h.reads
  exact itemized_operand h.operator h.digits hread herase

variable {s t : List Char} {tokens : List String}

/-- A primary is found if the ones tried before it are refused. -/
theorem takes_primary {p : Pattern Rule} {Q : List (Node Rule) → Prop}
    (front : List (Pattern Rule)) {back : List (Pattern Rule)}
    (heq : updateForms ++ (literals ++ [.rule .identifier, .rule .parenthesized]) =
      front ++ p :: back)
    (h : Takes p s t Q) (hfront : ∀ r ∈ front, Refuses r s) : Takes primary s t Q := by
  rw [primary_eq, heq]
  exact h.anyOf hfront

theorem takes_operand {e : Expr} (h : Takes primary s t (Single (IsOperand e)))
    (hleading : Refuses leadingOperator s) :
    Takes (.phrase operand) s t (Itemized [.operand e]) := by
  refine ((takes_many_of_refuses hleading).seq h).imp ?_
  rintro _ ⟨_, _, rfl, rfl, node, rfl, hnode⟩
  exact hnode.itemized

/-! ### Literals -/

theorem takes_float {value : Float} {span : Span} {token : String}
    (h : IsToken .float token.toList) (hvalue : Decimal.floatOfText token.toList = value) :
    Takes (.phrase operand) (trail (token :: tokens)) (trail tokens)
      (Itemized [.operand (.float value span)]) := by
  have hfloat := isToken_float.1 h
  obtain ⟨c, tail, htoken, hc⟩ := hfloat.head
  have hplain : Plain (trail (token :: tokens)) := plain_of_head htoken hc
  refine takes_operand (takes_primary updateForms rfl ?_ hplain.updateForms) hplain.leadingOperator
  refine takes_token (solid_of_plainHead htoken hc) fun pos =>
    ⟨_, hfloat.reads ((spaced_trail tokens).stops rfl), _, rfl, rfl, nofun, _, rfl, ?_⟩
  rw [← hvalue]
  rfl

/-- Digits in front of a blank are an integer, since no operand that is tried before matches. -/
theorem reads_digits {pos : Position} {w s : List Char} (hne : w ≠ []) (hw : IsDigits w)
    (hs : Spaced s) : rules.Reads primary pos w s [.mk .integer pos (pos.afterAll w) w []] := by
  obtain ⟨c, tail, rfl, hc⟩ := hw.head hne
  have hfront : ∀ r ∈ updateForms ++ [.rule .float], rules.Fails r (c :: tail ++ s) := by
    refine List.forall_mem_append.2 ⟨fun r hr => ?_, ?_⟩
    · have hfails := (plain_cons hc (tail ++ s)).updateForms r hr
      rwa [Refuses, skip_plainHead hc] at hfails
    · simpa using fails_float_of_digits hne hw hs
  exact reads_anyOf (reads_integer.2 ⟨⟨hne, hw, hs.stops rfl⟩, rfl⟩) hfront

theorem plain_of_digits {token : String} (hne : token.toList ≠ [])
    (hdigits : IsDigits token.toList) : Plain (trail (token :: tokens)) := by
  obtain ⟨c, tail, htoken, hc⟩ := hdigits.head hne
  exact plain_of_head htoken hc

theorem takes_digits {value : Int64} {span : Span} {token : String} (hne : token.toList ≠ [])
    (hdigits : IsDigits token.toList) (hrange : Decimal.natOfDigits token.toList < Nat.pow 2 63)
    (hvalue : Int64.ofNat (Decimal.natOfDigits token.toList) = value) :
    Takes (.phrase operand) (trail (token :: tokens)) (trail tokens)
      (Itemized [.operand (.integer value span)]) := by
  obtain ⟨c, tail, htoken, hc⟩ := hdigits.head hne
  refine takes_operand (takes_token (solid_of_plainHead htoken hc) fun pos =>
    ⟨_, reads_digits hne hdigits (spaced_trail tokens), _, rfl, rfl, ?_, _, if_pos hrange, ?_⟩)
    (plain_of_digits hne hdigits).leadingOperator
  · rintro ⟨-, htext⟩
    -- only the digits that are out of range alone could be meant
    have hminimum : Decimal.natOfDigits minimumDigits = Nat.pow 2 63 := by decide
    rw [← htext] at hminimum
    exact absurd hminimum (Nat.ne_of_lt hrange)
  · rw [← hvalue]
    rfl

theorem digits_of_nonnegative {value : Int64} (h : 0 ≤ value.toInt) :
    ∃ n : Nat, value.toInt = n ∧ (toString value.toInt).toList = Nat.toDigits 10 n ∧
      (toString value.toInt).toList ≠ [] ∧ IsDigits (toString value.toInt).toList := by
  obtain ⟨n, hn⟩ := Int.eq_ofNat_of_zero_le h
  have htoken : (toString value.toInt).toList = Nat.toDigits 10 n := by
    rw [hn]
    show (String.ofList (Nat.toDigits 10 n)).toList = _
    simp
  refine ⟨n, hn, htoken, ?_, ?_⟩ <;> rw [htoken]
  · exact Nat.toDigits_ne_nil
  · exact fun c hc => Nat.isDigit_of_mem_toDigits (by decide) (by decide) hc

theorem plain_nonnegative {value : Int64} (h : 0 ≤ value.toInt) :
    Plain (trail (toString value.toInt :: tokens)) := by
  obtain ⟨n, -, -, hne, hdigits⟩ := digits_of_nonnegative h
  exact plain_of_digits hne hdigits

theorem takes_nonnegative {value : Int64} {span : Span} (h : 0 ≤ value.toInt) :
    Takes (.phrase operand) (trail (toString value.toInt :: tokens)) (trail tokens)
      (Itemized [.operand (.integer value span)]) := by
  obtain ⟨n, hn, htoken, hne, hdigits⟩ := digits_of_nonnegative h
  have hnumber : Decimal.natOfDigits (toString value.toInt).toList = n := by
    rw [htoken]
    exact Nat.ofDigitChars_toDigits (by decide) (by decide)
  have hrange : n < Nat.pow 2 63 := by
    have hlt := value.toInt_lt
    change n < 9223372036854775808
    omega
  refine takes_digits hne hdigits (by rwa [hnumber]) ?_
  rw [hnumber, ← Int64.toInt_inj, Int64.toInt_ofNat_of_lt hrange, hn]

theorem reads_sign {pos : Position} {c : Char} (hc : c ∈ plainHeads) (tail : List Char) :
    rules.Reads (.many leadingOperator) pos ['-'] (c :: tail)
      [.mk .negateOperator pos (pos.afterAll ['-']) ['-'] []] := by
  change c ∈ ['0', '1', '2', '3', '4', '5', '6', '7', '8', '9', '.', '"', '('] at hc
  simp only [List.mem_cons, List.not_mem_nil, or_false] at hc
  rcases hc with rfl | rfl | rfl | rfl | rfl | rfl | rfl | rfl | rfl | rfl | rfl | rfl | rfl
  all_goals exact ⟨30, _, rfl, rfl⟩

theorem reads_negative {pos sign : Position} {w s : List Char} (hsign : sign = pos.afterAll ['-'])
    (hne : w ≠ []) (hw : IsDigits w) (hs : Spaced s) :
    rules.Reads (.phrase operand) pos ('-' :: w) s
      [.mk .negateOperator pos sign ['-'] [], .mk .integer sign (sign.afterAll w) w []] := by
  subst hsign
  obtain ⟨c, tail, htail, hc⟩ := hw.head hne
  have hminus : rules.Reads (.many leadingOperator) pos ['-'] (w ++ s)
      [.mk .negateOperator pos (pos.afterAll ['-']) ['-'] []] := by
    rw [htail]
    exact reads_sign hc (tail ++ s)
  have hgap : rules.Reads .layout (pos.afterAll ['-']) [] (w ++ s) [] := by
    rw [htail]
    exact Peg.Grammar.reads_layout.2 ⟨skip_plainHead hc _, rfl⟩
  exact Peg.Grammar.reads_seq.2 ⟨['-'], w, _, _, rfl, rfl, hminus,
    Peg.Grammar.reads_seq.2 ⟨[], w, [], _, rfl, rfl, hgap, reads_digits hne hw hs⟩⟩

/-- The least integer is a minus sign and digits without a blank between them. -/
theorem takes_least {span : Span} :
    Takes (.phrase operand) (trail (toString Int64.minValue.toInt :: tokens)) (trail tokens)
      (Itemized [.operand (.integer Int64.minValue span)]) := by
  have htoken : (toString Int64.minValue.toInt).toList = '-' :: minimumDigits := by decide
  have hsolid : Solid (toString Int64.minValue.toInt) := by decide
  have hdigits : IsDigits minimumDigits :=
    List.all_eq_true.1 (by decide : minimumDigits.all Char.isDigit = true)
  refine takes_token hsolid fun pos => ?_
  rw [htoken]
  refine ⟨_, reads_negative rfl (by decide) hdigits (spaced_trail tokens), ?_⟩
  exact itemized_least (by simp [isMinimum, Node.rule, Node.text, Node.start, Node.stop])

/-- A string is read where no quote follows; no number begins with a quote. -/
theorem reads_quoted {pos : Position} {w s : List Char} (hw : IsString w)
    (hs : Peg.Stops startsQuote s) :
    rules.Reads primary pos w s [.mk .string pos (pos.afterAll w) w []] := by
  have hfront : ∀ r ∈ updateForms ++ [.rule .float, .rule .integer], rules.Fails r (w ++ s) := by
    obtain ⟨inner, -, rfl⟩ := hw
    have hquote : '"' ∈ plainHeads := by decide
    refine List.forall_mem_append.2 ⟨fun r hr => ?_, ?_⟩
    · have hfails := (plain_cons hquote (inner ++ ['"'] ++ s)).updateForms r hr
      rwa [Refuses, skip_plainHead hquote] at hfails
    · simp only [List.forall_mem_cons, List.not_mem_nil, false_imp_iff, implies_true, and_true]
      constructor <;> exact ⟨20, rfl⟩
  exact reads_anyOf (reads_string.2 ⟨⟨hw, hs⟩, rfl⟩) hfront

theorem takes_string {token : String} {span : Span} (h : IsToken .string token.toList) :
    Takes (.phrase operand) (trail (token :: tokens)) (trail tokens)
      (Itemized [.operand (.string token span)]) := by
  obtain ⟨inner, -, htoken⟩ := isToken_string.1 h
  have hc : '"' ∈ plainHeads := by decide
  refine takes_operand (takes_token (solid_of_plainHead htoken hc) fun pos =>
    ⟨_, reads_quoted (isToken_string.1 h) ((spaced_trail tokens).stops rfl), _, rfl, rfl, nofun, _,
      rfl, ?_⟩) (plain_of_head htoken hc).leadingOperator
  simp [Expr.erase]

theorem takes_boolean (value : Bool) {span : Span} :
    Takes (.phrase operand) (trail ((if value then "true" else "false") :: tokens)) (trail tokens)
      (Itemized [.operand (.boolean value span)]) := by
  have hsolid : Solid (if value then "true" else "false") := by cases value <;> decide
  refine takes_token hsolid fun pos => ?_
  rcases spaced_trail tokens with h | ⟨tail, h⟩ <;> rw [h] <;> cases value
  all_goals exact ⟨_, ⟨40, _, rfl, rfl⟩, itemized_operand rfl nofun rfl rfl⟩

theorem takes_nil {span : Span} :
    Takes (.phrase operand) (trail ("nil" :: tokens)) (trail tokens)
      (Itemized [.operand (.nil span)]) := by
  refine takes_token (by decide) fun pos => ?_
  rcases spaced_trail tokens with h | ⟨tail, h⟩ <;> rw [h]
  all_goals exact ⟨_, ⟨40, _, rfl, rfl⟩, itemized_operand rfl nofun rfl rfl⟩

/-! ### Variables -/

/-- The node of a variable. -/
def IsVariable (id : Identifier) (node : Node Rule) : Prop :=
  ∃ start stop, node = .mk .identifier start stop id.name.toList []

theorem IsVariable.readIdentifier {id : Identifier} {node : Node Rule} (h : IsVariable id node) :
    ∃ id', Reader.readIdentifier node = .ok id' ∧ id'.erase = id.erase := by
  obtain ⟨start, stop, rfl⟩ := h
  exact ⟨_, rfl, by simp [Identifier.erase]⟩

theorem takes_variable {id : Identifier} (h : IsIdentifier id.name.toList) :
    Takes (.rule .identifier) (trail (id.name :: tokens)) (trail tokens) (Single (IsVariable id)) :=
  takes_identifier h

theorem takes_name {id : Identifier} (hid : IsIdentifier id.name.toList) {token : String}
    (htoken : token ∈ followers) :
    Takes (.phrase operand) (trail (id.name :: token :: tokens)) (trail (token :: tokens))
      (Itemized [.operand (.name id)]) := by
  have hupdates : ∀ r ∈ updateForms, Refuses r (trail (id.name :: token :: tokens)) :=
    hid.updateForms (refuses_continuation htoken (by simp [continuations]))
      (refuses_continuation htoken (by simp [continuations]))
      (refuses_continuation htoken (by simp [continuations]))
  refine takes_operand (takes_primary (updateForms ++ literals) rfl ((takes_variable hid).imp ?_)
    (List.forall_mem_append.2 ⟨hupdates, hid.literals⟩)) hid.leadingOperator
  rintro _ ⟨_, rfl, start, stop, rfl⟩
  refine ⟨_, rfl, rfl, ?_, _, rfl, by simp [Expr.erase, Identifier.erase]⟩
  rintro ⟨hrule, -⟩
  cases hrule

theorem Direction.solid_symbol (direction : Direction) : Solid direction.symbol := by
  cases direction <;> decide

theorem hidden_stepRule (direction : Direction) (fixity : Fixity) :
    hidden (stepRule direction fixity) = false := by
  cases direction <;> cases fixity <;> rfl

theorem isOperand_step {direction : Direction} {fixity : Fixity} {target : Identifier} {span : Span}
    {start stop : Position} {text : List Char} {child : Node Rule} (h : IsVariable target child) :
    IsOperand (.step direction fixity target span)
      (.mk (stepRule direction fixity) start stop text [child]) := by
  obtain ⟨id, hid, herase⟩ := h.readIdentifier
  refine ⟨?_, ?_, .step direction fixity id (.between start stop),
    readPrimary_eq_ok.2 (.step rfl hid), by simp [Expr.erase, herase]⟩
  · cases direction <;> cases fixity <;> rfl
  · rintro ⟨hrule, -⟩
    cases direction <;> cases fixity <;> cases hrule

section Step

variable (direction : Direction) {target : Identifier} {span : Span}
variable (htarget : IsIdentifier target.name.toList)
include htarget

theorem takes_stepRule_before :
    Takes (.rule (stepRule direction .before)) (trail (direction.symbol :: target.name :: tokens))
      (trail tokens) (Single (IsOperand (.step direction .before target span))) := by
  have hpattern : pattern (stepRule direction .before) =
      .phrase [.word direction.symbol, .rule .identifier] := by cases direction <;> rfl
  have hphrase := (takes_text direction.solid_symbol (target.name :: tokens)).seq
    (takes_variable htarget)
  refine Takes.node (by rwa [hpattern]) (hidden_stepRule direction _) ?_
  rintro start stop text _ ⟨_, _, rfl, rfl, child, rfl, hchild⟩
  exact isOperand_step hchild

theorem takes_stepRule_after :
    Takes (.rule (stepRule direction .after)) (trail (target.name :: direction.symbol :: tokens))
      (trail tokens) (Single (IsOperand (.step direction .after target span))) := by
  have hpattern : pattern (stepRule direction .after) =
      .phrase [.rule .identifier, .word direction.symbol] := by cases direction <;> rfl
  have hphrase := (takes_variable htarget).seq (takes_text direction.solid_symbol tokens)
  refine Takes.node (by rwa [hpattern]) (hidden_stepRule direction _) ?_
  rintro start stop text _ ⟨_, _, rfl, ⟨child, rfl, hchild⟩, rfl⟩
  exact isOperand_step hchild

theorem takes_step_before :
    Takes (.phrase operand) (trail (direction.symbol :: target.name :: tokens)) (trail tokens)
      (Itemized [.operand (.step direction .before target span)]) := by
  have hleading : Refuses leadingOperator (trail (direction.symbol :: target.name :: tokens)) := by
    cases direction <;> exact refuses_token (by decide) fun _ _ => ⟨20, rfl⟩
  have hupdate : ∀ r ∈ [.rule .compoundAssignment],
      Refuses r (trail (direction.symbol :: target.name :: tokens)) := by
    cases direction <;> simpa using refuses_token (by decide) fun _ _ => ⟨20, rfl⟩
  refine takes_operand ?_ hleading
  cases direction with
  | up =>
    exact takes_primary [.rule .compoundAssignment] rfl (takes_stepRule_before .up htarget) hupdate
  | down =>
    have hup : ∀ r ∈ [.rule .preIncrement], Refuses r (trail ("--" :: target.name :: tokens)) := by
      simpa using refuses_token (by decide) fun _ _ => ⟨20, rfl⟩
    exact takes_primary ([.rule .compoundAssignment] ++ [.rule .preIncrement]) rfl
      (takes_stepRule_before .down htarget) (List.forall_mem_append.2 ⟨hupdate, hup⟩)

theorem takes_step_after :
    Takes (.phrase operand) (trail (target.name :: direction.symbol :: tokens)) (trail tokens)
      (Itemized [.operand (.step direction .after target span)]) := by
  have hoperator : Refuses compoundOperator (trail (direction.symbol :: tokens)) := by
    cases direction <;> exact refuses_token (by decide) fun _ _ => ⟨20, rfl⟩
  have hbefore := htarget.updatesBefore hoperator
  refine takes_operand ?_ htarget.leadingOperator
  cases direction with
  | up => exact takes_primary updatesBefore rfl (takes_stepRule_after .up htarget) hbefore
  | down =>
    have hup : Refuses (.text ['+', '+']) (trail ("--" :: tokens)) :=
      refuses_token (by decide) fun _ _ => ⟨20, rfl⟩
    have hstep : Refuses (.rule .postIncrement)
        (trail (target.name :: Direction.down.symbol :: tokens)) :=
      .rule ((takes_variable htarget).refuses_seq hup)
    exact takes_primary (updatesBefore ++ [.rule .postIncrement]) rfl
      (takes_stepRule_after .down htarget)
      (List.forall_mem_append.2 ⟨hbefore, by simpa using hstep⟩)

end Step

/-! ### Operands with an expression inside -/

/-- A node that is read as this expression up to spans. -/
def IsExpr (e : Expr) (node : Node Rule) : Prop :=
  ∃ e', readExpr node = .ok e' ∧ e'.erase = e.erase

theorem isOperand_group {inner : Expr} {span : Span} {start stop : Position} {text : List Char}
    {child : Node Rule} (h : IsExpr inner child) :
    IsOperand (.group inner span) (.mk .parenthesized start stop text [child]) := by
  obtain ⟨e, he, herase⟩ := h
  exact ⟨rfl, nofun, .group e (.between start stop), readPrimary_eq_ok.2 (.group he),
    by simp [Expr.erase, herase]⟩

theorem takes_group {inner : Expr} {span : Span} {tokens' : List String}
    (h : Takes (.rule .expression) (trail tokens) (trail (")" :: tokens'))
      (Single (IsExpr inner))) :
    Takes (.phrase operand) (trail ("(" :: tokens)) (trail tokens')
      (Itemized [.operand (.group inner span)]) := by
  have hplain : Plain (trail ("(" :: tokens)) := plain_of_head rfl (by decide)
  have hliterals : ∀ r ∈ literals, Refuses r (trail ("(" :: tokens)) := by
    simp only [literals, List.forall_mem_cons, List.not_mem_nil, false_imp_iff, implies_true,
      and_true]
    and_intros
    all_goals exact refuses_token (by decide) fun _ _ => ⟨20, rfl⟩
  have hname : ∀ r ∈ [.rule .identifier], Refuses r (trail ("(" :: tokens)) := by
    simpa using hplain.identifier
  refine takes_operand (takes_primary (updateForms ++ (literals ++ [.rule .identifier])) rfl ?_
    (List.forall_mem_append.2 ⟨hplain.updateForms, List.forall_mem_append.2 ⟨hliterals, hname⟩⟩))
    hplain.leadingOperator
  have hphrase := (takes_text (by decide : Solid "(") tokens).seq
    (h.seq (takes_text (by decide : Solid ")") tokens'))
  refine Takes.node hphrase rfl ?_
  rintro start stop text _ ⟨_, _, rfl, rfl, _, _, rfl, ⟨child, rfl, hchild⟩, rfl⟩
  exact isOperand_group hchild

theorem isOperand_update {op : UpdateOp} {target : Identifier} {value : Expr} {span : Span}
    {start stop : Position} {text : List Char} {first second third : Node Rule}
    (htarget : IsVariable target first) (hop : readUpdateOp second = .ok op)
    (hvalue : IsExpr value third) :
    IsOperand (.update op target value span)
      (.mk .compoundAssignment start stop text [first, second, third]) := by
  obtain ⟨id, hid, heraseId⟩ := htarget.readIdentifier
  obtain ⟨e, he, herase⟩ := hvalue
  exact ⟨rfl, nofun, .update op id e (.between start stop),
    readPrimary_eq_ok.2 (.update hid hop he), by simp [Expr.erase, heraseId, herase]⟩

theorem takes_update (op : UpdateOp) {target : Identifier} {value : Expr} {span : Span}
    (htarget : IsIdentifier target.name.toList)
    (h : Takes (.rule .expression) (trail tokens) t (Single (IsExpr value))) :
    Takes (.phrase operand) (trail (target.name :: op.symbol :: tokens)) t
      (Itemized [.operand (.update op target value span)]) := by
  refine takes_operand (takes_primary [] rfl ?_ (by simp)) htarget.leadingOperator
  have hphrase := (takes_variable htarget).seq ((takes_compoundOperator op tokens).seq h)
  refine Takes.node hphrase rfl ?_
  rintro start stop text _ ⟨_, _, rfl, ⟨first, rfl, hfirst⟩, _, _, rfl, ⟨second, rfl, hsecond⟩,
    third, rfl, hthird⟩
  exact isOperand_update hfirst hsecond hthird

end BlockScript
