import BlockScript.Proofs.Tree.Operands

/-!
# The text of an expression

The text of a canonical expression is read as an expression that agrees with it up to spans.  A
chain is found link by link: the operators of the tree are the ones between its operands, and the
token behind the expression is no operator that could continue the chain.
-/

namespace BlockScript

open Grammar Reader
open Peg (Node Pattern)

variable {s t u : List Char} {items items' : List Item}

/-! ## Chains -/

/-- From the first text to the second there are these links: an operand, and binary operators with
their operands, which whatever links follow continue. -/
def Links (items : List Item) (s t : List Char) : Prop :=
  ∃ s' first more, items = first ++ more ∧ first ≠ [] ∧
    Takes (.phrase operand) s s' (Itemized first) ∧
    ∀ u later, Takes (.many link) t u (Itemized later) →
      Takes (.many link) s' u (Itemized (more ++ later))

theorem links_of_operand {item : Item} (h : Takes (.phrase operand) s t (Itemized [item])) :
    Links [item] s t :=
  ⟨t, [item], [], rfl, by simp, h, fun _ _ hlater => hlater⟩

theorem Links.leading {op : UnaryOp} {start : Nat} (h : Links items t u)
    (hop : Takes leadingOperator s t (Single (IsLeading op))) :
    Links (.leading op start :: items) s u := by
  obtain ⟨t', first, more, rfl, hne, hfirst, hmore⟩ := h
  refine ⟨t', .leading op start :: first, more, rfl, by simp, ?_, hmore⟩
  refine (hop.many_seq_cons hfirst).imp ?_
  rintro _ ⟨_, nodes, rfl, ⟨node, rfl, ⟨offset, hnode⟩, hinteger⟩, hnodes⟩
  exact hnodes.leading hnode hinteger hne

theorem Links.infixed {op : BinaryOp} {v : List Char} (hleft : Links items s t)
    (hop : Takes binaryOperator t u (Itemized [.infixed op])) (hright : Links items' u v) :
    Links (items ++ .infixed op :: items') s v := by
  obtain ⟨s', first, more, rfl, hne, hfirst, hmore⟩ := hleft
  obtain ⟨u', first', more', rfl, -, hfirst', hmore'⟩ := hright
  refine ⟨s', first, more ++ .infixed op :: (first' ++ more'), by simp, hne, hfirst, ?_⟩
  intro w later hlater
  have hlink : Takes link t u' (Itemized (.infixed op :: first')) := by
    refine (hop.seq hfirst').imp ?_
    rintro _ ⟨front, back, rfl, hfront, hback⟩
    exact hfront.append hback
  have hlinks : Takes (.many link) t w (Itemized (.infixed op :: first' ++ (more' ++ later))) := by
    refine (hlink.many_cons (hmore' w later hlater)).imp ?_
    rintro _ ⟨front, back, rfl, hfront, hback⟩
    exact hfront.append hback
  simpa using hmore w _ hlinks

/-- A chain that no link follows is an expression. -/
theorem Links.expression {e : Expr} (he : e.Grouped) (h : Links e.items s t)
    (hend : Refuses link t) : Takes (.rule .expression) s t (Single (IsExpr e)) := by
  obtain ⟨s', first, more, heq, -, hfirst, hmore⟩ := h
  have hnone : Takes (.many link) t t (Itemized []) := by
    refine (takes_many_of_refuses hend).imp ?_
    rintro _ rfl
    exact itemized_nil
  have hchain := (hfirst.seq (hmore t [] hnone)).regroup
  refine Takes.node hchain rfl ?_
  rintro start stop text _ ⟨front, back, rfl, hfront, hback⟩
  have hitems := hfront.append hback
  rw [List.append_nil, ← heq] at hitems
  exact readExpr_of_itemized he hitems

/-! ## Canonical expressions -/

variable {e : Expr} {token : String} {tokens : List String}

theorem BinaryOp.symbol_mem_followers (op : BinaryOp) : op.symbol ∈ followers := by
  cases op <;> decide

theorem refuses_link (h : token ∈ closers) : Refuses link (trail (token :: tokens)) := by
  have hoperator : Refuses binaryOperator (trail (token :: tokens)) := by
    simp only [closers, List.mem_cons, List.not_mem_nil, or_false] at h
    rcases h with rfl | rfl | rfl <;> exact refuses_token (by decide) fun _ _ => ⟨20, rfl⟩
  exact hoperator.seq_left

/-- The token may stand behind the expression: it closes it, or is an operator that an update at
the end of the expression would not take. -/
def Follows (e : Expr) (token : String) : Prop :=
  token ∈ closers ∨ e.endsInUpdate = false ∧ ∃ op : BinaryOp, token = op.symbol

theorem Follows.mem_followers (h : Follows e token) : token ∈ followers := by
  rcases h with h | ⟨-, op, rfl⟩
  · exact List.mem_append_left _ h
  · exact op.symbol_mem_followers

variable (spelling : FloatSpelling)

theorem Expr.Canonical.links (h : e.Canonical) (htoken : Follows e token) :
    Links e.items (trail (e.tokens spelling ++ token :: tokens)) (trail (token :: tokens)) := by
  induction e generalizing token tokens with
  | integer value span =>
    refine links_of_operand ?_
    rcases h with h | rfl
    · exact takes_nonnegative h
    · exact takes_least
  | float value span =>
    obtain ⟨hfloat, hvalue⟩ := spelling.spells value h
    exact links_of_operand (takes_float hfloat hvalue)
  | string value span => exact links_of_operand (takes_string h)
  | boolean value span => exact links_of_operand (takes_boolean value)
  | nil span => exact links_of_operand takes_nil
  | name id => exact links_of_operand (takes_name h htoken.mem_followers)
  | group inner span ih =>
    have hclose : ")" ∈ closers := by decide
    have hinner : inner.Canonical := h
    rw [Expr.tokens, List.cons_append, List.append_assoc]
    exact links_of_operand (takes_group
      ((ih hinner (.inl hclose)).expression hinner.grouped (refuses_link hclose)))
  | unary op operand span ih =>
    exact (ih h.2 htoken).leading (takes_leadingOperator op _)
  | binary op left right span ihl ihr =>
    obtain ⟨-, -, hupdate, hleft, hright⟩ := h
    rw [Expr.tokens, List.append_assoc]
    exact (ihl hleft (.inr ⟨hupdate, op, rfl⟩)).infixed (takes_binaryOperator op _)
      (ihr hright htoken)
  | step direction fixity target span =>
    refine links_of_operand ?_
    cases fixity with
    | before => exact takes_step_before direction h
    | after => exact takes_step_after direction h
  | update op target value span ih =>
    -- the update takes every operator that follows, so only a closing token can
    have hclose : token ∈ closers := by
      rcases htoken with hclose | ⟨hupdate, -⟩
      · exact hclose
      · cases hupdate
    exact links_of_operand (takes_update op h.1
      ((ih h.2 (.inl hclose)).expression h.2.grouped (refuses_link hclose)))

theorem Expr.Canonical.takes (h : e.Canonical) (htoken : token ∈ closers) :
    Takes (.rule .expression) (trail (e.tokens spelling ++ token :: tokens))
      (trail (token :: tokens)) (Single (IsExpr e)) :=
  (h.links spelling (.inl htoken)).expression h.grouped (refuses_link htoken)

/-- An expression statement is found: nothing that is tried before it begins like an expression. -/
theorem Expr.Canonical.openers (h : e.Canonical) (htoken : token ∈ followers) :
    ∀ p ∈ openers, Refuses p (trail (e.tokens spelling ++ token :: tokens)) := by
  induction e generalizing token tokens with
  | integer value span =>
    rcases h with h | rfl
    · exact (plain_nonnegative h).openers
    · exact refuses_openers_of_sign (by decide) rfl
  | float value span =>
    obtain ⟨c, tail, hfloat, hc⟩ := (isToken_float.1 (spelling.spells value h).1).head
    exact (plain_of_head hfloat hc).openers
  | string value span =>
    obtain ⟨inner, -, hvalue⟩ := isToken_string.1 h
    exact (plain_of_head hvalue (by decide)).openers
  | boolean value span => exact (plain_word (by cases value <;> decide)).openers
  | nil span => exact (plain_word (by decide)).openers
  | name id =>
    exact IsIdentifier.openers h (refuses_continuation htoken (by simp [continuations]))
  | group inner span ih => exact (plain_of_head rfl (by decide)).openers
  | unary op operand span ih =>
    cases op with
    | not => exact refuses_openers_not
    | negate => exact refuses_openers_of_sign (by decide) rfl
  | binary op left right span ihl ihr =>
    rw [Expr.tokens, List.append_assoc]
    exact ihl h.2.2.2.1 op.symbol_mem_followers
  | step direction fixity target span =>
    cases fixity with
    | before =>
      cases direction <;> exact refuses_openers_of_sign (by decide) rfl
    | after =>
      have hequals : Refuses (.text ['=']) (trail (direction.symbol :: token :: tokens)) := by
        cases direction <;> exact refuses_token (by decide) fun _ _ => ⟨20, rfl⟩
      exact IsIdentifier.openers h hequals.seq_left
  | update op target value span ih =>
    have hequals : Refuses (.text ['='])
        (trail (op.symbol :: (value.tokens spelling ++ token :: tokens))) := by
      cases op <;> exact refuses_token (by decide) fun _ _ => ⟨20, rfl⟩
    exact IsIdentifier.openers h.1 hequals.seq_left

end BlockScript
