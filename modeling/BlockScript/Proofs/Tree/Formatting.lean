import BlockScript.Proofs.Tree.Indentation

/-!
# Formatting from the texts of the parts

A formatter need not know s-expressions: it can go down the program with an indentation and put
together the texts of the parts.  Then a list is broken where the text of a part holds a line break,
and each kind of statement says how much deeper its parts are: a block in a loop by two blanks, and
a block in an arm by four.

For programs that were read the two texts are the same, since their atoms hold no line break: the
text of an s-expression holds one just if it is not flat.
-/

namespace BlockScript

/-! ## The formatter -/

/-- A list on one line. -/
def formatInline (head : String) (parts : List (List Char)) : List Char :=
  '(' :: head.toList ++ parts.flatMap (' ' :: ·) ++ [')']

/-- A list with every part on a line of its own. -/
def formatVertical (head : String) (parts : List (List Char)) (indent : Nat) : List Char :=
  '(' :: head.toList ++ '\n' ::
    ['\n'].intercalate (parts.map (List.replicate (indent + 2) ' ' ++ ·)) ++ [')']

def formatList (head : String) (parts : List (List Char)) (indent : Nat) : List Char :=
  if parts.isEmpty then '(' :: head.toList ++ [')']
  else if parts.all fun part => !part.contains '\n' then
    '(' :: head.toList ++ ' ' :: [' '].intercalate parts ++ [')']
  else formatVertical head parts indent

/-- A list of statements, broken as soon as there are two. -/
def formatBody (head : String) (parts : List (List Char)) (indent : Nat) : List Char :=
  match parts with
  | [] => '(' :: head.toList ++ [')']
  | [only] =>
    if only.contains '\n' then formatVertical head [only] indent
    else '(' :: head.toList ++ ' ' :: only ++ [')']
  | _ => formatVertical head parts indent

def Expr.format : Expr → List Char
  | .integer value _ => formatInline "integer" [(toString value.toInt).toList]
  | .float value _ => formatInline "float" [(Decimal.Style.precise.text value).toList]
  | .string token _ => formatInline "string" [token.toList]
  | .boolean value _ => formatInline "boolean" [(if value then "true" else "false").toList]
  | .nil _ => "nil".toList
  | .name id => id.name.toList
  | .group inner _ => formatInline "group" [inner.format]
  | .unary op operand _ => formatInline op.symbol [operand.format]
  | .binary op left right _ => formatInline op.symbol [left.format, right.format]
  | .step direction fixity target _ =>
    formatInline (fixity.mark ++ direction.symbol) [target.name.toList]
  | .update op target value _ => formatInline op.symbol [target.name.toList, value.format]

def Assignment.format (a : Assignment) : List Char :=
  formatInline "assign" [a.target.name.toList, a.value.format]

def formatInit : Option Assignment → List Char
  | some a => a.format
  | none => "(no-init)".toList

mutual

def Statement.format (indent : Nat) : Statement → List Char
  | .assign a => a.format
  | .print mode value _ => formatInline mode.keyword [value.format]
  | .block body => body.format indent
  | .conditional arms _ => formatList "if" (arms.format indent) indent
  | .whileLoop condition body _ =>
    formatList "while" [condition.format, body.format (indent + 2)] indent
  | .forLoop init condition update body _ =>
    formatList "for" [formatInit init, condition.format, update.format, body.format (indent + 2)]
      indent
  | .expression value _ => value.format

def Block.format (indent : Nat) : Block → List Char
  | .mk statements _ => formatBody "block" (Statement.formatAll (indent + 2) statements) indent

/-- The arms of a conditional at an indentation. -/
def Arms.format (indent : Nat) : Arms → List (List Char)
  | .done => []
  | .otherwise body => [formatList "else" [body.format (indent + 4)] (indent + 2)]
  | .arm condition body _ rest =>
    formatList "when" [condition.format, body.format (indent + 4)] (indent + 2) ::
      rest.format indent

def Statement.formatAll (indent : Nat) : List Statement → List (List Char)
  | [] => []
  | statement :: rest => statement.format indent :: Statement.formatAll indent rest

end

def Program.format (p : Program) : List Char :=
  formatBody "program" (Statement.formatAll 2 p.statements) 0

namespace SExpr

/-! ## Line breaks in a layout -/

theorem layoutItems_eq (separator : List Char) (indent : Nat) (items : List SExpr) :
    layoutItems separator indent items =
      (items.map (layout indent)).flatMap (separator ++ ·) := by
  induction items with
  | nil => rfl
  | cons item items ih =>
    rw [layoutItems, ih, List.map_cons, List.flatMap_cons, List.append_assoc]

theorem allFlat_eq (items : List SExpr) : allFlat items = items.all isFlat := by
  induction items with
  | nil => rfl
  | cons item items ih => rw [allFlat, ih, List.all_cons]

theorem not_mem_head {head : String} (h : isBare head.toList = true) : '\n' ∉ head.toList :=
  not_mem_of_isAtom (.inl h)

/-- The items of a list hold a line break, or are set apart by one, just where the list is not
flat. -/
theorem mem_layoutItems {items : List SExpr} {indent : Nat}
    (h : ∀ item ∈ items, '\n' ∈ item.layout indent ↔ item.isFlat = false) {flat : Bool}
    (hflat : flat = true → allFlat items = true) (hitems : flat = false → items ≠ []) :
    '\n' ∈ layoutItems (separator flat indent) indent items ↔ flat = false := by
  rw [layoutItems_eq]
  cases flat with
  | true =>
    have hall := hflat rfl
    rw [allFlat_eq, List.all_eq_true] at hall
    simp only [List.mem_flatMap, List.mem_map, separator, if_true]
    refine iff_of_false ?_ (by decide)
    rintro ⟨_, ⟨item, hitem, rfl⟩, hmem⟩
    have hbroken : item.isFlat = false := (h item hitem).1 (by simpa using hmem)
    rw [hall item hitem] at hbroken
    cases hbroken
  | false =>
    obtain ⟨item, rest, rfl⟩ := List.exists_cons_of_ne_nil (hitems rfl)
    simp [separator]

theorem mem_list {head : String} (hhead : isBare head.toList = true) {items : List SExpr}
    {indent : Nat} (h : ∀ item ∈ items, '\n' ∈ item.layout indent ↔ item.isFlat = false)
    {flat : Bool} (hflat : flat = true → allFlat items = true) (hitems : flat = false → items ≠ []) :
    '\n' ∈ '(' :: head.toList ++ layoutItems (separator flat indent) indent items ++ [')'] ↔
      flat = false := by
  rw [← mem_layoutItems h hflat hitems]
  simp [not_mem_head hhead]

mutual

/-- The layout of an expression holds a line break just if it is not flat. -/
theorem mem_layout (e : SExpr) (h : e.Legible) (indent : Nat) :
    '\n' ∈ e.layout indent ↔ e.isFlat = false := by
  cases e with
  | atom text => simp [layout, isFlat]
  | list head items =>
    obtain ⟨hhead, hitems⟩ := h
    refine mem_list hhead (mem_layout_all items hitems (indent + 2)) id ?_
    rintro hbroken rfl
    cases hbroken
  | body head items =>
    obtain ⟨hhead, hitems⟩ := h
    refine mem_list hhead (mem_layout_all items hitems (indent + 2)) ?_ ?_
    · intro hflat
      exact (Bool.and_eq_true_iff.1 hflat).2
    · rintro hbroken rfl
      cases hbroken

theorem mem_layout_all (items : List SExpr) (h : AllLegible items) (indent : Nat) :
    ∀ item ∈ items, '\n' ∈ item.layout indent ↔ item.isFlat = false := by
  cases items with
  | nil => simp
  | cons item items =>
    obtain ⟨hitem, hitems⟩ := h
    exact List.forall_mem_cons.2
      ⟨mem_layout item hitem indent, mem_layout_all items hitems indent⟩

end

theorem contains_layout {e : SExpr} (h : e.Legible) (indent : Nat) :
    (e.layout indent).contains '\n' = !e.isFlat := by
  rw [Bool.eq_iff_iff, List.contains_iff_mem, mem_layout e h, Bool.not_eq_true']

theorem all_unbroken {items : List SExpr} (h : AllLegible items) (indent : Nat) :
    ((items.map (layout indent)).all fun part => !part.contains '\n') = allFlat items := by
  induction items with
  | nil => rfl
  | cons item items ih =>
    rw [List.map_cons, List.all_cons, contains_layout h.1, ih h.2, Bool.not_not, allFlat]

/-! ## Lists -/

theorem intercalate_layout (separator padding : List Char) {items : List SExpr}
    (hitems : items ≠ []) (indent : Nat) :
    separator ++ separator.intercalate (items.map fun item => padding ++ item.layout indent) =
      layoutItems (separator ++ padding) indent items := by
  induction items with
  | nil => exact absurd rfl hitems
  | cons item items ih =>
    cases items with
    | nil => simp [List.intercalate, layoutItems]
    | cons next items =>
      rw [layoutItems, ← ih (List.cons_ne_nil next items)]
      simp [List.intercalate]

theorem formatVertical_eq (head : String) {items : List SExpr} (hitems : items ≠ [])
    (indent : Nat) :
    formatVertical head (items.map (layout (indent + 2))) indent =
      '(' :: head.toList ++
        layoutItems (separator false (indent + 2)) (indent + 2) items ++ [')'] := by
  have hjoin := intercalate_layout ['\n'] (List.replicate (indent + 2) ' ') hitems (indent + 2)
  rw [List.singleton_append] at hjoin
  rw [formatVertical, List.map_map]
  exact congrArg (fun text => '(' :: head.toList ++ text ++ [')']) hjoin

theorem formatList_eq (head : String) {items : List SExpr} (h : AllLegible items) (indent : Nat) :
    formatList head (items.map (layout (indent + 2))) indent = (list head items).layout indent := by
  by_cases hitems : items = []
  · subst hitems
    simp [formatList, layout, layoutItems]
  have hempty : (items.map (layout (indent + 2))).isEmpty = false := by simpa using hitems
  rw [formatList, all_unbroken h, hempty, if_neg Bool.false_ne_true, layout]
  cases allFlat items with
  | true =>
    have hjoin := intercalate_layout [' '] [] hitems (indent + 2)
    exact congrArg (fun text => '(' :: head.toList ++ text ++ [')']) hjoin
  | false => exact formatVertical_eq head hitems indent

theorem formatBody_eq (head : String) {items : List SExpr} (h : AllLegible items) (indent : Nat) :
    formatBody head (items.map (layout (indent + 2))) indent = (body head items).layout indent := by
  match items, h with
  | [], _ => simp [formatBody, layout, layoutItems]
  | [only], ⟨honly, _⟩ =>
    rw [List.map_singleton, formatBody, contains_layout honly, layout]
    cases hflat : only.isFlat with
    | true => simp [allFlat, hflat, layoutItems, separator]
    | false =>
      simp only [allFlat, hflat]
      exact formatVertical_eq head (List.cons_ne_nil only []) indent
  | first :: second :: rest, _ =>
    rw [layout]
    exact formatVertical_eq head (List.cons_ne_nil first _) indent

/-! ## Expressions -/

theorem formatInline_eq {head : String} {items : List SExpr}
    (h : (list head items).isFlat = true) (indent : Nat) :
    formatInline head (items.map (layout (indent + 2))) = (list head items).layout indent := by
  rw [isFlat] at h
  rw [formatInline, layout, h, layoutItems_eq]
  rfl

theorem isFlat_atom {text : String} (h : (atom text).Legible) : (atom text).isFlat = true := by
  have hbreak := not_mem_of_isAtom h
  simpa [isFlat] using hbreak

theorem isFlat_one {head : String} {item : SExpr} (h : item.isFlat = true) :
    (list head [item]).isFlat = true := by
  simp only [isFlat, allFlat, h, Bool.and_true]

theorem isFlat_two {head : String} {first second : SExpr} (hfirst : first.isFlat = true)
    (hsecond : second.isFlat = true) : (list head [first, second]).isFlat = true := by
  simp only [isFlat, allFlat, hfirst, hsecond, Bool.and_true]

end SExpr

open SExpr

theorem Expr.isFlat_toSExpr {e : Expr} (h : e.toSExpr.Legible) : e.toSExpr.isFlat = true := by
  induction e with
  | integer | float | string | boolean | step => exact isFlat_one (isFlat_atom h.2.1)
  | nil | name => exact isFlat_atom h
  | group _ _ ih | unary _ _ _ ih => exact isFlat_one (ih h.2.1)
  | binary _ _ _ _ ihl ihr => exact isFlat_two (ihl h.2.1) (ihr h.2.2.1)
  | update _ _ _ _ ih => exact isFlat_two (isFlat_atom h.2.1) (ih h.2.2.1)

theorem Expr.format_eq {e : Expr} (h : e.toSExpr.Legible) (indent : Nat) :
    e.format = e.toSExpr.layout indent := by
  induction e generalizing indent with
  | integer | float | string | boolean | step => exact formatInline_eq (isFlat_toSExpr h) indent
  | nil | name => rfl
  | group inner _ ih | unary _ inner _ ih =>
    rw [format, ih h.2.1 (indent + 2)]
    exact formatInline_eq (isFlat_toSExpr h) indent
  | binary _ left right _ ihl ihr =>
    rw [format, ihl h.2.1 (indent + 2), ihr h.2.2.1 (indent + 2)]
    exact formatInline_eq (isFlat_toSExpr h) indent
  | update _ _ value _ ih =>
    rw [format, ih h.2.2.1 (indent + 2)]
    exact formatInline_eq (isFlat_toSExpr h) indent

/-! ## Programs -/

theorem Assignment.format_eq {a : Assignment} (h : a.toSExpr.Legible) (indent : Nat) :
    a.format = a.toSExpr.layout indent := by
  obtain ⟨-, htarget, hvalue, -⟩ := h
  rw [format, Expr.format_eq hvalue (indent + 2)]
  exact formatInline_eq (isFlat_two (isFlat_atom htarget) (Expr.isFlat_toSExpr hvalue)) indent

theorem formatInit_eq {init : Option Assignment} (h : (initSExpr init).Legible) (indent : Nat) :
    formatInit init = (initSExpr init).layout indent := by
  cases init with
  | none => rfl
  | some a => exact Assignment.format_eq h indent

mutual

theorem Statement.format_eq (s : Statement) (h : s.toSExpr.Legible) (indent : Nat) :
    s.format indent = s.toSExpr.layout indent := by
  cases s with
  | assign a => exact Assignment.format_eq h indent
  | print mode value _ =>
    obtain ⟨-, hvalue, -⟩ := h
    rw [Statement.format, Expr.format_eq hvalue (indent + 2)]
    exact formatInline_eq (isFlat_one (Expr.isFlat_toSExpr hvalue)) indent
  | block body => exact Block.format_eq body h indent
  | conditional arms _ =>
    obtain ⟨-, harms⟩ := h
    rw [Statement.format, Arms.format_eq arms harms indent]
    exact formatList_eq "if" harms indent
  | whileLoop condition body _ =>
    obtain ⟨-, hitems⟩ := h
    rw [Statement.format, Expr.format_eq hitems.1 (indent + 2), Block.format_eq body hitems.2.1]
    exact formatList_eq "while" hitems indent
  | forLoop init condition update body _ =>
    obtain ⟨-, hitems⟩ := h
    rw [Statement.format, formatInit_eq hitems.1 (indent + 2),
      Expr.format_eq hitems.2.1 (indent + 2), Expr.format_eq hitems.2.2.1 (indent + 2),
      Block.format_eq body hitems.2.2.2.1]
    exact formatList_eq "for" hitems indent
  | expression value _ => exact Expr.format_eq h indent

theorem Block.format_eq (b : Block) (h : b.toSExpr.Legible) (indent : Nat) :
    b.format indent = b.toSExpr.layout indent := by
  obtain ⟨statements, span⟩ := b
  obtain ⟨-, hstatements⟩ := h
  rw [Block.format, Statement.formatAll_eq statements hstatements]
  exact formatBody_eq "block" hstatements indent

-- an arm is a list in the list of a conditional, so its block is two steps deeper
theorem Arms.format_eq (arms : Arms) (h : AllLegible arms.toSExprs) (indent : Nat) :
    arms.format indent = arms.toSExprs.map (layout (indent + 2)) := by
  cases arms with
  | done => rfl
  | otherwise body =>
    obtain ⟨⟨-, hbody⟩, -⟩ := h
    rw [Arms.format, Block.format_eq body hbody.1]
    exact congrArg (· :: []) (formatList_eq "else" hbody (indent + 2))
  | arm condition body _ rest =>
    obtain ⟨⟨-, hitems⟩, hrest⟩ := h
    rw [Arms.format, Expr.format_eq hitems.1 (indent + 4), Block.format_eq body hitems.2.1,
      Arms.format_eq rest hrest indent]
    exact congrArg (· :: _) (formatList_eq "when" hitems (indent + 2))

theorem Statement.formatAll_eq (statements : List Statement)
    (h : AllLegible (Statement.toSExprs statements)) (indent : Nat) :
    Statement.formatAll indent statements =
      (Statement.toSExprs statements).map (layout indent) := by
  cases statements with
  | nil => rfl
  | cons statement rest =>
    obtain ⟨hstatement, hrest⟩ := h
    rw [Statement.formatAll, Statement.format_eq statement hstatement,
      Statement.formatAll_eq rest hrest]
    rfl

end

/-- The s-expression of every program that was read is shown as the formatter writes the program. -/
theorem Program.render_eq_format {source : String} {file : Option String} {p : Program}
    (h : Program.parse source file = .ok p) : p.toSExpr.render = String.ofList p.format := by
  obtain ⟨-, hstatements⟩ := Program.legible_toSExpr (Program.canonical_of_parse h)
  rw [SExpr.render, Program.format, Statement.formatAll_eq _ hstatements]
  exact congrArg String.ofList (formatBody_eq "program" hstatements 0).symm

end BlockScript
