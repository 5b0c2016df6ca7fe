import BlockScript.Proofs.Tree.DatumReading

/-!
# Indentation shows nesting

The text of an s-expression is read from left to right here, with a count of the parentheses that
are open outside of strings.  Every part of the text is laid out for the number of parentheses open
in front of it: it closes just what it opens, and its lines begin with two blanks for each open
parenthesis.  A list opens one parenthesis around its items and indents them by two blanks more, so
the two stay in step.

An item begins with a character that is not blank.  So a line break together with its indentation
can be told from the text around it, and stands for the one blank between two items of a line.
-/

namespace BlockScript

open Grammar

namespace SExpr

/-! ## Reading a text -/

/-- What has been read of a text. -/
structure Place where
  /-- The parentheses that are open, outside of strings. -/
  depth : Int
  /-- Whether a string is open. -/
  quoted : Bool
  deriving DecidableEq

namespace Place

def start : Place := ⟨0, false⟩

/-- A doubled quote in a string closes it and opens it again. -/
def next (p : Place) (c : Char) : Place :=
  if c = '"' then { p with quoted := !p.quoted }
  else if p.quoted then p
  else if c = '(' then { p with depth := p.depth + 1 }
  else if c = ')' then { p with depth := p.depth - 1 }
  else p

def after (p : Place) (text : List Char) : Place :=
  text.foldl next p

@[simp] theorem after_nil (p : Place) : p.after [] = p := rfl

@[simp] theorem after_cons (p : Place) (c : Char) (text : List Char) :
    p.after (c :: text) = (p.next c).after text := rfl

theorem after_append (p : Place) (text more : List Char) :
    p.after (text ++ more) = (p.after text).after more :=
  List.foldl_append

end Place

def BeginsVisibly (text : List Char) : Prop :=
  ∃ c tail, text = c :: tail ∧ c ≠ ' ' ∧ c ≠ '\n'

/-- The line has two blanks for each open parenthesis, and no more, in front of its content. -/
def BeginsLine (depth : Int) (text : List Char) : Prop :=
  ∃ (k : Nat) (content : List Char), depth = k ∧
    text = List.replicate (2 * k) ' ' ++ content ∧ BeginsVisibly content

/-- The parentheses of a text are balanced, and every line behind the first is indented for the
parentheses that are open in front of it. -/
structure Indented (text : List Char) : Prop where
  balanced : Place.start.after text = Place.start
  nested : ∀ front rest, text = front ++ rest → 0 ≤ (Place.start.after front).depth
  lines : ∀ front rest, text = front ++ '\n' :: rest →
    (Place.start.after front).quoted = false ∧ BeginsLine (Place.start.after front).depth rest

/-- The text with each line break, and the blanks behind it, replaced by one blank.  The flag tells
that such a break is in front of the text. -/
def joinFrom (broken : Bool) : List Char → List Char
  | [] => []
  | c :: rest =>
    if c = '\n' then ' ' :: joinFrom true rest
    else if broken && c = ' ' then joinFrom true rest
    else c :: joinFrom false rest

def joinLines (text : List Char) : List Char :=
  joinFrom false text

mutual

/-- The text of an expression on one line. -/
def oneLine : SExpr → List Char
  | .atom text => text.toList
  | .list head items => '(' :: head.toList ++ oneLineItems items ++ [')']
  | .body head items => '(' :: head.toList ++ oneLineItems items ++ [')']

def oneLineItems : List SExpr → List Char
  | [] => []
  | item :: rest => ' ' :: item.oneLine ++ oneLineItems rest

end

/-! ## Texts that are laid out -/

/-- Reading on from a place, the depth never falls below the floor, and the lines are indented. -/
def LaidFrom (floor : Int) : Place → List Char → Prop
  | p, [] => floor ≤ p.depth
  | p, c :: rest => floor ≤ p.depth ∧
      (c = '\n' → p.quoted = false ∧ BeginsLine p.depth rest) ∧ LaidFrom floor (p.next c) rest

theorem BeginsVisibly.append {text : List Char} (h : BeginsVisibly text) (more : List Char) :
    BeginsVisibly (text ++ more) := by
  obtain ⟨c, tail, rfl, hblank, hbreak⟩ := h
  exact ⟨c, tail ++ more, rfl, hblank, hbreak⟩

theorem BeginsLine.append {depth : Int} {text : List Char} (h : BeginsLine depth text)
    (more : List Char) : BeginsLine depth (text ++ more) := by
  obtain ⟨k, content, hdepth, rfl, hcontent⟩ := h
  exact ⟨k, content ++ more, hdepth, List.append_assoc .., hcontent.append more⟩

namespace LaidFrom

variable {floor least : Int} {p : Place} {text more front rest : List Char}

theorem cons {c : Char} (hfloor : floor ≤ p.depth) (hc : c ≠ '\n')
    (h : LaidFrom floor (p.next c) text) : LaidFrom floor p (c :: text) :=
  ⟨hfloor, fun hbreak => absurd hbreak hc, h⟩

theorem append (h : LaidFrom floor p text) (hmore : LaidFrom floor (p.after text) more) :
    LaidFrom floor p (text ++ more) := by
  induction text generalizing p with
  | nil => exact hmore
  | cons c text ih =>
    obtain ⟨hfloor, hline, htext⟩ := h
    refine ⟨hfloor, ?_, ih htext hmore⟩
    intro hc
    obtain ⟨hquoted, hbegins⟩ := hline hc
    exact ⟨hquoted, hbegins.append more⟩

theorem mono (h : LaidFrom floor p text) (hleast : least ≤ floor) : LaidFrom least p text := by
  induction text generalizing p with
  | nil => exact Int.le_trans hleast h
  | cons c text ih =>
    obtain ⟨hfloor, hline, htext⟩ := h
    exact ⟨Int.le_trans hleast hfloor, hline, ih htext⟩

theorem depth_after (h : LaidFrom floor p (front ++ rest)) : floor ≤ (p.after front).depth := by
  induction front generalizing p with
  | nil =>
    cases rest with
    | nil => exact h
    | cons c rest => exact h.1
  | cons c front ih => exact ih h.2.2

theorem line_after (h : LaidFrom floor p (front ++ '\n' :: rest)) :
    (p.after front).quoted = false ∧ BeginsLine (p.after front).depth rest := by
  induction front generalizing p with
  | nil => exact h.2.1 rfl
  | cons c front ih => exact ih h.2.2

end LaidFrom

/-- A text laid out to stand behind `k` open parentheses. -/
structure LaidAt (k : Nat) (text : List Char) : Prop where
  closed : Place.after ⟨k, false⟩ text = ⟨k, false⟩
  laid : LaidFrom k ⟨k, false⟩ text

namespace LaidAt

variable {k : Nat} {text more : List Char}

theorem nil : LaidAt k [] :=
  ⟨rfl, Int.le_refl k⟩

theorem append (h : LaidAt k text) (hmore : LaidAt k more) : LaidAt k (text ++ more) := by
  constructor
  · rw [Place.after_append, h.closed, hmore.closed]
  · apply h.laid.append
    rw [h.closed]
    exact hmore.laid

theorem parenthesized (h : LaidAt (k + 1) text) : LaidAt k ('(' :: text ++ [')']) := by
  have hopen : Place.next ⟨k, false⟩ '(' = ⟨(k + 1 : Nat), false⟩ := rfl
  have hclose : Place.next ⟨(k + 1 : Nat), false⟩ ')' = ⟨k, false⟩ := by
    simp [Place.next]
  have hbelow : (k : Int) ≤ (k + 1 : Nat) := by omega
  have hlast : LaidFrom k ⟨(k + 1 : Nat), false⟩ [')'] := by
    apply LaidFrom.cons hbelow (by decide)
    rw [hclose]
    exact Int.le_refl k
  constructor
  · rw [List.cons_append, Place.after_cons, hopen, Place.after_append, h.closed, Place.after_cons,
      hclose, Place.after_nil]
  · apply LaidFrom.cons (Int.le_refl k) (by decide)
    rw [hopen]
    -- inside, the depth stays above the one that the closing parenthesis goes back to
    apply (h.laid.mono hbelow).append
    rw [h.closed]
    exact hlast

theorem cons (h : LaidAt k text) {c : Char} (hnext : Place.next ⟨k, false⟩ c = ⟨k, false⟩)
    (hc : c ≠ '\n') : LaidAt k (c :: text) := by
  constructor
  · rw [Place.after_cons, hnext, h.closed]
  · apply LaidFrom.cons (Int.le_refl k) hc
    rw [hnext]
    exact h.laid

theorem cons_break (h : LaidAt k text) (hline : BeginsLine k text) : LaidAt k ('\n' :: text) :=
  ⟨h.closed, Int.le_refl k, fun _ => ⟨rfl, hline⟩, h.laid⟩

theorem blanks_append (h : LaidAt k text) (count : Nat) :
    LaidAt k (List.replicate count ' ' ++ text) := by
  induction count with
  | zero => exact h
  | succ count ih => exact ih.cons rfl (by decide)

/-! ## Atoms -/

theorem of_bare (h : ∀ c ∈ text, isDelimiter c = false) : LaidAt k text := by
  induction text with
  | nil => exact nil
  | cons c text ih =>
    obtain ⟨hc, htext⟩ := List.forall_mem_cons.1 h
    simp only [isDelimiter, List.contains_cons, List.contains_nil, Bool.or_false,
      Bool.or_eq_false_iff, beq_eq_false_iff_ne] at hc
    obtain ⟨-, hbreak, hopen, hclose, hquote⟩ := hc
    apply (ih htext).cons _ hbreak
    rw [Place.next, if_neg hquote, if_neg Bool.false_ne_true, if_neg hopen, if_neg hclose]

theorem of_quotable {inner : List Char} (h : IsQuotable inner) :
    Place.after ⟨k, true⟩ inner = ⟨k, true⟩ ∧ LaidFrom k ⟨k, true⟩ inner := by
  induction h with
  | nil => exact ⟨rfl, Int.le_refl k⟩
  | quotes _ ih =>
    -- the string is closed between the two quotes, where no character stands
    refine ⟨ih.1, .cons (Int.le_refl k) (by decide) ?_⟩
    exact .cons (Int.le_refl k) (by decide) ih.2
  | @plain c inner hc _ ih =>
    obtain ⟨hquote, hend⟩ := isPlain_iff.1 hc
    have hnext : Place.next ⟨k, true⟩ c = ⟨k, true⟩ := by
      rw [Place.next, if_neg hquote, if_pos rfl]
    have hbreak : c ≠ '\n' := by
      rintro rfl
      cases hend
    constructor
    · rw [Place.after_cons, hnext, ih.1]
    · apply LaidFrom.cons (Int.le_refl k) hbreak
      rw [hnext]
      exact ih.2

theorem of_string (h : IsString text) : LaidAt k text := by
  obtain ⟨inner, hinner, rfl⟩ := h
  obtain ⟨hclosed, hlaid⟩ := of_quotable (k := k) hinner
  have hopen : Place.next ⟨k, false⟩ '"' = ⟨k, true⟩ := rfl
  constructor
  · rw [Place.after_cons, hopen, Place.after_append, hclosed]
    rfl
  · apply LaidFrom.cons (Int.le_refl k) (by decide)
    rw [hopen]
    apply hlaid.append
    rw [hclosed]
    exact .cons (Int.le_refl k) (by decide) (Int.le_refl k)

theorem of_isAtom (h : IsAtom text) : LaidAt k text := by
  rcases h with hbare | hstring
  · exact of_bare (isBare_iff.1 hbare).2
  · exact of_string hstring

end LaidAt

/-! ## Lists -/

theorem beginsVisibly_layout {e : SExpr} (h : e.Legible) (indent : Nat) :
    BeginsVisibly (e.layout indent) := by
  cases e with
  | atom text =>
    rcases h with hbare | ⟨inner, -, hstring⟩
    · obtain ⟨c, tail, htext, hc⟩ := exists_head_of_isBare hbare
      refine ⟨c, tail, htext, ?_, ?_⟩
      · rintro rfl
        cases hc
      · rintro rfl
        cases hc
    · exact ⟨'"', _, hstring, by decide, by decide⟩
  | list head items => exact ⟨'(', _, rfl, by decide, by decide⟩
  | body head items => exact ⟨'(', _, rfl, by decide, by decide⟩

theorem laidAt_separator {k : Nat} {text : List Char} (h : LaidAt k text)
    (hvisible : BeginsVisibly text) (flat : Bool) :
    LaidAt k (separator flat (2 * k) ++ text) := by
  cases flat with
  | true => exact h.cons rfl (by decide)
  | false => exact (h.blanks_append (2 * k)).cons_break ⟨k, text, rfl, rfl, hvisible⟩

mutual

-- the indentation goes up by two where the number of open parentheses goes up by one
theorem laidAt_layout (e : SExpr) (h : e.Legible) (k : Nat) : LaidAt k (e.layout (2 * k)) := by
  cases e with
  | atom text => exact LaidAt.of_isAtom h
  | list head items =>
    obtain ⟨hhead, hitems⟩ := h
    exact ((LaidAt.of_isAtom (.inl hhead)).append
      (laidAt_layoutItems items hitems (k + 1) (allFlat items))).parenthesized
  | body head items =>
    obtain ⟨hhead, hitems⟩ := h
    exact ((LaidAt.of_isAtom (.inl hhead)).append
      (laidAt_layoutItems items hitems (k + 1) _)).parenthesized

theorem laidAt_layoutItems (items : List SExpr) (h : AllLegible items) (k : Nat) (flat : Bool) :
    LaidAt k (layoutItems (separator flat (2 * k)) (2 * k) items) := by
  cases items with
  | nil => exact LaidAt.nil
  | cons item items =>
    obtain ⟨hitem, hitems⟩ := h
    have hfirst := laidAt_separator (laidAt_layout item hitem k) (beginsVisibly_layout hitem _) flat
    exact hfirst.append (laidAt_layoutItems items hitems k flat)

end

theorem LaidAt.indented {text : List Char} (h : LaidAt 0 text) : Indented text where
  balanced := h.closed
  nested := by
    intro front rest htext
    have hlaid := h.laid
    rw [htext] at hlaid
    exact hlaid.depth_after
  lines := by
    intro front rest htext
    have hlaid := h.laid
    rw [htext] at hlaid
    exact hlaid.line_after

/-! ## One line -/

theorem joinFrom_cons (broken : Bool) {c : Char} (hblank : c ≠ ' ') (hbreak : c ≠ '\n')
    (rest : List Char) : joinFrom broken (c :: rest) = c :: joinFrom false rest := by
  rw [joinFrom, if_neg hbreak, if_neg (by simp [hblank])]

theorem joinFrom_append {text : List Char} (h : '\n' ∉ text) (rest : List Char) :
    joinFrom false (text ++ rest) = text ++ joinFrom false rest := by
  induction text with
  | nil => rfl
  | cons c text ih =>
    rw [List.mem_cons, not_or] at h
    rw [List.cons_append, joinFrom, if_neg (Ne.symm h.1), if_neg (by simp), ih h.2,
      List.cons_append]

theorem joinFrom_blanks (count : Nat) (rest : List Char) :
    joinFrom true (List.replicate count ' ' ++ rest) = joinFrom true rest := by
  induction count with
  | zero => rfl
  | succ count ih => exact ih

theorem joinFrom_separator (flat : Bool) (indent : Nat) (rest : List Char) :
    ∃ broken, joinFrom false (separator flat indent ++ rest) = ' ' :: joinFrom broken rest := by
  cases flat with
  | true => exact ⟨false, rfl⟩
  | false =>
    refine ⟨true, ?_⟩
    change ' ' :: joinFrom true (List.replicate indent ' ' ++ rest) = _
    rw [joinFrom_blanks]

theorem joinFrom_of_beginsVisibly {text : List Char} (h : BeginsVisibly text) (broken : Bool)
    (rest : List Char) : joinFrom broken (text ++ rest) = joinFrom false (text ++ rest) := by
  obtain ⟨c, tail, rfl, hblank, hbreak⟩ := h
  rw [List.cons_append, joinFrom_cons broken hblank hbreak, joinFrom_cons false hblank hbreak]

theorem not_mem_of_isQuotable {inner : List Char} (h : IsQuotable inner) : '\n' ∉ inner := by
  induction h with
  | nil => exact List.not_mem_nil
  | quotes _ ih => simpa using ih
  | plain hc _ ih =>
    rw [List.mem_cons, not_or]
    refine ⟨?_, ih⟩
    rintro rfl
    cases hc

theorem not_mem_of_isAtom {text : List Char} (h : IsAtom text) : '\n' ∉ text := by
  rcases h with hbare | ⟨inner, hinner, rfl⟩
  · intro hmem
    cases (isBare_iff.1 hbare).2 _ hmem
  · simpa using not_mem_of_isQuotable hinner

theorem joinFrom_list {head tail inner rest : List Char} (hhead : isBare head = true)
    (htail : joinFrom false tail = inner ++ ')' :: joinFrom false rest) :
    joinFrom false ('(' :: (head ++ tail)) =
      '(' :: head ++ inner ++ [')'] ++ joinFrom false rest := by
  rw [joinFrom_cons false (by decide) (by decide),
    joinFrom_append (not_mem_of_isAtom (.inl hhead)), htail]
  simp

mutual

theorem joinFrom_layout (e : SExpr) (h : e.Legible) (indent : Nat) (rest : List Char) :
    joinFrom false (e.layout indent ++ rest) = e.oneLine ++ joinFrom false rest := by
  cases e with
  | atom text => exact joinFrom_append (not_mem_of_isAtom h) rest
  | list head items =>
    obtain ⟨hhead, hitems⟩ := h
    rw [layout_list]
    exact joinFrom_list hhead (joinFrom_tailText items hitems _ (indent + 2) rest)
  | body head items =>
    obtain ⟨hhead, hitems⟩ := h
    rw [layout_body]
    exact joinFrom_list hhead (joinFrom_tailText items hitems _ (indent + 2) rest)

theorem joinFrom_tailText (items : List SExpr) (h : AllLegible items) (flat : Bool) (indent : Nat)
    (rest : List Char) :
    joinFrom false (tailText flat indent items rest) =
      oneLineItems items ++ ')' :: joinFrom false rest := by
  cases items with
  | nil => exact joinFrom_cons false (by decide) (by decide) rest
  | cons item items =>
    obtain ⟨hitem, hitems⟩ := h
    rw [tailText_cons]
    obtain ⟨broken, hbroken⟩ := joinFrom_separator flat indent
      (item.layout indent ++ tailText flat indent items rest)
    rw [hbroken, joinFrom_of_beginsVisibly (beginsVisibly_layout hitem indent),
      joinFrom_layout item hitem, joinFrom_tailText items hitems, oneLineItems]
    simp

end

theorem joinLines_layout {e : SExpr} (h : e.Legible) (indent : Nat) :
    joinLines (e.layout indent) = e.oneLine := by
  have hjoin := joinFrom_layout e h indent []
  rw [List.append_nil] at hjoin
  rw [joinLines, hjoin, joinFrom, List.append_nil]

end SExpr

/-- The text of every program is indented to show how its lists are nested, and with its line breaks
taken out it is the text of the same lists on one line. -/
theorem Program.render_indented {source : String} {file : Option String} {p : Program}
    (h : Program.parse source file = .ok p) :
    SExpr.Indented p.toSExpr.render.toList ∧
      SExpr.joinLines p.toSExpr.render.toList = p.toSExpr.oneLine := by
  have hlegible := Program.legible_toSExpr (Program.canonical_of_parse h)
  rw [SExpr.render, String.toList_ofList]
  exact ⟨(SExpr.laidAt_layout _ hlegible 0).indented, SExpr.joinLines_layout hlegible 0⟩

/-- The second arm of a conditional in a loop in a block, with a parenthesis in a string. -/
theorem render_indented_arm :
    let source := "\x7bwhile a\x7bif b\x7b\x7delif c\x7b\"(\";d\x7d\x7d\x7d"
    let text := "\n".intercalate
      ["(program",
        "  (block",
        "    (while",
        "      a",
        "      (block",
        "        (if",
        "          (when b (block))",
        "          (when",
        "            c",
        "            (block",
        "              (string \"(\")",
        "              d)))))))"]
    let line := "(program (block (while a (block (if (when b (block)) " ++
      "(when c (block (string \"(\") d)))))))"
    ∃ p, Program.parse source none = .ok p ∧ p.toSExpr.render = text ∧
      SExpr.Indented text.toList ∧ SExpr.joinLines text.toList = line.toList := by
  intro source text line
  have hread : (Program.parse source none).toOption.map (fun p =>
      (p.toSExpr.render == text, p.toSExpr.oneLine == line.toList)) = some (true, true) := by
    decide +kernel
  cases hp : Program.parse source none with
  | error e => simp [hp, Except.toOption] at hread
  | ok p =>
    rw [hp] at hread
    obtain ⟨hrender, hline⟩ := Prod.mk.inj (Option.some.inj hread)
    obtain ⟨hindented, hjoined⟩ := Program.render_indented hp
    rw [beq_iff_eq.1 hrender] at hindented hjoined
    exact ⟨p, rfl, beq_iff_eq.1 hrender, hindented, hjoined.trans (beq_iff_eq.1 hline)⟩

end BlockScript
