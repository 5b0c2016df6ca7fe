import BlockScript.Proofs.Grammar.Tokens
import BlockScript.Tree.SExpr

/-!
# The data that s-expressions show

The text of an s-expression shows its atoms and how they are nested, but not which of its lists are
lists of statements.  All that it shows is determined by it: an atom is a word without delimiters, or
a string, which ends at its own quote, so a datum can be told from the text that follows it.
-/

namespace BlockScript

open Grammar
open Peg (Stops append_inj_of_stops)

/-- What the text of an s-expression shows. -/
inductive Datum where
  | atom (text : String)
  | list (head : String) (items : List Datum)

namespace SExpr

mutual

def datum : SExpr → Datum
  | .atom text => .atom text
  | .list head items => .list head (dataOf items)
  | .body head items => .list head (dataOf items)

def dataOf : List SExpr → List Datum
  | [] => []
  | item :: items => item.datum :: dataOf items

end

/-! ## Atoms -/

def isDelimiter (c : Char) : Bool :=
  [' ', '\n', '(', ')', '"'].contains c

/-- A word without delimiters. -/
def isBare (text : List Char) : Bool :=
  !text.isEmpty && text.all fun c => !isDelimiter c

def IsAtom (text : List Char) : Prop :=
  isBare text = true ∨ IsString text

/-- A text that may follow an atom. -/
def Closes (rest : List Char) : Prop :=
  Stops (fun c => !isDelimiter c) rest ∧ Stops startsQuote rest

theorem exists_head_of_isBare {text : List Char} (h : isBare text = true) :
    ∃ c tail, text = c :: tail ∧ isDelimiter c = false := by
  cases text with
  | nil => cases h
  | cons c tail =>
    simp only [isBare, List.all_cons, Bool.and_eq_true, Bool.not_eq_true'] at h
    exact ⟨c, tail, rfl, h.2.1⟩

theorem bare_append_inj {a b rest rest' : List Char} (ha : isBare a = true) (hb : isBare b = true)
    (hrest : Closes rest) (hrest' : Closes rest') (h : a ++ rest = b ++ rest') :
    a = b ∧ rest = rest' := by
  simp only [isBare, Bool.and_eq_true, List.all_eq_true] at ha hb
  exact append_inj_of_stops ha.2 hb.2 hrest.1 hrest'.1 h

/-- A string that no quote follows ends where the grammar ends it. -/
theorem string_append_inj {a b rest rest' : List Char} (ha : IsString a) (hb : IsString b)
    (hrest : Closes rest) (hrest' : Closes rest') (h : a ++ rest = b ++ rest') :
    a = b ∧ rest = rest' := by
  have hread : rules.Reads (.rule .string) .start a rest _ := reads_string.2 ⟨⟨ha, hrest.2⟩, rfl⟩
  have hread' : rules.Reads (.rule .string) .start b rest' _ :=
    reads_string.2 ⟨⟨hb, hrest'.2⟩, rfl⟩
  obtain ⟨heq, htail, -⟩ := hread.unique hread' h
  exact ⟨heq, htail⟩

theorem bare_append_ne_string {a b rest rest' : List Char} (ha : isBare a = true)
    (hb : IsString b) : a ++ rest ≠ b ++ rest' := by
  obtain ⟨c, tail, rfl, hc⟩ := exists_head_of_isBare ha
  obtain ⟨inner, -, rfl⟩ := hb
  intro h
  obtain ⟨rfl, -⟩ := List.cons.inj h
  cases hc

theorem atom_append_inj {a b rest rest' : List Char} (ha : IsAtom a) (hb : IsAtom b)
    (hrest : Closes rest) (hrest' : Closes rest') (h : a ++ rest = b ++ rest') :
    a = b ∧ rest = rest' := by
  rcases ha with ha | ha
  · rcases hb with hb | hb
    · exact bare_append_inj ha hb hrest hrest' h
    · exact absurd h (bare_append_ne_string ha hb)
  · rcases hb with hb | hb
    · exact absurd h.symm (bare_append_ne_string hb ha)
    · exact string_append_inj ha hb hrest hrest' h

theorem atom_append_ne_list {a rest rest' : List Char} (ha : IsAtom a) :
    a ++ rest ≠ '(' :: rest' := by
  rcases ha with ha | ⟨inner, -, rfl⟩
  · obtain ⟨c, tail, rfl, hc⟩ := exists_head_of_isBare ha
    intro h
    obtain ⟨rfl, -⟩ := List.cons.inj h
    cases hc
  · intro h
    cases h

/-! ## Lists -/

mutual

/-- The atoms and heads can be told from what is around them. -/
def Legible : SExpr → Prop
  | .atom text => IsAtom text.toList
  | .list head items => isBare head.toList = true ∧ AllLegible items
  | .body head items => isBare head.toList = true ∧ AllLegible items

def AllLegible : List SExpr → Prop
  | [] => True
  | item :: items => item.Legible ∧ AllLegible items

end

/-- The text of a list behind its head, up to its end. -/
def tailText (flat : Bool) (indent : Nat) (items : List SExpr) (rest : List Char) : List Char :=
  layoutItems (separator flat indent) indent items ++ ')' :: rest

theorem closes_tailText (flat : Bool) (indent : Nat) (items : List SExpr) (rest : List Char) :
    Closes (tailText flat indent items rest) := by
  cases items with
  | nil => exact ⟨Peg.stops_cons.2 rfl, Peg.stops_cons.2 rfl⟩
  | cons item items =>
    cases flat with
    | false => exact ⟨Peg.stops_cons.2 rfl, Peg.stops_cons.2 rfl⟩
    | true => exact ⟨Peg.stops_cons.2 rfl, Peg.stops_cons.2 rfl⟩

theorem tailText_cons (flat : Bool) (indent : Nat) (item : SExpr) (items : List SExpr)
    (rest : List Char) : tailText flat indent (item :: items) rest =
      separator flat indent ++ (item.layout indent ++ tailText flat indent items rest) := by
  simp only [tailText, layoutItems, List.append_assoc]

theorem separator_append_inj {flat flat' : Bool} {indent : Nat} {rest rest' : List Char}
    (h : separator flat indent ++ rest = separator flat' indent ++ rest') :
    flat = flat' ∧ rest = rest' := by
  cases flat with
  | false =>
    cases flat' with
    | false => exact ⟨rfl, List.append_cancel_left h⟩
    | true => cases h
  | true =>
    cases flat' with
    | false => cases h
    | true => exact ⟨rfl, List.append_cancel_left h⟩

theorem separator_append_ne_end {flat : Bool} {indent : Nat} {rest rest' : List Char} :
    separator flat indent ++ rest ≠ ')' :: rest' := by
  intro h
  cases flat with
  | false => cases h
  | true => cases h

theorem layout_list (head : String) (items : List SExpr) (indent : Nat) (rest : List Char) :
    (list head items).layout indent ++ rest =
      '(' :: (head.toList ++ tailText (allFlat items) (indent + 2) items rest) := by
  simp [layout, tailText]

theorem layout_body (head : String) (items : List SExpr) (indent : Nat) (rest : List Char) :
    (body head items).layout indent ++ rest = '(' :: (head.toList ++
      tailText (decide (items.length ≤ 1) && allFlat items) (indent + 2) items rest) := by
  simp [layout, tailText]

theorem layout_cases (e : SExpr) :
    (∃ text, e = .atom text) ∨ ∃ head items flat, e.datum = .list head (dataOf items) ∧
      (e.Legible ↔ isBare head.toList = true ∧ AllLegible items) ∧
      ∀ indent rest, e.layout indent ++ rest =
        '(' :: (head.toList ++ tailText flat (indent + 2) items rest) := by
  cases e with
  | atom text => exact .inl ⟨text, rfl⟩
  | list head items =>
    exact .inr ⟨head, items, _, rfl, Iff.rfl, layout_list head items⟩
  | body head items =>
    exact .inr ⟨head, items, _, rfl, Iff.rfl, layout_body head items⟩

theorem list_append_inj {head : String} {items : List SExpr} {e : SExpr} {flat : Bool}
    {indent : Nat} {rest rest' : List Char}
    (hitems : ∀ items' flat' rest', AllLegible items' →
      tailText flat (indent + 2) items rest = tailText flat' (indent + 2) items' rest' →
        dataOf items = dataOf items' ∧ rest = rest')
    (hhead : isBare head.toList = true) (he : e.Legible)
    (h : '(' :: (head.toList ++ tailText flat (indent + 2) items rest) = e.layout indent ++ rest') :
    .list head (dataOf items) = e.datum ∧ rest = rest' := by
  rcases layout_cases e with ⟨text, rfl⟩ | ⟨head', items', flat', hdatum, hlegible, hlayout⟩
  · exact absurd h.symm (atom_append_ne_list he)
  · obtain ⟨hhead', hitems'⟩ := hlegible.1 he
    rw [hlayout] at h
    obtain ⟨heq, htails⟩ := bare_append_inj hhead hhead' (closes_tailText ..) (closes_tailText ..)
      (List.cons.inj h).2
    obtain ⟨hdata, hrest⟩ := hitems items' flat' rest' hitems' htails
    rw [hdatum, String.toList_inj.1 heq, hdata]
    exact ⟨rfl, hrest⟩

mutual

/-- The text of an expression tells its datum and where it ends. -/
theorem layout_append_inj (e e' : SExpr) (indent : Nat) (rest rest' : List Char) (he : e.Legible)
    (he' : e'.Legible) (hrest : Closes rest) (hrest' : Closes rest')
    (h : e.layout indent ++ rest = e'.layout indent ++ rest') :
    e.datum = e'.datum ∧ rest = rest' := by
  cases e with
  | atom text =>
    rcases layout_cases e' with ⟨text', rfl⟩ | ⟨head, items, flat, -, -, hlayout⟩
    · obtain ⟨heq, htail⟩ := atom_append_inj he he' hrest hrest' h
      rw [String.toList_inj.1 heq]
      exact ⟨rfl, htail⟩
    · rw [hlayout] at h
      exact absurd h (atom_append_ne_list he)
  | list head items =>
    rw [layout_list] at h
    exact list_append_inj (tailText_inj items · _ · (indent + 2) rest · he.2) he.1 he' h
  | body head items =>
    rw [layout_body] at h
    exact list_append_inj (tailText_inj items · _ · (indent + 2) rest · he.2) he.1 he' h

theorem tailText_inj (items items' : List SExpr) (flat flat' : Bool) (indent : Nat)
    (rest rest' : List Char) (hitems : AllLegible items) (hitems' : AllLegible items')
    (h : tailText flat indent items rest = tailText flat' indent items' rest') :
    dataOf items = dataOf items' ∧ rest = rest' := by
  cases items with
  | nil =>
    cases items' with
    | nil => exact ⟨rfl, (List.cons.inj h).2⟩
    | cons item' items' =>
      rw [tailText_cons] at h
      exact absurd h.symm separator_append_ne_end
  | cons item items =>
    cases items' with
    | nil =>
      rw [tailText_cons] at h
      exact absurd h separator_append_ne_end
    | cons item' items' =>
      rw [tailText_cons, tailText_cons] at h
      -- both lists are indented alike, so the separators differ only if one list is on one line
      obtain ⟨rfl, hitem⟩ := separator_append_inj h
      obtain ⟨hdatum, htails⟩ := layout_append_inj item item' indent _ _ hitems.1 hitems'.1
        (closes_tailText ..) (closes_tailText ..) hitem
      obtain ⟨hdata, hrest⟩ := tailText_inj items items' flat flat indent rest rest' hitems.2
        hitems'.2 htails
      rw [dataOf, dataOf, hdatum, hdata]
      exact ⟨rfl, hrest⟩

end

theorem datum_eq_of_render {e e' : SExpr} (he : e.Legible) (he' : e'.Legible)
    (h : e.render = e'.render) : e.datum = e'.datum := by
  have hcloses : Closes [] := ⟨Peg.stops_nil _, Peg.stops_nil _⟩
  have hlayout : e.layout 0 ++ [] = e'.layout 0 ++ [] := by
    rw [String.ofList_inj.1 h]
  exact (layout_append_inj e e' 0 [] [] he he' hcloses hcloses hlayout).1

end SExpr

end BlockScript
