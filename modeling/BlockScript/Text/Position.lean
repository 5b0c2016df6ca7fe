/-!
# Positions in a text

A position counts the bytes of the UTF-8 form before it, and knows its line and its column.  Lines
and columns start at one, a column is one character wide, and a line ends at a line feed.
-/

namespace BlockScript

structure Position where
  offset : Nat
  line : Nat
  column : Nat
  deriving DecidableEq, Repr, Inhabited

namespace Position

/-- The position before the first character. -/
def start : Position := ⟨0, 1, 1⟩

/-- The position after the character `c`. -/
def after (p : Position) (c : Char) : Position :=
  if c = '\n' then
    ⟨p.offset + c.utf8Size, p.line + 1, 1⟩
  else
    ⟨p.offset + c.utf8Size, p.line, p.column + 1⟩

/-- The position after all the characters of `text`. -/
def afterAll (p : Position) (text : List Char) : Position :=
  text.foldl after p

@[simp] theorem afterAll_nil (p : Position) : p.afterAll [] = p := rfl

@[simp] theorem afterAll_cons (p : Position) (c : Char) (text : List Char) :
    p.afterAll (c :: text) = (p.after c).afterAll text := rfl

theorem afterAll_append (p : Position) (front back : List Char) :
    p.afterAll (front ++ back) = (p.afterAll front).afterAll back :=
  List.foldl_append

@[simp] theorem offset_after (p : Position) (c : Char) :
    (p.after c).offset = p.offset + c.utf8Size := by
  unfold after
  split <;> rfl

end Position

/-- The number of bytes of a text in UTF-8. -/
def byteLength : List Char → Nat
  | [] => 0
  | c :: text => c.utf8Size + byteLength text

@[simp] theorem byteLength_append (front back : List Char) :
    byteLength (front ++ back) = byteLength front + byteLength back := by
  induction front with
  | nil => simp [byteLength]
  | cons c front ih => simp [byteLength, ih, Nat.add_assoc]

theorem Position.offset_afterAll (p : Position) (text : List Char) :
    (p.afterAll text).offset = p.offset + byteLength text := by
  induction text generalizing p with
  | nil => rfl
  | cons c text ih => simp [ih, byteLength, Nat.add_assoc]

end BlockScript
