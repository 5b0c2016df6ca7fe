import BlockScript.Proofs.Repl.Completeness

/-!
# Brackets behind a comment

A comment ends at a carriage return, but the scanner for complete inputs stays in it up to the next
line feed.  So it misses the brackets of a match that stand in between.  All brackets of a match are
balanced, and the scanner counts those that it sees; hence a text that is read as a program is
complete exactly if the brackets that it misses close no more than they open.
-/

namespace BlockScript.Repl

open Grammar
open Peg (AllLeaves)
open Peg.Tree (textOf)

/-! ## The pieces of a match -/

/-- What a match makes of a part of its text. -/
inductive Piece where
  | bracket (sign : Char)
  | layout (text : List Char)
  | token (text : List Char)
  deriving DecidableEq, Repr, Inhabited

namespace Piece

def text : Piece → List Char
  | .bracket sign => [sign]
  | .layout text => text
  | .token text => text

def ofLeaf : List Char → Piece
  | ['\x7b'] => .bracket '\x7b'
  | ['\x7d'] => .bracket '\x7d'
  | ['('] => .bracket '('
  | [')'] => .bracket ')'
  | text => .token text

theorem text_ofLeaf (chars : List Char) : (ofLeaf chars).text = chars := by
  unfold ofLeaf
  split <;> rfl

theorem ofLeaf_of_isInert {chars : List Char} (h : ∀ c ∈ chars, isInert c = true) :
    ofLeaf chars = .token chars := by
  unfold ofLeaf
  split
  case h_5 => rfl
  all_goals cases h _ (List.mem_singleton_self _)

theorem ofLeaf_of_brackets {rule : Rule} {opening closing : Char}
    (h : bracketsOf rule = some (opening, closing)) :
    ofLeaf [opening] = .bracket opening ∧ ofLeaf [closing] = .bracket closing := by
  rcases bracketsOf_eq_some h with ⟨rfl, rfl⟩ | ⟨rfl, rfl⟩
  · exact ⟨rfl, rfl⟩
  · exact ⟨rfl, rfl⟩

end Piece

mutual

/-- The pieces of a match in order.  A string is one token, whatever stands in it. -/
def piecesOf : Peg.Tree Rule → List Piece
  | .leaf chars => [.ofLeaf chars]
  | .gap text => [.layout text]
  | .node rule parts => if rule = .string then [.token (textOf parts)] else piecesOfAll parts

def piecesOfAll : List (Peg.Tree Rule) → List Piece
  | [] => []
  | tree :: trees => piecesOf tree ++ piecesOfAll trees

end

def textOfPieces (pieces : List Piece) : List Char :=
  pieces.flatMap Piece.text

mutual

theorem textOfPieces_piecesOf : ∀ tree : Peg.Tree Rule, textOfPieces (piecesOf tree) = tree.text
  | .leaf chars => by simp [piecesOf, textOfPieces, Piece.text_ofLeaf, Peg.Tree.text]
  | .gap text => by simp [piecesOf, textOfPieces, Piece.text, Peg.Tree.text]
  | .node rule parts => by
    rw [piecesOf, Peg.Tree.text]
    split
    · simp [textOfPieces, Piece.text]
    · exact textOfPieces_piecesOfAll parts

theorem textOfPieces_piecesOfAll :
    ∀ trees : List (Peg.Tree Rule), textOfPieces (piecesOfAll trees) = textOf trees
  | [] => rfl
  | tree :: trees => by
    rw [piecesOfAll, textOf, ← textOfPieces_piecesOf tree, ← textOfPieces_piecesOfAll trees]
    exact List.flatMap_append

end

theorem piecesOfAll_append (front back : List (Peg.Tree Rule)) :
    piecesOfAll (front ++ back) = piecesOfAll front ++ piecesOfAll back := by
  induction front with
  | nil => rfl
  | cons tree front ih => rw [List.cons_append, piecesOfAll, piecesOfAll, ih, List.append_assoc]

/-- All the brackets among the pieces. -/
def bracketsAmong : List Piece → List Char
  | [] => []
  | .bracket sign :: rest => sign :: bracketsAmong rest
  | .layout _ :: rest | .token _ :: rest => bracketsAmong rest

theorem bracketsAmong_append (front back : List Piece) :
    bracketsAmong (front ++ back) = bracketsAmong front ++ bracketsAmong back := by
  induction front with
  | nil => rfl
  | cons piece front ih => cases piece <;> simp [bracketsAmong, ih]

/-- Whether a comment has begun since the last line feed, behind some layout and given the answer
in front of it. -/
def commentBehind (begun : Bool) (layout : List Char) : Bool :=
  layout.foldl (fun begun c => c ≠ '\n' && (begun || c = '#')) begun

/-- The brackets that stand behind a comment in their line, if a line is taken to end at a line feed
only. -/
def swallowed : Bool → List Piece → List Char
  | _, [] => []
  | begun, .bracket sign :: rest =>
    if begun then sign :: swallowed begun rest else swallowed begun rest
  | begun, .layout text :: rest => swallowed (commentBehind begun text) rest
  | begun, .token _ :: rest => swallowed begun rest

/-! ## How pieces stand in a match -/

/-- How many more opening than closing brackets there are. -/
def surplus (opening closing : Char) (brackets : List Char) : Int :=
  brackets.count opening - brackets.count closing

theorem surplus_append (opening closing : Char) (front back : List Char) :
    surplus opening closing (front ++ back) =
      surplus opening closing front + surplus opening closing back := by
  simp only [surplus, List.count_append]
  omega

theorem surplus_cons (opening closing sign : Char) (rest : List Char) :
    surplus opening closing (sign :: rest) =
      surplus opening closing [sign] + surplus opening closing rest :=
  surplus_append opening closing [sign] rest

theorem surplus_of_brackets {rule : Rule} {opening closing : Char}
    (h : bracketsOf rule = some (opening, closing)) :
    surplus '\x7b' '\x7d' [opening] + surplus '\x7b' '\x7d' [closing] = 0 ∧
      surplus '(' ')' [opening] + surplus '(' ')' [closing] = 0 := by
  rcases bracketsOf_eq_some h with ⟨rfl, rfl⟩ | ⟨rfl, rfl⟩
  · decide
  · decide

/-- The scanner passes over the text, in a comment as well as outside. -/
def Neutral (text : List Char) : Prop :=
  ∀ b p f, text.foldl Scan.next (outside b p f) = outside b p f

theorem neutral_of_isInert {chars : List Char} (h : ∀ c ∈ chars, isInert c = true) :
    Neutral chars := by
  intro b p f
  cases f with
  | false => exact foldl_of_isInert h b p
  | true =>
    apply foldl_behind_comment
    intro hmem
    cases h '\n' hmem

theorem neutral_semicolon : Neutral [';'] := by
  intro b p f
  cases f <;> rfl

theorem neutral_of_isString {text : List Char} (h : IsString text) : Neutral text := by
  intro b p f
  cases f with
  | false => exact foldl_of_isString h b p
  | true => exact foldl_behind_comment (newline_notMem_of_isString h) b p

theorem Neutral.append {front back : List Char} (hfront : Neutral front) (hback : Neutral back) :
    Neutral (front ++ back) := by
  intro b p f
  rw [List.foldl_append, hfront, hback]

theorem neutral_of_allLeaves {trees : List (Peg.Tree Rule)} {rest : List Char}
    (h : Nested trees rest) (hleaves : AllLeaves trees) : Neutral (textOf trees) := by
  induction h with
  | nil =>
    intro b p f
    rfl
  | leaf hchars _ ih =>
    rw [textOf_leaf_cons]
    exact (neutral_of_isInert hchars).append (ih (List.forall_mem_cons.1 hleaves).2)
  | semicolon _ ih =>
    rw [textOf_leaf_cons]
    exact neutral_semicolon.append (ih (List.forall_mem_cons.1 hleaves).2)
  | _ =>
    obtain ⟨_, hleaf⟩ := (List.forall_mem_cons.1 hleaves).1
    cases hleaf

def Piece.Sound : Piece → Prop
  | .bracket sign => sign ∈ ['\x7b', '\x7d', '(', ')']
  | .layout text => IsLayout text
  | .token text => Neutral text

theorem Piece.sound_of_brackets {rule : Rule} {opening closing : Char}
    (h : bracketsOf rule = some (opening, closing)) :
    (Piece.bracket opening).Sound ∧ (Piece.bracket closing).Sound := by
  rcases bracketsOf_eq_some h with ⟨rfl, rfl⟩ | ⟨rfl, rfl⟩
  · simp [Piece.Sound]
  · simp [Piece.Sound]

/-- Pieces as a match has them: the scanner can be followed through each, and the brackets are
balanced. -/
structure Balanced (pieces : List Piece) : Prop where
  sound : ∀ piece ∈ pieces, piece.Sound
  braces : surplus '\x7b' '\x7d' (bracketsAmong pieces) = 0
  parentheses : surplus '(' ')' (bracketsAmong pieces) = 0

namespace Balanced

theorem nil : Balanced [] :=
  ⟨by simp, rfl, rfl⟩

theorem append {front back : List Piece} (hfront : Balanced front) (hback : Balanced back) :
    Balanced (front ++ back) := by
  refine ⟨List.forall_mem_append.2 ⟨hfront.sound, hback.sound⟩, ?_, ?_⟩
  · rw [bracketsAmong_append, surplus_append, hfront.braces, hback.braces]
    rfl
  · rw [bracketsAmong_append, surplus_append, hfront.parentheses, hback.parentheses]
    rfl

theorem layout {text : List Char} (h : IsLayout text) : Balanced [.layout text] :=
  ⟨List.forall_mem_singleton.2 h, rfl, rfl⟩

theorem token {text : List Char} (h : Neutral text) : Balanced [.token text] :=
  ⟨List.forall_mem_singleton.2 h, rfl, rfl⟩

theorem enclosed {rule : Rule} {opening closing : Char} {inner : List Piece}
    (hrule : bracketsOf rule = some (opening, closing)) (h : Balanced inner) :
    Balanced (.bracket opening :: (inner ++ [.bracket closing])) := by
  obtain ⟨hopening, hclosing⟩ := Piece.sound_of_brackets hrule
  obtain ⟨hbraces, hparentheses⟩ := surplus_of_brackets hrule
  have hsigns : bracketsAmong (.bracket opening :: (inner ++ [.bracket closing])) =
      [opening] ++ (bracketsAmong inner ++ [closing]) := by
    rw [bracketsAmong, bracketsAmong_append]
    rfl
  refine ⟨?_, ?_, ?_⟩
  · rw [List.forall_mem_cons, List.forall_mem_append, List.forall_mem_singleton]
    exact ⟨hopening, h.sound, hclosing⟩
  · rw [hsigns, surplus_append, surplus_append, h.braces, Int.zero_add, hbraces]
  · rw [hsigns, surplus_append, surplus_append, h.parentheses, Int.zero_add, hparentheses]

end Balanced

theorem balanced_of_nested {trees : List (Peg.Tree Rule)} {rest : List Char}
    (h : Nested trees rest) : Balanced (piecesOfAll trees) := by
  induction h with
  | nil => exact .nil
  | leaf hchars _ ih =>
    rw [piecesOfAll, piecesOf, Piece.ofLeaf_of_isInert hchars]
    exact (Balanced.token (neutral_of_isInert hchars)).append ih
  | semicolon _ ih =>
    rw [piecesOfAll]
    exact (Balanced.token neutral_semicolon).append ih
  | gap _ hskip _ ih =>
    rw [piecesOfAll, piecesOf]
    exact (Balanced.layout (isLayout_of_skip hskip)).append ih
  | string hstring _ _ _ ih =>
    rw [piecesOfAll, piecesOf, if_pos rfl]
    exact (Balanced.token (neutral_of_isString hstring)).append ih
  | @plain rule parts trees rest _ hleaves hparts _ ihparts ih =>
    rw [piecesOfAll, piecesOf]
    split
    · rename_i hstring
      subst hstring
      exact (Balanced.token (neutral_of_allLeaves hparts (hleaves rfl))).append ih
    · exact ihparts.append ih
  | @bracketed rule opening closing front inner back trees rest hsome _ _ _ _ ihfront ihinner ihback
      ih =>
    have hrule : rule ≠ .string := by
      intro heq
      subst heq
      cases hsome
    have hleaves := Piece.ofLeaf_of_brackets hsome
    rw [piecesOfAll, piecesOf, if_neg hrule]
    have hparts := ihfront.append ((ihinner.enclosed hsome).append ihback)
    simpa [piecesOfAll, piecesOfAll_append, piecesOf, hleaves] using hparts.append ih

/-! ## Scanning the pieces -/

theorem commentBehind_comment {body : List Char} (h : ∀ c ∈ body, isLineEnd c = false)
    (begun : Bool) (rest : List Char) :
    commentBehind begun ('#' :: (body ++ rest)) = commentBehind true rest := by
  have hbody : commentBehind true body = true := by
    have hnewline := newline_notMem_of_comment h
    clear h
    induction body with
    | nil => rfl
    | cons c body ih =>
      have hc : c ≠ '\n' := (List.ne_of_not_mem_cons hnewline).symm
      have hstep : commentBehind true (c :: body) = commentBehind true body := by
        simp [commentBehind, hc]
      rw [hstep, ih (List.not_mem_of_not_mem_cons hnewline)]
  have hsign : commentBehind begun ('#' :: (body ++ rest)) = commentBehind true (body ++ rest) := by
    simp [commentBehind]
  rw [hsign, commentBehind, List.foldl_append]
  exact congrArg (commentBehind · rest) hbody

theorem foldl_of_isLayout {text : List Char} (h : IsLayout text) (b p : Int) (f : Bool) :
    text.foldl Scan.next (outside b p f) = outside b p (commentBehind f text) := by
  induction h generalizing f with
  | nil => rfl
  | @blank c rest hblank _ ih =>
    have hnext : (outside b p f).next c = outside b p (c ≠ '\n' && (f || c = '#')) := by
      cases f with
      | true => simp [Scan.next, outside]
      | false =>
        have hcomment : c ≠ '#' := by
          intro heq
          subst heq
          cases hblank
        rw [next_of_isBlank hblank]
        simp [hcomment]
    rw [List.foldl_cons, hnext, ih]
    rfl
  | @comment body rest hbody _ _ ih =>
    rw [List.foldl_cons, next_comment_sign, List.foldl_append, foldl_in_comment hbody, ih,
      commentBehind_comment hbody]

theorem next_bracket {sign : Char} (h : sign ∈ ['\x7b', '\x7d', '(', ')']) (b p : Int) :
    (outside b p false).next sign =
      outside (b + surplus '\x7b' '\x7d' [sign]) (p + surplus '(' ')' [sign]) false := by
  simp only [List.mem_cons, List.not_mem_nil, or_false] at h
  rcases h with rfl | rfl | rfl | rfl
  all_goals simp [Scan.next, outside, surplus, Int.sub_eq_add_neg]

/-- At the end of the pieces, the counts lack the brackets that were swallowed. -/
theorem exists_foldl_pieces {pieces : List Piece} (h : ∀ piece ∈ pieces, piece.Sound) (b p : Int)
    (f : Bool) :
    ∃ f', (textOfPieces pieces).foldl Scan.next (outside b p f) =
      outside
        (b + (surplus '\x7b' '\x7d' (bracketsAmong pieces) -
          surplus '\x7b' '\x7d' (swallowed f pieces)))
        (p + (surplus '(' ')' (bracketsAmong pieces) - surplus '(' ')' (swallowed f pieces)))
        f' := by
  induction pieces generalizing b p f with
  | nil => exact ⟨f, by simp [textOfPieces, bracketsAmong, swallowed]⟩
  | cons piece pieces ih =>
    obtain ⟨hpiece, hpieces⟩ := List.forall_mem_cons.1 h
    have hfold : ∀ s, (textOfPieces (piece :: pieces)).foldl Scan.next s =
        (textOfPieces pieces).foldl Scan.next (piece.text.foldl Scan.next s) := by
      intro s
      rw [textOfPieces, List.flatMap_cons, List.foldl_append]
      rfl
    rw [hfold]
    cases piece with
    | layout text =>
      rw [Piece.text, foldl_of_isLayout hpiece]
      exact ih hpieces b p _
    | token text =>
      rw [Piece.text, hpiece b p f]
      exact ih hpieces b p f
    | bracket sign =>
      rw [Piece.text, List.foldl_cons, List.foldl_nil, bracketsAmong, swallowed,
        surplus_cons _ _ _ (bracketsAmong pieces), surplus_cons _ _ _ (bracketsAmong pieces)]
      cases f with
      | false =>
        obtain ⟨f', hlater⟩ := ih hpieces (b + surplus '\x7b' '\x7d' [sign])
          (p + surplus '(' ')' [sign]) false
        refine ⟨f', ?_⟩
        rw [next_bracket hpiece, hlater, if_neg Bool.false_ne_true]
        congr 1 <;> omega
      | true =>
        have hsign : sign ≠ '\n' := by
          intro heq
          subst heq
          simp [Piece.Sound] at hpiece
        obtain ⟨f', hlater⟩ := ih hpieces b p true
        refine ⟨f', ?_⟩
        rw [next_in_comment hsign, hlater, if_pos rfl, surplus_cons _ _ _ (swallowed true pieces),
          surplus_cons _ _ _ (swallowed true pieces)]
        congr 1 <;> omega

/-- A program is complete as an input, and its last line is submitted, exactly if the brackets that
stand behind comments open as many as they close, or more. -/
theorem isComplete_iff_swallowed {source : String} {file : Option String} {p : Program}
    (h : Program.parse source file = .ok p) :
    ∃ trees, rules.parse .program source.toList = .matched trees [] ∧
      (isComplete source = true ↔
        0 ≤ surplus '\x7b' '\x7d' (swallowed false (piecesOfAll trees)) ∧
          0 ≤ surplus '(' ')' (swallowed false (piecesOfAll trees))) ∧
      ∀ pending line, joined pending line = source →
        ((∃ input, feed pending line = .input input) ↔
          0 ≤ surplus '\x7b' '\x7d' (swallowed false (piecesOfAll trees)) ∧
            0 ≤ surplus '(' ')' (swallowed false (piecesOfAll trees))) := by
  obtain ⟨parts, hmatch, hnested, hsource⟩ := exists_match_of_parse h
  have hpieces : piecesOfAll [.node .program parts] = piecesOfAll parts := by
    simp [piecesOfAll, piecesOf]
  have hbalanced := balanced_of_nested hnested
  obtain ⟨f, hscan⟩ := exists_foldl_pieces hbalanced.sound 0 0 false
  rw [textOfPieces_piecesOfAll, hsource, hbalanced.braces, hbalanced.parentheses] at hscan
  have hcomplete : isComplete source = true ↔
      0 ≤ surplus '\x7b' '\x7d' (swallowed false (piecesOfAll parts)) ∧
        0 ≤ surplus '(' ')' (swallowed false (piecesOfAll parts)) := by
    change source.toList.foldl Scan.next .start = _ at hscan
    simp only [isComplete, hscan, outside, Bool.and_eq_true, decide_eq_true_eq, Bool.not_false,
      and_true]
    omega
  refine ⟨_, hmatch, ?_, ?_⟩
  · rw [hpieces]
    exact hcomplete
  · intro pending line hjoined
    rw [hpieces, exists_input_iff, hjoined]
    exact hcomplete

/-- The parenthesis in the string is none of the match, and the last one is swallowed. -/
theorem swallowed_parenthesis : ∃ trees,
    rules.parse .program "(\")\"#\r)".toList = .matched trees [] ∧
      swallowed false (piecesOfAll trees) = [')'] ∧ isComplete "(\")\"#\r)" = false ∧
      ¬∃ input, feed "" "(\")\"#\r)" = .input input := by
  have hread : (Program.parse "(\")\"#\r)" none).isOk = true := by decide +kernel
  have hrun : rules.parse .program "(\")\"#\r)".toList = .matched
      [.node .program
        [.node .expressionStatement
          [.node .expression
            [.node .parenthesized
              [.leaf ['('],
                .node .expression
                  [.node .string [.leaf ['"'], .leaf [')'], .leaf ['"']], .gap ['#', '\r']],
                .leaf [')']]]],
          .node .endOfInput []]] [] := rfl
  cases hparse : Program.parse "(\")\"#\r)" none with
  | error e => simp [hparse, Except.isOk, Except.toBool] at hread
  | ok p =>
    obtain ⟨trees, hmatch, hcomplete, hfeed⟩ := isComplete_iff_swallowed hparse
    have hmissed : swallowed false (piecesOfAll trees) = [')'] := by
      cases hrun.symm.trans hmatch
      rfl
    rw [hmissed] at hcomplete hfeed
    refine ⟨trees, hmatch, hmissed, ?_, ?_⟩
    · apply Bool.eq_false_iff.2
      rw [Ne, hcomplete]
      decide
    · rw [hfeed "" _ rfl]
      decide

/-- The block is closed on the line of a comment, which the carriage return has ended, but to the
scanner the rest of that line is the comment. -/
theorem block_incomplete_behind_return :
    (Program.parse "\x7b#\r\x7d" none).isOk = true ∧ isComplete "\x7b#\r\x7d" = false ∧
      feed "" "\x7b#\r\x7d" = .pending "\x7b#\r\x7d" := by
  decide +kernel

end BlockScript.Repl
