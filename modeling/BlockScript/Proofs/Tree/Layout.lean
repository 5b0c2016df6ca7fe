import BlockScript.Proofs.Grammar.Parallel
import BlockScript.Proofs.Tree.Moved
import BlockScript.Proofs.Tree.RoundTrip

/-!
# Layout has no meaning

Blanks and comments that a match skips can be replaced by other ones, and the program is read as the
same tree up to spans.  The texts before and after are parallel, so they are matched alike, and
matches that are alike have nodes that resemble each other.
-/

namespace BlockScript

open Grammar Reader
open Peg (Node AllLeaves Alike Agree)
open Peg.Grammar
open Peg.Tree (placeAll textOf)

/-! ## Nodes of alike matches -/

/-- Tokens are made of leaves only. -/
inductive Leafed : List (Peg.Tree Rule) → Prop
  | nil : Leafed []
  | leaf {text : List Char} {trees : List (Peg.Tree Rule)} (htrees : Leafed trees) :
      Leafed (.leaf text :: trees)
  | gap {text : List Char} {trees : List (Peg.Tree Rule)} (htrees : Leafed trees) :
      Leafed (.gap text :: trees)
  | node {rule : Rule} {parts trees : List (Peg.Tree Rule)}
      (hleaves : isToken rule = true → AllLeaves parts) (hparts : Leafed parts)
      (htrees : Leafed trees) : Leafed (.node rule parts :: trees)

theorem Leafed.append {front back : List (Peg.Tree Rule)} (hfront : Leafed front)
    (hback : Leafed back) : Leafed (front ++ back) := by
  induction hfront with
  | nil => exact hback
  | leaf _ ih => exact .leaf ih
  | gap _ ih => exact .gap ih
  | node hleaves hparts _ _ ih => exact .node hleaves hparts ih

theorem leafed_of_leaves {trees : List (Peg.Tree Rule)} (h : AllLeaves trees) : Leafed trees := by
  induction trees with
  | nil => exact .nil
  | cons tree trees ih =>
    obtain ⟨⟨text, rfl⟩, htrees⟩ := List.forall_mem_cons.1 h
    exact .leaf (ih htrees)

theorem Grammar.Nested.leafed {trees : List (Peg.Tree Rule)} {rest : List Char}
    (h : Nested trees rest) : Leafed trees := by
  induction h with
  | nil => exact .nil
  | leaf _ _ ih => exact .leaf ih
  | semicolon _ ih => exact .leaf ih
  | gap _ _ _ ih => exact .gap ih
  | string _ hleaves _ _ ih => exact .node (fun _ => hleaves) (leafed_of_leaves hleaves) ih
  | plain _ hleaves _ _ ihparts ih => exact .node hleaves ihparts ih
  | @bracketed rule _ _ _ _ _ _ _ hsome _ _ _ _ ihfront ihinner ihback ih =>
    apply Leafed.node _ (ihfront.append (.leaf (ihinner.append (.leaf ihback)))) ih
    intro htoken
    rw [bracketsOf_of_isToken htoken] at hsome
    cases hsome

/-- Texts and related layout lead from related positions to related ones, and no layout is lost. -/
structure Carries (Gap : List Char → List Char → Prop) (At : Position → Position → Prop) : Prop where
  text : ∀ {p p'} text, At p p' → At (p.afterAll text) (p'.afterAll text)
  gap : ∀ {p p' text text'}, Gap text text' → At p p' → At (p.afterAll text) (p'.afterAll text')
  empty : ∀ {text text'}, Gap text text' → (text = [] ↔ text' = [])

theorem byteLength_eq_zero {text : List Char} : byteLength text = 0 ↔ text = [] := by
  cases text with
  | nil => simp [byteLength]
  | cons c text =>
    have hpos := c.utf8Size_pos
    simp only [byteLength, reduceCtorEq, iff_false]
    omega

section

variable {Gap : List Char → List Char → Prop} {At : Position → Position → Prop}
  {trees trees' : List (Peg.Tree Rule)}

/-- In alike matches the first nodes start at once or behind some text. -/
theorem touches_iff (hcarries : Carries Gap At) (h : Alike Gap trees trees') {p p' q q' : Position}
    (hle : p.offset ≤ q.offset) (hle' : p'.offset ≤ q'.offset)
    (hsame : p.offset = q.offset ↔ p'.offset = q'.offset) :
    Touches p (placeAll q trees).1 ↔ Touches p' (placeAll q' trees').1 := by
  induction h generalizing q q' with
  | nil => simp [Touches, placeAll]
  | @leaf text _ _ _ ih =>
    apply ih
    all_goals
      simp only [Position.offset_afterAll]
      omega
  | @gap text text' _ _ hgap _ ih =>
    have hzero : byteLength text = 0 ↔ byteLength text' = 0 := by
      rw [byteLength_eq_zero, byteLength_eq_zero]
      exact hcarries.empty hgap
    apply ih
    all_goals
      simp only [Position.offset_afterAll]
      omega
  | node _ _ _ _ => simpa [Touches, placeAll, Peg.Tree.place, Node.start] using hsame

theorem at_of_alike (hcarries : Carries Gap At) (h : Alike Gap trees trees') {p p' : Position}
    (hat : At p p') : At (p.afterAll (textOf trees)) (p'.afterAll (textOf trees')) := by
  induction h generalizing p p' with
  | nil => exact hat
  | leaf _ ih =>
    simp only [textOf, Peg.Tree.text, Position.afterAll_append]
    exact ih (hcarries.text _ hat)
  | gap hgap _ ih =>
    simp only [textOf, Peg.Tree.text, Position.afterAll_append]
    exact ih (hcarries.gap hgap hat)
  | node _ _ ihparts ih =>
    simp only [textOf, Peg.Tree.text, Position.afterAll_append]
    exact ih (ihparts hat)

theorem allResemble_of_alike (hcarries : Carries Gap At) (h : Alike Gap trees trees')
    (hleafed : Leafed trees) {p p' : Position} (hat : At p p') :
    AllResemble At (placeAll p trees).1 (placeAll p' trees').1 := by
  induction h generalizing p p' with
  | nil => exact .nil
  | leaf _ ih =>
    cases hleafed with
    | leaf htrees => exact ih htrees (hcarries.text _ hat)
  | gap hgap _ ih =>
    cases hleafed with
    | gap htrees => exact ih htrees (hcarries.gap hgap hat)
  | node hparts htrees ihparts ih =>
    cases hleafed with
    | node hleaves hleafedParts hleafedTrees =>
      have hstop := at_of_alike hcarries hparts hat
      simp only [placeAll, Peg.Tree.place, List.singleton_append, Peg.Tree.placeAll_snd,
        Peg.Tree.textsBefore_eq, List.append_nil]
      apply AllResemble.cons
      · apply Resembles.mk hat hstop _ (ihparts hleafedParts hat)
        intro htoken
        rw [hparts.eq_of_leaves (hleaves htoken)]
      · exact touches_iff hcarries htrees (Nat.le_refl _) (Nat.le_refl _) (iff_of_true rfl rfl)
      · exact ih hleafedTrees hstop

end

/-! ## Replaced layout -/

/-- A match skips a run of layout, with the matched text before and behind it. -/
inductive Skips : List (Peg.Tree Rule) → List Char → List Char → List Char → Prop
  | here {run : List Char} {trees : List (Peg.Tree Rule)} (hne : run ≠ []) :
      Skips (.gap run :: trees) [] run (textOf trees)
  | inside {rule : Rule} {parts trees : List (Peg.Tree Rule)} {before run behind : List Char}
      (hparts : Skips parts before run behind) :
      Skips (.node rule parts :: trees) before run (behind ++ textOf trees)
  | later {tree : Peg.Tree Rule} {trees : List (Peg.Tree Rule)} {before run behind : List Char}
      (htrees : Skips trees before run behind) :
      Skips (tree :: trees) (tree.text ++ before) run behind

/-- Layout that is kept or replaced. -/
def Relaid (text text' : List Char) : Prop :=
  text' = text ∨ text ≠ [] ∧ text' ≠ [] ∧ IsClosedLayout text'

theorem carries_relaid : Carries Relaid fun _ _ => True where
  text _ _ := trivial
  gap _ _ := trivial
  empty := by
    rintro text text' (rfl | ⟨hne, hne', -⟩)
    · rfl
    · exact iff_of_false hne hne'

theorem meets_erasing : Meets (fun _ _ => True) .erasing .erasing where
  offset _ := rfl
  span _ _ := rfl

namespace Skips

variable {trees : List (Peg.Tree Rule)} {before run behind : List Char}

theorem textOf_eq (h : Skips trees before run behind) :
    textOf trees = before ++ (run ++ behind) := by
  induction h with
  | here _ => rfl
  | inside _ ih => simp only [textOf, Peg.Tree.text, ih, List.append_assoc]
  | later _ ih => simp only [textOf, ih, List.append_assoc]

theorem exists_alike (h : Skips trees before run behind) {run' : List Char} (hne : run' ≠ [])
    (hclosed : IsClosedLayout run') :
    ∃ trees', Alike Relaid trees trees' ∧ textOf trees' = before ++ (run' ++ behind) := by
  have hkept : ∀ text, Relaid text text := fun text => .inl rfl
  induction h with
  | @here run trees hrun =>
    exact ⟨_, .gap (.inr ⟨hrun, hne, hclosed⟩) (Alike.refl hkept trees), rfl⟩
  | @inside rule parts trees before run behind _ ih =>
    obtain ⟨parts', hparts, htext⟩ := ih
    refine ⟨_, .node hparts (Alike.refl hkept trees), ?_⟩
    simp only [textOf, Peg.Tree.text, htext, List.append_assoc]
  | @later tree trees before run behind _ ih =>
    obtain ⟨trees', htrees, htext⟩ := ih
    refine ⟨_, (Alike.refl hkept [tree]).append htrees, ?_⟩
    simp only [List.singleton_append, textOf, htext, List.append_assoc]

end Skips

/-! ## Programs -/

theorem nested_of_run {fuel : Nat} {s rest : List Char} {parts : List (Peg.Tree Rule)}
    (h : rules.run fuel (pattern .program) s = .matched parts rest) : Nested parts rest := by
  have hstaged : Staged (bracketsOf .program) .before parts rest .before :=
    staged_of_run (isInertPattern_pattern (.inr rfl) (by decide))
      (by decide : leads (bracketsOf .program) true (pattern .program) .before = some .before) h
  cases hstaged with
  | stay hnested => exact hnested

/-- A match of a program is one node, whose parts are nested and reach to the end of the text. -/
theorem exists_parts_of_parse {s rest : List Char} {trees : List (Peg.Tree Rule)}
    (h : rules.parse .program s = .matched trees rest) :
    ∃ fuel parts, trees = [.node .program parts] ∧
      rules.run fuel (pattern .program) s = .matched parts [] ∧ Nested parts [] := by
  cases hfuel : rules.fuelFor s with
  | zero =>
    rw [parse, hfuel] at h
    cases h
  | succ fuel =>
    rw [parse, hfuel, run] at h
    split at h
    · rename_i parts rest' hparts
      cases h
      obtain ⟨_, _, _, _, -, -, -, hphrase⟩ := reads_seq.1 (reads_of_run .start hparts)
      obtain rfl := eq_nil_of_reads_end hphrase
      exact ⟨fuel, parts, rfl, hparts, nested_of_run hparts⟩
    all_goals cases h

theorem nodeOf_of_reads_program {s : List Char} {nodes : List (Node Rule)}
    (h : rules.Reads (pattern .program) .start s [] nodes) :
    nodeOf .program s = .ok (.mk .program .start (Position.start.afterAll s) s nodes) :=
  nodeOf_of_reads (reads_rule.2 ⟨nodes, h, rfl⟩)

theorem nodeOf_of_run {fuel : Nat} {s : List Char} {parts : List (Peg.Tree Rule)}
    (h : rules.run fuel (pattern .program) s = .matched parts []) :
    nodeOf .program s =
      .ok (.mk .program .start (Position.start.afterAll s) s (placeAll .start parts).1) := by
  have htext := textOf_run _ _ _ _ h
  rw [List.append_nil] at htext
  have hread := reads_of_run .start h
  rw [htext] at hread
  exact nodeOf_of_reads_program hread

theorem Program.parse_of_resemble {At : Position → Position → Prop} {m m' : Move}
    {source source' : String} {file : Option String} {p : Program}
    {start stop start' stop' : Position} {text text' : List Char}
    {children children' : List (Node Rule)}
    (hmeets : Meets At m m') (h : Program.parse source file = .ok p)
    (hnode : nodeOf .program source.toList = .ok (.mk .program start stop text children))
    (hnode' : nodeOf .program source'.toList = .ok (.mk .program start' stop' text' children'))
    (hresemble : AllResemble At children children') :
    ∃ q, Program.parse source' file = .ok q ∧ q.sourceFile = p.sourceFile ∧
      Statement.movedAll m' q.statements = Statement.movedAll m p.statements := by
  obtain ⟨nodes, last, rfl, -, -, hparse⟩ := exists_statements_of_nodeOf hnode
  obtain ⟨nodes', last', rfl, -, -, hparse'⟩ := exists_statements_of_nodeOf hnode'
  obtain ⟨front, back, heq, hfront, hback⟩ := hresemble.of_append
  obtain ⟨last'', _, rfl, -, hnil⟩ := hback.of_cons
  obtain rfl := hnil.of_nil
  obtain ⟨rfl, -⟩ := List.append_inj' heq rfl
  rw [hparse] at h
  simp only [bind_eq_ok, pure_eq_ok] at h
  obtain ⟨statements, hstatements, rfl⟩ := h
  obtain ⟨statements', hstatements', hmoved⟩ := readStatements_follows hfront
    (fun node _ => (readStatement_follows hmeets node).1) statements hstatements
  refine ⟨⟨statements', file, .between start' stop'⟩, ?_, rfl, hmoved⟩
  rw [hparse', hstatements']
  rfl

/-- A program with its layout replaced is matched by parts that are alike. -/
theorem exists_run_of_alike {fuel : Nat} {s : List Char} {parts parts' : List (Peg.Tree Rule)}
    (hrun : rules.run fuel (pattern .program) s = .matched parts []) (hnested : Nested parts [])
    (halike : Alike Relaid parts parts') :
    ∃ found, rules.run fuel (pattern .program) (textOf parts') = .matched found [] ∧
      Alike Relaid parts found := by
  have hreplace : ∀ text text', Relaid text text' →
      text' = text ∨ text' ≠ [] ∧ IsClosedLayout text' := by
    rintro text text' (heq | ⟨-, hclosed⟩)
    · exact .inl heq
    · exact .inr hclosed
  have hparallel : Parallel Relaid false 0 (textOf parts ++ []) (textOf parts' ++ []) :=
    hnested.parallel hreplace halike .nil
  have hagree : Agree Relaid (Parallel Relaid false 0)
      (rules.run fuel (pattern .program) (textOf parts ++ []))
      (rules.run fuel (pattern .program) (textOf parts' ++ [])) :=
    @agree_of_parallel Relaid false .program fuel (pattern .program) _ _ .before .before 0
      (isInertPattern_pattern (.inr rfl) (by decide)) (by decide) hparallel
  rw [textOf_run _ _ _ _ hrun, hrun, List.append_nil] at hagree
  generalize rules.run fuel (pattern .program) (textOf parts') = outcome at hagree ⊢
  cases hagree with
  | @matched _ found _ rest htrees hrest =>
    obtain rfl := hrest.eq_nil rfl
    exact ⟨found, rfl, htrees⟩

/-- Every run of layout that the match of a program skips can be replaced by any other blanks and
ended comments, and the program is the same up to spans. -/
theorem Program.parse_relaid {source : String} {file : Option String} {p : Program}
    {trees : List (Peg.Tree Rule)} {rest before run behind run' : List Char}
    (h : Program.parse source file = .ok p)
    (hmatch : rules.parse .program source.toList = .matched trees rest)
    (hskips : Skips trees before run behind) (hne : run' ≠ []) (hclosed : IsClosedLayout run') :
    source.toList = before ++ (run ++ behind) ∧
      ∃ q, Program.parse (String.ofList (before ++ (run' ++ behind))) file = .ok q ∧
        q.erase = p.erase := by
  obtain ⟨fuel, parts, rfl, hrun, hnested⟩ := exists_parts_of_parse hmatch
  have hsource : textOf parts ++ [] = source.toList := textOf_run _ _ _ _ hrun
  refine ⟨hsource.symm.trans hskips.textOf_eq, ?_⟩
  obtain ⟨trees', halike, htext⟩ := hskips.exists_alike hne hclosed
  cases halike with
  | @node _ _ parts' _ _ hparts hnil =>
    cases hnil
    obtain ⟨found, hfound, hresembling⟩ := exists_run_of_alike hrun hnested hparts
    have htext' : textOf parts' = before ++ (run' ++ behind) := (List.append_nil _).symm.trans htext
    rw [htext'] at hfound
    have hnodes :
        AllResemble (fun _ _ => True) (placeAll .start parts).1 (placeAll .start found).1 :=
      allResemble_of_alike carries_relaid hresembling hnested.leafed trivial
    have hnode := nodeOf_of_run hfound
    rw [← String.toList_ofList (l := before ++ (run' ++ behind))] at hnode
    obtain ⟨q, hq, hfile, hmoved⟩ :=
      Program.parse_of_resemble meets_erasing h (nodeOf_of_run hrun) hnode hnodes
    refine ⟨q, hq, ?_⟩
    rw [Statement.movedAll_erasing, Statement.movedAll_erasing] at hmoved
    rw [Program.erase, Program.erase, hfile, hmoved]

/-- A line break within an assignment becomes a comment with a semicolon in it. -/
theorem parse_relaid_line_break : ∃ p q, Program.parse "a=1\n-2" none = .ok p ∧
    Program.parse "a=1 # ;\r-2" none = .ok q ∧ q.erase = p.erase := by
  have hread : (Program.parse "a=1\n-2" none).isOk = true := by decide +kernel
  have hmatch : rules.parse .program "a=1\n-2".toList = .matched
      [.node .program [.node .assignment [.node .identifier [.leaf ['a']], .leaf ['='],
        .node .expression [.node .integer [.leaf ['1']], .gap ['\n'],
          .node .subtractOperator [.leaf ['-']], .node .integer [.leaf ['2']]]],
        .node .endOfInput []]] [] := rfl
  have hclosed : IsClosedLayout " # ;\r".toList :=
    .blank rfl (@IsClosedLayout.comment [' ', ';'] [] '\r' (by simp [isLineEnd]) rfl .nil)
  cases hparse : Program.parse "a=1\n-2" none with
  | error e => simp [hparse, Except.isOk, Except.toBool] at hread
  | ok p =>
    obtain ⟨-, q, hq, herase⟩ := Program.parse_relaid hparse hmatch
      (.inside (.inside (.later (.later (.inside (.later (.here (by decide)))))))) (by decide)
      hclosed
    exact ⟨p, q, rfl, hq, herase⟩

end BlockScript
