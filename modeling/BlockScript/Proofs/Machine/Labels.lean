import BlockScript.Proofs.Machine.Faults
import BlockScript.Proofs.Tree.Nesting
import BlockScript.Run

/-!
# Labels of faults lie in the source

A run never leaves the tree of the statement it was started with, so a fault points at the span of
a part of that statement.  The spans of a program that was read from a text are sound, and so the
label of every fault lies in the text of the statement that failed.
-/

namespace BlockScript

open Grammar (Interleaved IsLayout)

variable {σ : Type}

/-! ## Parts that a run comes to -/

open SpanTree (Holds)

theorem Expr.Starts.holds {e part : Expr} {env later : Environment}
    (h : Expr.Starts e env part later) : e.spans.Holds part.spans := by
  cases h with
  | group | operand | left | right _ | value =>
    exact .part (by simp [spans, SpanTree.parts]) (.refl _)

theorem Expr.Reaches.holds {e part : Expr} {env later : Environment}
    (h : Expr.Reaches e env part later) : e.spans.Holds part.spans := by
  induction h with
  | refl e env => exact .refl _
  | next hstarts _ ih => exact hstarts.holds.trans ih

theorem Expr.holds_ownName {e : Expr} {id : Identifier} (h : e.ownName? = some id) :
    ∃ tree, e.spans.Holds tree ∧ tree.span = id.span := by
  cases e with
  | name found =>
    cases h
    exact ⟨_, .refl _, rfl⟩
  | step direction fixity target span =>
    cases h
    exact ⟨.mk id.span false [], .part (by simp [spans, SpanTree.parts]) (.refl _), rfl⟩
  | update op target value span =>
    cases h
    exact ⟨.mk id.span false [], .part (by simp [spans, SpanTree.parts]) (.refl _), rfl⟩
  | _ => cases h

/-- A fault of an expression points at one of its parts. -/
theorem Expr.Raises.holds {e : Expr} {env : Environment} {fault : Fault} {region : Region}
    (h : e.Raises env fault) (hregion : region ∈ fault.place?) :
    ∃ tree, e.spans.Holds tree ∧ region = tree.span.region := by
  cases h with
  | unbound hreaches hname _ =>
    cases hregion
    obtain ⟨tree, htree, hspan⟩ := holds_ownName hname
    exact ⟨tree, hreaches.holds.trans htree, by rw [hspan]⟩
  | operation hreaches _ _ _ =>
    cases hregion
    exact ⟨_, hreaches.holds, by rw [Expr.span_spans]⟩

/-- The trees of all that an activity works on. -/
def Activity.spans : Activity → List SpanTree
  | .statement s => [s.spans]
  | .statements all => Statement.spansAll all
  | .block body => [body.spans]
  | .arms branches => branches.spans
  | .loop test body update => test.spans :: body.spans :: (update.map Expr.spans).toList
  | .condition test => [test.spans]
  | .expression e => [e.spans]

/-- One of the trees holds the tree. -/
def HeldBy (trees : List SpanTree) (found : SpanTree) : Prop :=
  ∃ tree ∈ trees, tree.Holds found

theorem HeldBy.trans {trees parts : List SpanTree} {found : SpanTree}
    (hparts : ∀ part ∈ parts, HeldBy trees part) (h : HeldBy parts found) :
    HeldBy trees found := by
  obtain ⟨part, hpart, hfound⟩ := h
  obtain ⟨tree, htree, hholds⟩ := hparts part hpart
  exact ⟨tree, htree, hholds.trans hfound⟩

theorem heldBy_of_mem {trees : List SpanTree} {tree : SpanTree} (h : tree ∈ trees) :
    HeldBy trees tree :=
  ⟨tree, h, .refl tree⟩

theorem heldBy_part {trees : List SpanTree} {tree part : SpanTree} (htree : tree ∈ trees)
    (hpart : part ∈ tree.parts) : HeldBy trees part :=
  ⟨tree, htree, .part hpart (.refl part)⟩

namespace Activity

theorem Starts.heldBy [Writer σ] {activity part : Activity} {m later : Machine σ}
    (h : Starts activity m part later) : ∀ tree ∈ part.spans, HeldBy activity.spans tree := by
  intro tree htree
  cases h with
  | assign | print | expression =>
    obtain rfl := List.mem_singleton.1 htree
    exact heldBy_part (List.mem_singleton.2 rfl)
      (by simp [Statement.spans, Assignment.spans, SpanTree.parts])
  | @initializer a =>
    obtain rfl := List.mem_singleton.1 htree
    have hassignment : a.spans.Holds a.value.spans :=
      .part (by simp [Assignment.spans, SpanTree.parts]) (.refl _)
    exact ⟨_, List.mem_singleton.2 rfl,
      .part (by simp [Statement.spans, SpanTree.parts]) hassignment⟩
  | conditional | whileLoop =>
    exact heldBy_part (List.mem_singleton.2 rfl)
      (by simpa [spans, Statement.spans, SpanTree.parts] using htree)
  | forLoop _ =>
    refine heldBy_part (List.mem_singleton.2 rfl) ?_
    simp only [spans, Option.map_some, Option.toList_some, List.mem_cons, List.not_mem_nil,
      or_false] at htree
    rcases htree with rfl | rfl | rfl <;> simp [Statement.spans, SpanTree.parts]
  | body =>
    exact heldBy_part (List.mem_singleton.2 rfl)
      (by simpa [spans, Block.spans, SpanTree.parts] using htree)
  | @armTest test body span rest | @arm test body span rest =>
    obtain rfl := List.mem_singleton.1 htree
    have harm : .mk span false [test.spans, body.spans] ∈
        (Arms.arm test body span rest).spans := by
      rw [Arms.spans]
      exact List.mem_cons_self
    exact heldBy_part harm (by simp [SpanTree.parts])
  | first | rest _ =>
    exact heldBy_of_mem (by simp_all [spans, Statement.spansAll])
  | nextArm _ | otherwise =>
    exact heldBy_of_mem (by simp_all [spans, Arms.spans])
  | block => exact heldBy_of_mem (by simp_all [spans, Statement.spans])
  | loopTest | loopBody _ | loopUpdate _ _ | again _ _ | test =>
    exact heldBy_of_mem (by simp_all [spans])

theorem Reaches.heldBy [Writer σ] {activity part : Activity} {m later : Machine σ}
    (h : Reaches activity m part later) : ∀ tree ∈ part.spans, HeldBy activity.spans tree := by
  induction h with
  | refl activity m => exact fun _ => heldBy_of_mem
  | next hstarts _ ih => exact fun tree htree => .trans hstarts.heldBy (ih tree htree)

/-- A fault points at a part of what the machine was busy with, if it has a place. -/
theorem Raises.heldBy [Writer σ] {activity : Activity} {m : Machine σ} {fault : Fault}
    {region : Region} (h : activity.Raises m fault) (hregion : region ∈ fault.place?) :
    ∃ tree, HeldBy activity.spans tree ∧ region = tree.span.region := by
  cases h with
  | @expression e site _ hreaches hraises =>
    obtain ⟨tree, htree, hspan⟩ := hraises.holds hregion
    exact ⟨tree, .trans hreaches.heldBy ⟨e.spans, by simp [spans], htree⟩, hspan⟩
  | @condition test site value later hreaches _ _ =>
    cases hregion
    exact ⟨test.spans, hreaches.heldBy _ (by simp [spans]), by rw [Expr.span_spans]⟩
  | output _ _ _ => cases hregion

end Activity

/-! ## Labels -/

/-- The bytes of the region are bytes of the span. -/
def Region.Within (region : Region) (span : Span) : Prop :=
  span.start ≤ region.offset ∧ region.offset + region.length ≤ span.stop

theorem Region.Within.mono {region : Region} {inner outer : Span} (h : region.Within inner)
    (hstart : outer.start ≤ inner.start) (hstop : inner.stop ≤ outer.stop) :
    region.Within outer :=
  ⟨Nat.le_trans hstart h.1, Nat.le_trans h.2 hstop⟩

theorem Statement.label_within [Writer σ] {s : Statement} {text : List Char} {fuel : Nat}
    {m later : Machine σ} {fault : Fault} (hsound : s.spans.Sound text)
    (hrun : s.exec fuel m = .error (.fault fault) later) :
    ∀ label ∈ fault.diagnostic.labels, label.region.Within s.span := by
  intro label hlabel
  have hregion : label.region ∈ fault.place? := by
    cases fault with
    | operation cause place =>
      simp only [Fault.diagnostic, List.mem_map, Option.mem_toList] at hlabel
      obtain ⟨region, hregion, rfl⟩ := hlabel
      exact hregion
    | output message => cases hlabel
  have hraises := Statement.explains_exec fuel s m fault later hrun
  obtain ⟨tree, ⟨root, hroot, htree⟩, hspan⟩ := hraises.heldBy hregion
  obtain rfl := List.mem_singleton.1 hroot
  have hle := (hsound tree htree).start_le_stop
  have hwithin : label.region.Within tree.span := by
    rw [hspan]
    refine ⟨Nat.le_refl _, ?_⟩
    simp only [Span.region, Span.length]
    omega
  rw [← Statement.span_spans]
  exact hwithin.mono (hsound.within htree).1 (hsound.within htree).2

/-- A list of statements fails in one of them, when all statements before it have been run. -/
theorem Statement.exists_of_execAll_error [Writer σ] {fuel : Nat} {statements : List Statement}
    {m later : Machine σ} {halt : Halt}
    (h : Statement.execAll fuel statements m = .error halt later) :
    ∃ front s back mid, statements = front ++ s :: back ∧
      Statement.execAll fuel front m = .ok () mid ∧ s.exec fuel mid = .error halt later := by
  induction statements generalizing m with
  | nil => cases h
  | cons statement rest ih =>
    rw [Statement.execAll] at h
    rcases bind_eq_error.1 h with h | ⟨⟨⟩, mid, hfirst, h⟩
    · exact ⟨[], statement, rest, m, rfl, rfl, Execution.discard_error h⟩
    · obtain ⟨front, s, back, last, rfl, hfront, hfails⟩ := ih h
      refine ⟨statement :: front, s, back, last, rfl, ?_, hfails⟩
      rw [Statement.execAll, bind_of_ok hfirst]
      exact hfront

/-- The spans of a program that was read from a text.  The program covers the whole text; every part
of its tree lies at character boundaries of the text, holds its own parts one behind the other, and
has nothing but separators outside of its statements if it is a block; and so has the program
itself.  A run of the program that fails does so in one of its statements, and all labels lie in the
text of that statement. -/
theorem Program.parse_spans_nest (source : String) (file : Option String) (p : Program)
    (h : Program.parse source file = .ok p) :
    p.span.start = 0 ∧ p.span.stop = byteLength source.toList ∧
      (∀ tree, p.spans.Holds tree → tree.Placed source.toList) ∧
      Interleaved IsLayout 0 (p.statements.map Statement.span) source.toList ∧
      ∀ (σ : Type) [Writer σ] (fuel : Nat) (m later : Machine σ) (fault : Fault),
        p.run fuel m = .error (.fault fault) later →
          ∃ front s back mid, p.statements = front ++ s :: back ∧
            Statement.execAll fuel front m = .ok () mid ∧
            s.exec fuel mid = .error (.fault fault) later ∧
            ∀ label ∈ fault.diagnostic.labels,
              label.region.Within s.span ∧ label.region.Within p.span := by
  obtain ⟨hstart, hstop, hsound, hinterleaved⟩ := Program.sound_of_parse h
  refine ⟨hstart, hstop, hsound, hinterleaved, ?_⟩
  intro σ _ fuel m later fault hrun
  obtain ⟨front, s, back, mid, hstatements, hfront, hfails⟩ :=
    Statement.exists_of_execAll_error hrun
  refine ⟨front, s, back, mid, hstatements, hfront, hfails, fun label hlabel => ?_⟩
  have hpart : s.spans ∈ p.spans.parts := by
    rw [Program.spans, SpanTree.parts, Statement.spansAll_eq_map, hstatements]
    exact List.mem_map_of_mem (by simp)
  have hwithin := Statement.label_within
    (fun tree htree => hsound tree (.part hpart htree)) hfails label hlabel
  obtain ⟨houter, houter'⟩ := hsound.placed.inside _ hpart
  rw [Statement.span_spans] at houter houter'
  exact ⟨hwithin, hwithin.mono houter houter'⟩

theorem exists_failing_run (fuel : Nat) (source : String) (fault : Fault)
    (h : (match runSource fuel source with
      | .error (.fault raised) => some raised
      | _ => none) = some fault) :
    ∃ p later, Program.parse source none = .ok p ∧
      p.run fuel (Machine.new Buffer.unbounded) = .error (.fault fault) later := by
  unfold runSource at h
  cases hparse : Program.parse source none with
  | error e =>
    rw [hparse] at h
    cases h
  | ok p =>
    rw [hparse] at h
    refine ⟨p, ?_⟩
    cases hrun : p.run fuel (Machine.new Buffer.unbounded) with
    | ok value later =>
      simp only [hrun] at h
      cases h
    | error halt later =>
      simp only [hrun] at h
      cases halt with
      | exhausted => cases h
      | fault raised =>
        cases h
        exact ⟨later, rfl, rfl⟩

/-- The second statement fails in a division by zero, behind a comment and inside a block. -/
theorem parse_spans_nest_division :
    ∃ p front s back, Program.parse "x = 1; # one\n\x7b -x / 0; \x7d y" none = .ok p ∧
      p.span.stop = 26 ∧ p.statements = front ++ s :: back ∧
      Region.Within ⟨15, 6⟩ s.span ∧
      ∀ tree, p.spans.Holds tree → tree.Placed "x = 1; # one\n\x7b -x / 0; \x7d y".toList := by
  obtain ⟨p, later, hparse, hrun⟩ := exists_failing_run 2 "x = 1; # one\n\x7b -x / 0; \x7d y"
    (.operation .divisionByZero (some ⟨15, 6⟩)) (by decide +kernel)
  obtain ⟨-, hstop, hplaced, -, hlabels⟩ := Program.parse_spans_nest _ none p hparse
  obtain ⟨front, s, back, mid, hstatements, -, -, hwithin⟩ := hlabels Buffer 2 _ later _ hrun
  refine ⟨p, front, s, back, hparse, hstop.trans (by decide), hstatements, ?_, hplaced⟩
  exact (hwithin ⟨"division by zero here", ⟨15, 6⟩⟩ (by decide)).1

end BlockScript
