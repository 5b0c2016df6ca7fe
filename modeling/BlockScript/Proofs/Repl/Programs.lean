import BlockScript.Proofs.Machine.Termination
import BlockScript.Proofs.Repl.Session
import BlockScript.Proofs.Tree.RoundTrip

/-!
# Inputs that are programs

An input is looked at before it is read: a blank one and one that begins with a comment sign do
nothing, and a slash makes it a command.  No program begins with a slash, and a program that is
blank has no statements.  So apart from a comment in front, where the whole input is dropped, a
program has in a session the effect of its run on the machine of the session.
-/

namespace BlockScript

open Grammar Reader
open Peg (Node)
open Peg.Grammar

namespace Grammar

/-! ## How a program begins -/

/-- The blanks that are no layout. -/
def foreignBlanks : List Nat :=
  [0xB, 0xC, 0x85, 0xA0, 0x1680, 0x2000, 0x2001, 0x2002, 0x2003, 0x2004, 0x2005, 0x2006, 0x2007,
    0x2008, 0x2009, 0x200A, 0x2028, 0x2029, 0x202F, 0x205F, 0x3000]

theorem mem_foreignBlanks {c : Char} (hwhite : isWhiteSpace c = true) (hblank : isBlank c = false) :
    c.toNat ∈ foreignBlanks := by
  have hcode : ∀ d : Char, c ≠ d → c.toNat ≠ d.toNat := by
    intro d hne heq
    exact hne (Char.toNat_inj.1 heq)
  simp only [isBlank, Bool.or_eq_false_iff, decide_eq_false_iff_not] at hblank
  obtain ⟨⟨⟨hspace, htab⟩, hreturn⟩, hfeed⟩ := hblank
  have hspace := hcode ' ' hspace
  have htab := hcode '\t' htab
  have hreturn := hcode '\r' hreturn
  have hfeed := hcode '\n' hfeed
  simp only [isWhiteSpace, Bool.or_eq_true, decide_eq_true_eq, beq_iff_eq] at hwhite
  simp only [Char.reduceToNat, ne_eq] at hspace htab hreturn hfeed
  simp only [foreignBlanks, List.mem_cons, List.not_mem_nil, or_false]
  omega

theorem fails_statement_of_foreign {c : Char} (hwhite : isWhiteSpace c = true)
    (hblank : isBlank c = false) (s : List Char) : rules.Fails statement (c :: s) := by
  have hmem := mem_foreignBlanks hwhite hblank
  rw [← Char.ofNat_toNat c]
  generalize c.toNat = n at hmem
  simp only [foreignBlanks, List.mem_cons, List.not_mem_nil, or_false] at hmem
  rcases hmem with rfl | rfl | rfl | rfl | rfl | rfl | rfl | rfl | rfl | rfl | rfl | rfl | rfl |
    rfl | rfl | rfl | rfl | rfl | rfl | rfl | rfl
  all_goals exact ⟨60, rfl⟩

/-- Blanks of either kind in front of a text are skipped, up to the first one that is no layout. -/
theorem skip_whiteSpace {front : List Char} (h : ∀ c ∈ front, isWhiteSpace c = true)
    (tail : List Char) :
    rules.skip (front ++ tail) = rules.skip tail ∨
      rules.Fails statement (rules.skip (front ++ tail)) ∧ rules.skip (front ++ tail) ≠ [] := by
  induction front with
  | nil => exact .inl rfl
  | cons c front ih =>
    obtain ⟨hc, hfront⟩ := List.forall_mem_cons.1 h
    by_cases hblank : isBlank c = true
    · rw [List.cons_append, skip_cons_of_blank hblank]
      exact ih hfront
    · have hblank := Bool.eq_false_iff.2 hblank
      have hcomment : c ≠ '#' := by
        intro heq
        subst heq
        simp [isWhiteSpace] at hc
      rw [List.cons_append, skip_cons_of_solid hblank hcomment]
      exact .inr ⟨fails_statement_of_foreign hc hblank _, List.cons_ne_nil _ _⟩

/-- Behind its first layout a program begins with a statement, or it has none. -/
theorem begins_of_program {text : List Char} {statements : List (Node Rule)} {final : Node Rule}
    (h : rules.Reads (pattern .program) .start text [] (statements ++ [final])) :
    rules.skip text = [] ∧ statements = [] ∨ ¬rules.Fails statement (rules.skip text) := by
  obtain ⟨gap, _, _, _, rfl, hnodes, hgap, hphrase⟩ := reads_seq.1 h
  obtain ⟨hskip, rfl⟩ := reads_layout.1 hgap
  obtain ⟨front, _, nodes, _, rfl, rfl, hmany, hrest⟩ := reads_seq.1 hphrase
  obtain ⟨last, _, _, _, rfl, rfl, hlast, hend⟩ := reads_seq.1 hrest
  obtain ⟨hskipLast, rfl⟩ := reads_layout.1 hlast
  obtain ⟨children, hfinish, rfl⟩ := hend.node rfl
  obtain ⟨rfl, -, rfl⟩ := reads_finish.1 hfinish
  simp only [List.nil_append] at hnodes
  obtain ⟨rfl, -⟩ := List.append_inj' hnodes rfl
  simp only [List.append_nil] at hskip hskipLast hmany ⊢
  rw [hskip]
  rcases reads_many.1 hmany with ⟨-, rfl, rfl⟩ | ⟨front, back, before, behind, rfl, rfl, hread, -⟩
  · rw [List.nil_append] at hskip ⊢
    have htwice := skip_skip (gap ++ last)
    rw [hskip, hskipLast] at htwice
    exact .inl ⟨htwice.symm, rfl⟩
  · rw [List.append_assoc]
    exact .inr hread.not_fails

end Grammar

/-- The file of a text does not change how it is read. -/
theorem Program.parse_file {source : String} {file : Option String} {p : Program}
    (h : Program.parse source file = .ok p) (other : Option String) :
    Program.parse source other = .ok { p with sourceFile := other } := by
  unfold Program.parse at h ⊢
  obtain ⟨⟨rule, start, stop, text, children⟩, hnode, hread⟩ := bind_eq_ok.1 h
  simp only [bind_eq_ok, pure_eq_ok] at hread
  obtain ⟨statements, hstatements, rfl⟩ := hread
  simp only [hnode, bind, Except.bind, hstatements]
  rfl

theorem dropWhile_of_trimmed_nil {text : List Char} (h : trimmed text = []) :
    text.dropWhile isWhiteSpace = [] := by
  have hall := List.any_dropWhile (l := (text.dropWhile isWhiteSpace).reverse) (p := isWhiteSpace)
  rw [List.reverse_eq_nil_iff.1 h, List.any_nil, List.all_reverse] at hall
  have hhead := List.head?_dropWhile_not isWhiteSpace text
  cases htail : text.dropWhile isWhiteSpace with
  | nil => rfl
  | cons c tail =>
    rw [htail] at hall hhead
    have hc : isWhiteSpace c = false := by simpa using hhead
    simp [hc] at hall

theorem dropWhile_of_trimmed_cons {text rest : List Char} {c : Char}
    (h : trimmed text = c :: rest) : ∃ tail, text.dropWhile isWhiteSpace = c :: tail := by
  obtain ⟨behind, hbehind⟩ := trimmed_prefix text
  rw [h, List.cons_append] at hbehind
  exact ⟨_, hbehind.symm⟩

/-- A program that is blank has no statements, and none begins with a slash. -/
theorem Program.statements_of_trimmed {source : String} {file : Option String} {p : Program}
    (h : Program.parse source file = .ok p) :
    (trimmed source.toList = [] → p.statements = []) ∧
      ∀ rest, trimmed source.toList ≠ '/' :: rest := by
  obtain ⟨nodes, last, hread, hstatements, -⟩ := Program.reads_of_parse h
  have hbegins := begins_of_program hread
  have hsplit : source.toList.takeWhile isWhiteSpace ++ source.toList.dropWhile isWhiteSpace =
      source.toList := List.takeWhile_append_dropWhile
  have hwhite : ∀ c ∈ source.toList.takeWhile isWhiteSpace, isWhiteSpace c = true :=
    List.all_eq_true.1 List.all_takeWhile
  have hskip : rules.skip source.toList = rules.skip (source.toList.dropWhile isWhiteSpace) := by
    rcases skip_whiteSpace hwhite (source.toList.dropWhile isWhiteSpace) with hskip | ⟨hfails, hne⟩
    · rwa [hsplit] at hskip
    · rw [hsplit] at hfails hne
      rcases hbegins with ⟨hnil, -⟩ | hstarts
      · exact absurd hnil hne
      · exact absurd hfails hstarts
  rw [hskip] at hbegins
  constructor
  · intro hnil
    rw [dropWhile_of_trimmed_nil hnil, skip_nil] at hbegins
    have hfails : rules.Fails statement [] := ⟨60, rfl⟩
    rcases hbegins with ⟨-, rfl⟩ | hstarts
    · exact (Except.ok.inj hstatements).symm
    · exact absurd hfails hstarts
  · intro rest hslash
    obtain ⟨tail, htail⟩ := dropWhile_of_trimmed_cons hslash
    rw [htail, skip_cons_of_solid rfl (by decide)] at hbegins
    have hfails : rules.Fails statement ('/' :: tail) := ⟨60, rfl⟩
    rcases hbegins with ⟨hnil, -⟩ | hstarts
    · cases hnil
    · exact hstarts hfails

namespace Repl

variable {σ : Type}

/-! ## Programs in a session -/

/-- An input ends like a run: on the same machine, and with the same fault if there is one. -/
inductive Mirrors : Ending σ Unit → EStateM.Result Failure (Session σ) Reply → Prop
  | ok {m : Machine σ} {later : Session σ} {reply : Reply} (hmachine : later.machine = m) :
      Mirrors (.ok () m) (.ok reply later)
  | error {m : Machine σ} {later : Session σ} {halt : Halt} (hmachine : later.machine = m) :
      Mirrors (.error halt m) (.error (.ofHalt halt) later)

theorem Mirrors.machine_eq [Writer σ] {r : Ending σ Unit} {fuel : Nat} {input : String}
    {s : Session σ} (h : Mirrors r (evaluate fuel input s)) :
    r.machine = (s.next fuel input).machine := by
  generalize hend : evaluate fuel input s = r' at h
  cases h with
  | ok hmachine => rw [Session.next, finalState_of_ok hend, hmachine, Ending.machine]
  | error hmachine => rw [Session.next, finalState_of_error hend, hmachine, Ending.machine]

/-- Whether an input is taken for a comment. -/
def startsComment (input : String) : Bool :=
  (trimmed input.toList).head? = some '#'

theorem runInput_mirrors [Writer σ] {input : String} {file : Option String} {program : Program}
    (h : Program.parse input file = .ok program) (fuel : Nat) (s : Session σ) :
    Mirrors (program.run fuel s.machine) (runInput fuel input s) := by
  unfold runInput
  rw [Program.parse_file h, Program.run]
  rcases replies_end fuel program.statements s.machine with
    ⟨reply, later, hreplies, hrun⟩ | ⟨halt, later, hreplies, hrun⟩
  · rw [hrun]
    simp only [hreplies]
    exact .ok rfl
  · rw [hrun]
    simp only [hreplies]
    exact .error rfl

/-- A text that is read as a program does nothing in a session if it begins with a comment.  Any
other one has the effect of the run of that program on the machine of the session: its bindings
and what blocks declared, its output and its count of statements are those after the run, and it
fails exactly if the run does, for the same reason. -/
theorem evaluate_mirrors_run [Writer σ] {input : String} {file : Option String}
    {program : Program} (h : Program.parse input file = .ok program) (fuel : Nat)
    (s : Session σ) :
    if startsComment input then evaluate fuel input s = .ok .nothing s
    else Mirrors (program.run fuel s.machine) (evaluate fuel input s) := by
  obtain ⟨hblank, hslash⟩ := Program.statements_of_trimmed h
  cases htext : trimmed input.toList with
  | nil =>
    have hidle : evaluate fuel input s = .ok .nothing s := by
      simp only [evaluate, htext]
      rfl
    rw [if_neg (by simp [startsComment, htext]), hidle, Program.run, hblank htext,
      Statement.execAll]
    exact .ok rfl
  | cons c rest =>
    by_cases hcomment : c = '#'
    · subst hcomment
      rw [if_pos (by simp [startsComment, htext])]
      simp only [evaluate, htext]
      rfl
    · have hcommand : c ≠ '/' := by
        intro heq
        exact hslash rest (by rw [htext, heq])
      have hprogram : evaluate fuel input s = runInput fuel input s := by
        simp [evaluate, htext, hcommand, hcomment]
      rw [if_neg (by simpa [startsComment, htext] using hcomment), hprogram]
      exact runInput_mirrors h fuel s

/-- The second program divides by zero after the first statement has been run. -/
theorem evaluate_mirrors_run_fault : ∃ program,
    Program.parse "x = 1 # one
y = x / 0" none = .ok program ∧
      Mirrors (program.run 1 (Session.new Buffer.unbounded .standard).machine)
        (evaluate 1 "x = 1 # one
y = x / 0" (Session.new Buffer.unbounded .standard)) := by
  have hread : (Program.parse "x = 1 # one
y = x / 0" none).isOk = true := by decide +kernel
  cases hparse : Program.parse "x = 1 # one
y = x / 0" none with
  | error e => simp [hparse, Except.isOk, Except.toBool] at hread
  | ok program =>
    have heffect := evaluate_mirrors_run hparse 1 (Session.new Buffer.unbounded .standard)
    rw [if_neg (by decide +kernel)] at heffect
    exact ⟨program, rfl, heffect⟩

/-- The statement behind a comment is part of the program, but it is not run. -/
theorem evaluate_drops_behind_comment : ∃ program,
    Program.parse "# c\nx = 2" none = .ok program ∧
      ¬Mirrors (program.run 1 (Session.new Buffer.unbounded .standard).machine)
        (evaluate 1 "# c\nx = 2" (Session.new Buffer.unbounded .standard)) := by
  have hrun : (Program.parse "# c\nx = 2" none).toOption.map (fun program =>
      (Ending.machine (program.run 1 (Session.new Buffer.unbounded .standard).machine)).executed) =
        some 1 := by
    decide +kernel
  cases hparse : Program.parse "# c\nx = 2" none with
  | error e => simp [hparse, Except.toOption] at hrun
  | ok program =>
    refine ⟨program, rfl, ?_⟩
    intro hmirrors
    simp only [hparse, Except.toOption, Option.map_some, hmirrors.machine_eq] at hrun
    cases hrun

end Repl

end BlockScript
