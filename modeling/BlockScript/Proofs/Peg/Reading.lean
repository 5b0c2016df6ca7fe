import BlockScript.Proofs.Peg.Derivation
import BlockScript.Peg.Node

/-!
# Reading without fuel

More fuel never changes an outcome, so a pattern either matches a text, fails on it, or exhausts
every amount of fuel.  `Reads` and `Fails` are the first two, with the nodes of a match in place of
its trees.  The equivalences for the operators of patterns and the induction over matches are all
that the grammar needs to know about them.
-/

namespace BlockScript.Peg

variable {ρ : Type}

/-! ## Placing matches -/

namespace Tree

mutual

theorem place_snd (p : Position) : ∀ tree : Tree ρ, (tree.place p).2 = p.afterAll tree.text
  | .leaf _ => rfl
  | .gap _ => rfl
  | .node _ parts => placeAll_snd p parts

theorem placeAll_snd (p : Position) :
    ∀ trees : List (Tree ρ), (placeAll p trees).2 = p.afterAll (textOf trees)
  | [] => rfl
  | tree :: trees => by
    simp only [placeAll, textOf, Position.afterAll_append]
    rw [place_snd p tree, placeAll_snd _ trees]

end

theorem placeAll_append (p : Position) (front back : List (Tree ρ)) :
    (placeAll p (front ++ back)).1 =
      (placeAll p front).1 ++ (placeAll (p.afterAll (textOf front)) back).1 := by
  induction front generalizing p with
  | nil => simp [placeAll, textOf]
  | cons tree front ih =>
    simp only [List.cons_append, placeAll, textOf, Position.afterAll_append]
    rw [ih, place_snd p tree, List.append_assoc]

@[simp] theorem placeAll_gapOf (p : Position) (text : List Char) :
    (placeAll p (gapOf text : List (Tree ρ))).1 = [] := by
  cases text <;> simp [gapOf, placeAll, place]

end Tree

mutual

theorem Node.induction {motive : Node ρ → Prop}
    (step : ∀ rule start stop text (children : List (Node ρ)), (∀ child ∈ children, motive child) →
      motive (.mk rule start stop text children)) : ∀ node, motive node
  | .mk _ _ _ _ children => step _ _ _ _ _ (Node.forall_induction step children)

theorem Node.forall_induction {motive : Node ρ → Prop}
    (step : ∀ rule start stop text (children : List (Node ρ)), (∀ child ∈ children, motive child) →
      motive (.mk rule start stop text children)) :
    ∀ nodes : List (Node ρ), ∀ node ∈ nodes, motive node
  | [] => by simp
  | node :: rest =>
    List.forall_mem_cons.2 ⟨Node.induction step node, Node.forall_induction step rest⟩

end

/-- A text is split in one way only into characters of a class and a rest that stops there. -/
theorem append_inj_of_stops {test : Char → Bool} {a b rest rest' : List Char}
    (ha : ∀ c ∈ a, test c = true) (hb : ∀ c ∈ b, test c = true) (hrest : Stops test rest)
    (hrest' : Stops test rest') (h : a ++ rest = b ++ rest') : a = b ∧ rest = rest' := by
  induction a generalizing b with
  | nil =>
    cases b with
    | nil => exact ⟨rfl, h⟩
    | cons d b =>
      have hd := hrest d _ h
      simp [hb d] at hd
  | cons c a ih =>
    cases b with
    | nil =>
      have hc := hrest' c _ h.symm
      simp [ha c] at hc
    | cons d b =>
      obtain ⟨rfl, htail⟩ := List.cons.inj h
      obtain ⟨rfl, hr⟩ := ih (fun x hx => ha x (List.mem_cons_of_mem _ hx))
        (fun x hx => hb x (List.mem_cons_of_mem _ hx)) htail
      exact ⟨rfl, hr⟩

namespace Grammar

variable (g : Grammar ρ) {p q : Pattern ρ} {pos : Position} {s w rest : List Char}
  {nodes : List (Node ρ)} {trees : List (Tree ρ)}

/-! ## Matches and failures -/

/-- The pattern takes `w` at the position `pos` where `rest` follows, and leaves these nodes. -/
def Reads (p : Pattern ρ) (pos : Position) (w rest : List Char) (nodes : List (Node ρ)) : Prop :=
  ∃ fuel trees, g.run fuel p (w ++ rest) = .matched trees rest ∧ (Tree.placeAll pos trees).1 = nodes

def Fails (p : Pattern ρ) (s : List Char) : Prop :=
  ∃ fuel, g.run fuel p s = .failed

variable {g}

theorem reads_iff_gives :
    g.Reads p pos w rest nodes ↔
      ∃ trees, g.Gives p (w ++ rest) (.matched trees rest) ∧
        (Tree.placeAll pos trees).1 = nodes := by
  constructor
  · rintro ⟨fuel, trees, hrun, hnodes⟩
    exact ⟨trees, gives_of_run hrun (by simp), hnodes⟩
  · rintro ⟨trees, hgives, hnodes⟩
    obtain ⟨enough, hrun⟩ := hgives.exists_fuel
    exact ⟨enough + 1, trees, by rw [hrun, if_neg (by omega)], hnodes⟩

theorem fails_iff_gives : g.Fails p s ↔ g.Gives p s .failed := by
  constructor
  · rintro ⟨fuel, hrun⟩
    exact gives_of_run hrun (by simp)
  · intro hgives
    obtain ⟨enough, hrun⟩ := hgives.exists_fuel
    exact ⟨enough + 1, by rw [hrun, if_neg (by omega)]⟩

theorem Gives.reads (h : g.Gives p s (.matched trees rest)) (pos : Position) :
    g.Reads p pos (Tree.textOf trees) rest (Tree.placeAll pos trees).1 :=
  reads_iff_gives.2 ⟨trees, by rwa [h.textOf], rfl⟩

theorem Reads.gives (h : g.Reads p pos w rest nodes) :
    ∃ s trees, s = w ++ rest ∧ g.Gives p s (.matched trees rest) ∧ Tree.textOf trees = w ∧
      (Tree.placeAll pos trees).1 = nodes := by
  obtain ⟨trees, hgives, hnodes⟩ := reads_iff_gives.1 h
  exact ⟨_, trees, rfl, hgives, List.append_cancel_right hgives.textOf, hnodes⟩

theorem reads_of_run {fuel : Nat} (pos : Position) (h : g.run fuel p s = .matched trees rest) :
    g.Reads p pos (Tree.textOf trees) rest (Tree.placeAll pos trees).1 :=
  (gives_of_run h (by simp)).reads pos

/-- A pattern takes one text only, whatever the position. -/
theorem Reads.unique {pos' : Position} {w' rest' : List Char} {nodes' : List (Node ρ)}
    (h : g.Reads p pos w rest nodes) (h' : g.Reads p pos' w' rest' nodes')
    (hs : w ++ rest = w' ++ rest') : w = w' ∧ rest = rest' ∧ (pos = pos' → nodes = nodes') := by
  obtain ⟨_, trees, rfl, hgives, rfl, rfl⟩ := h.gives
  obtain ⟨_, trees', rfl, hgives', rfl, rfl⟩ := h'.gives
  rw [hs] at hgives
  cases hgives.unique hgives'
  exact ⟨rfl, rfl, fun hpos => by rw [hpos]⟩

theorem Reads.not_fails (h : g.Reads p pos w rest nodes) : ¬ g.Fails p (w ++ rest) := by
  intro hfails
  obtain ⟨_, trees, rfl, hgives, -⟩ := h.gives
  cases hgives.unique (fails_iff_gives.1 hfails)

theorem Reads.at (h : g.Reads p pos w rest nodes) (pos' : Position) :
    ∃ nodes', g.Reads p pos' w rest nodes' := by
  obtain ⟨fuel, trees, hrun, -⟩ := h
  exact ⟨_, fuel, trees, hrun, rfl⟩

/-! ## The operators -/

@[simp] theorem reads_text {chars : List Char} :
    g.Reads (.text chars) pos w rest nodes ↔ w = chars ∧ nodes = [] := by
  constructor
  · intro h
    obtain ⟨_, trees, -, hgives, rfl, rfl⟩ := h.gives
    cases hgives
    exact ⟨List.append_nil chars, rfl⟩
  · rintro ⟨rfl, rfl⟩
    exact reads_iff_gives.2 ⟨_, .text, rfl⟩

@[simp] theorem fails_text {chars : List Char} : g.Fails (.text chars) s ↔ ¬ chars <+: s := by
  rw [fails_iff_gives]
  constructor
  · intro h
    cases h with
    | textFails hpre => exact hpre
  · exact .textFails

@[simp] theorem reads_char {test : Char → Bool} :
    g.Reads (.char test) pos w rest nodes ↔ ∃ c, test c = true ∧ w = [c] ∧ nodes = [] := by
  constructor
  · intro h
    obtain ⟨_, trees, -, hgives, rfl, rfl⟩ := h.gives
    cases hgives with
    | char hc => exact ⟨_, hc, rfl, rfl⟩
  · rintro ⟨c, hc, rfl, rfl⟩
    exact reads_iff_gives.2 ⟨_, .char hc, rfl⟩

@[simp] theorem fails_char {test : Char → Bool} : g.Fails (.char test) s ↔ Stops test s := by
  rw [fails_iff_gives]
  constructor
  · intro h
    cases h with
    | charFails hs => exact hs
  · exact .charFails

variable (g) in
/-- The text behind the layout that it begins with. -/
def skip (s : List Char) : List Char :=
  s.drop (g.layoutLength s)

@[simp] theorem reads_layout :
    g.Reads .layout pos w rest nodes ↔ g.skip (w ++ rest) = rest ∧ nodes = [] := by
  constructor
  · intro h
    obtain ⟨s, trees, hs, hgives, -, rfl⟩ := h.gives
    cases hgives
    exact ⟨by rw [← hs, skip], Tree.placeAll_gapOf ..⟩
  · rintro ⟨hrest, rfl⟩
    have hgives : g.Gives .layout (w ++ rest) (.matched _ (g.skip (w ++ rest))) := .layout
    rw [hrest] at hgives
    exact reads_iff_gives.2 ⟨_, hgives, Tree.placeAll_gapOf ..⟩

@[simp] theorem not_fails_layout : ¬ g.Fails .layout s := by
  rw [fails_iff_gives]
  rintro ⟨⟩

@[simp] theorem reads_finish :
    g.Reads .finish pos w rest nodes ↔ w = [] ∧ rest = [] ∧ nodes = [] := by
  constructor
  · intro h
    obtain ⟨_, trees, -, hgives, rfl, rfl⟩ := h.gives
    cases hgives
    exact ⟨rfl, rfl, rfl⟩
  · rintro ⟨rfl, rfl, rfl⟩
    exact reads_iff_gives.2 ⟨_, .finish, rfl⟩

theorem reads_seq :
    g.Reads (.seq p q) pos w rest nodes ↔
      ∃ front back before behind, w = front ++ back ∧ nodes = before ++ behind ∧
        g.Reads p pos front (back ++ rest) before ∧
        g.Reads q (pos.afterAll front) back rest behind := by
  constructor
  · intro h
    obtain ⟨_, trees, -, hgives, rfl, rfl⟩ := h.gives
    cases hgives with
    | seq hp hq =>
      obtain rfl := hq.textOf
      exact ⟨_, _, _, _, Tree.textOf_append .., Tree.placeAll_append .., hp.reads _, hq.reads _⟩
  · rintro ⟨front, back, before, behind, rfl, rfl, hp, hq⟩
    obtain ⟨_, trees, rfl, hfront, rfl, rfl⟩ := hp.gives
    obtain ⟨_, trees', rfl, hback, rfl, rfl⟩ := hq.gives
    rw [← List.append_assoc] at hfront
    exact reads_iff_gives.2 ⟨_, .seq hfront hback, Tree.placeAll_append ..⟩

theorem fails_seq :
    g.Fails (.seq p q) s ↔
      g.Fails p s ∨
        ∃ pos w rest nodes, s = w ++ rest ∧ g.Reads p pos w rest nodes ∧ g.Fails q rest := by
  rw [fails_iff_gives, fails_iff_gives]
  constructor
  · intro h
    cases h with
    | firstFails hp => exact .inl hp
    | secondFails hp hq =>
      exact .inr ⟨.start, _, _, _, hp.textOf.symm, hp.reads _, fails_iff_gives.2 hq⟩
  · rintro (hp | ⟨pos, w, rest, nodes, rfl, hp, hq⟩)
    · exact .firstFails hp
    · obtain ⟨_, trees, rfl, hp, -⟩ := hp.gives
      exact .secondFails hp (fails_iff_gives.1 hq)

theorem reads_alt :
    g.Reads (.alt p q) pos w rest nodes ↔
      g.Reads p pos w rest nodes ∨ g.Fails p (w ++ rest) ∧ g.Reads q pos w rest nodes := by
  simp only [reads_iff_gives, fails_iff_gives]
  constructor
  · rintro ⟨trees, hgives, hnodes⟩
    cases hgives with
    | first hp => exact .inl ⟨trees, hp, hnodes⟩
    | second hp hq => exact .inr ⟨hp, trees, hq, hnodes⟩
  · rintro (⟨trees, hp, hnodes⟩ | ⟨hp, trees, hq, hnodes⟩)
    · exact ⟨trees, .first hp, hnodes⟩
    · exact ⟨trees, .second hp hq, hnodes⟩

theorem fails_alt : g.Fails (.alt p q) s ↔ g.Fails p s ∧ g.Fails q s := by
  simp only [fails_iff_gives]
  constructor
  · intro h
    cases h with
    | second hp hq => exact ⟨hp, hq⟩
  · rintro ⟨hp, hq⟩
    exact .second hp hq

@[simp] theorem reads_opt :
    g.Reads (.opt p) pos w rest nodes ↔
      g.Reads p pos w rest nodes ∨ g.Fails p rest ∧ w = [] ∧ nodes = [] := by
  constructor
  · intro h
    obtain ⟨_, trees, -, hgives, rfl, rfl⟩ := h.gives
    cases hgives with
    | present hp => exact .inl (hp.reads pos)
    | missing hp => exact .inr ⟨fails_iff_gives.2 hp, rfl, rfl⟩
  · rintro (hp | ⟨hp, rfl, rfl⟩)
    · obtain ⟨trees, hp, hnodes⟩ := reads_iff_gives.1 hp
      exact reads_iff_gives.2 ⟨trees, .present hp, hnodes⟩
    · exact reads_iff_gives.2 ⟨[], .missing (fails_iff_gives.1 hp), rfl⟩

@[simp] theorem reads_absent :
    g.Reads (.absent p) pos w rest nodes ↔ w = [] ∧ nodes = [] ∧ g.Fails p rest := by
  constructor
  · intro h
    obtain ⟨_, trees, -, hgives, rfl, rfl⟩ := h.gives
    cases hgives with
    | absent hp => exact ⟨rfl, rfl, fails_iff_gives.2 hp⟩
  · rintro ⟨rfl, rfl, hp⟩
    exact reads_iff_gives.2 ⟨[], .absent (fails_iff_gives.1 hp), rfl⟩

theorem reads_star :
    g.Reads (.star p) pos w rest nodes ↔
      g.Fails p rest ∧ w = [] ∧ nodes = [] ∨
        ∃ front back before behind, w = front ++ back ∧ nodes = before ++ behind ∧
          g.Reads p pos front (back ++ rest) before ∧
          g.Reads (.star p) (pos.afterAll front) back rest behind := by
  constructor
  · intro h
    obtain ⟨_, trees, -, hgives, rfl, rfl⟩ := h.gives
    cases hgives with
    | stop hp => exact .inl ⟨fails_iff_gives.2 hp, rfl, rfl⟩
    | again hp hmore =>
      obtain rfl := hmore.textOf
      exact .inr ⟨_, _, _, _, Tree.textOf_append .., Tree.placeAll_append .., hp.reads _,
        hmore.reads _⟩
  · rintro (⟨hp, rfl, rfl⟩ | ⟨front, back, before, behind, rfl, rfl, hp, hmore⟩)
    · exact reads_iff_gives.2 ⟨[], .stop (fails_iff_gives.1 hp), rfl⟩
    · obtain ⟨_, trees, rfl, hfront, rfl, rfl⟩ := hp.gives
      obtain ⟨_, trees', rfl, hback, rfl, rfl⟩ := hmore.gives
      rw [← List.append_assoc] at hfront
      exact reads_iff_gives.2 ⟨_, .again hfront hback, Tree.placeAll_append ..⟩

@[simp] theorem not_fails_star : ¬ g.Fails (.star p) s := by
  rw [fails_iff_gives]
  rintro ⟨⟩

theorem placeAll_wrap (r : ρ) (pos : Position) (trees : List (Tree ρ)) :
    (Tree.placeAll pos (g.wrap r trees)).1 =
      if g.hidden r then (Tree.placeAll pos trees).1
      else [.mk r pos (pos.afterAll (Tree.textOf trees)) (Tree.textOf trees)
        (Tree.placeAll pos trees).1] := by
  unfold wrap
  split
  · rfl
  · simp [Tree.placeAll, Tree.place, Tree.placeAll_snd, Tree.textsBefore_eq]

theorem reads_rule {r : ρ} :
    g.Reads (.rule r) pos w rest nodes ↔
      ∃ children, g.Reads (g.pattern r) pos w rest children ∧
        nodes = if g.hidden r then children else [.mk r pos (pos.afterAll w) w children] := by
  constructor
  · intro h
    obtain ⟨_, trees, -, hgives, rfl, rfl⟩ := h.gives
    cases hgives with
    | rule hr =>
      rw [textOf_wrap]
      exact ⟨_, hr.reads pos, placeAll_wrap ..⟩
  · rintro ⟨children, hr, rfl⟩
    obtain ⟨_, trees, rfl, hbody, rfl, rfl⟩ := hr.gives
    exact reads_iff_gives.2 ⟨_, .rule hbody, placeAll_wrap ..⟩

theorem fails_rule {r : ρ} : g.Fails (.rule r) s ↔ g.Fails (g.pattern r) s := by
  simp only [fails_iff_gives]
  constructor
  · intro h
    cases h with
    | ruleFails hr => exact hr
  · exact .ruleFails

/-! ## Induction over matches -/

/-- A match is put together from the matches of the parts of its pattern. -/
theorem Reads.induction
    {motive : ∀ p pos w rest nodes, g.Reads p pos w rest nodes → Prop}
    (text : ∀ chars pos rest, motive (.text chars) pos chars rest [] (reads_text.2 ⟨rfl, rfl⟩))
    (char : ∀ test c pos rest (hc : test c = true),
      motive (.char test) pos [c] rest [] (reads_char.2 ⟨c, hc, rfl, rfl⟩))
    (layout : ∀ pos w rest (hskip : g.skip (w ++ rest) = rest),
      motive .layout pos w rest [] (reads_layout.2 ⟨hskip, rfl⟩))
    (finish : ∀ pos, motive .finish pos [] [] [] (reads_finish.2 ⟨rfl, rfl, rfl⟩))
    (seq : ∀ p q pos front back rest before behind
      (hp : g.Reads p pos front (back ++ rest) before)
      (hq : g.Reads q (pos.afterAll front) back rest behind),
      motive _ _ _ _ _ hp → motive _ _ _ _ _ hq →
        motive (.seq p q) pos (front ++ back) rest (before ++ behind)
          (reads_seq.2 ⟨_, _, _, _, rfl, rfl, hp, hq⟩))
    (first : ∀ p q pos w rest nodes (hp : g.Reads p pos w rest nodes), motive _ _ _ _ _ hp →
      motive (.alt p q) pos w rest nodes (reads_alt.2 (.inl hp)))
    (second : ∀ p q pos w rest nodes (hp : g.Fails p (w ++ rest)) (hq : g.Reads q pos w rest nodes),
      motive _ _ _ _ _ hq → motive (.alt p q) pos w rest nodes (reads_alt.2 (.inr ⟨hp, hq⟩)))
    (stop : ∀ p pos rest (hp : g.Fails p rest),
      motive (.star p) pos [] rest [] (reads_star.2 (.inl ⟨hp, rfl, rfl⟩)))
    (again : ∀ p pos front back rest before behind
      (hp : g.Reads p pos front (back ++ rest) before)
      (hmore : g.Reads (.star p) (pos.afterAll front) back rest behind),
      motive _ _ _ _ _ hp → motive _ _ _ _ _ hmore →
        motive (.star p) pos (front ++ back) rest (before ++ behind)
          (reads_star.2 (.inr ⟨_, _, _, _, rfl, rfl, hp, hmore⟩)))
    (present : ∀ p pos w rest nodes (hp : g.Reads p pos w rest nodes), motive _ _ _ _ _ hp →
      motive (.opt p) pos w rest nodes (reads_opt.2 (.inl hp)))
    (missing : ∀ p pos rest (hp : g.Fails p rest),
      motive (.opt p) pos [] rest [] (reads_opt.2 (.inr ⟨hp, rfl, rfl⟩)))
    (absent : ∀ p pos rest (hp : g.Fails p rest),
      motive (.absent p) pos [] rest [] (reads_absent.2 ⟨rfl, rfl, hp⟩))
    (rule : ∀ r pos w rest children (hr : g.Reads (g.pattern r) pos w rest children),
      motive _ _ _ _ _ hr →
        motive (.rule r) pos w rest
          (if g.hidden r then children else [.mk r pos (pos.afterAll w) w children])
          (reads_rule.2 ⟨children, hr, rfl⟩))
    {p : Pattern ρ} {pos : Position} {w rest : List Char} {nodes : List (Node ρ)}
    (h : g.Reads p pos w rest nodes) : motive p pos w rest nodes h := by
  obtain ⟨_, trees, -, hgives, hw, hnodes⟩ := h.gives
  induction hgives using Gives.match_induction generalizing pos w nodes with
  | text =>
    obtain ⟨rfl, rfl⟩ := reads_text.1 h
    exact text _ _ _
  | char =>
    obtain ⟨c, hc, rfl, rfl⟩ := reads_char.1 h
    exact char _ _ _ _ hc
  | layout =>
    obtain ⟨hskip, rfl⟩ := reads_layout.1 h
    exact layout _ _ _ hskip
  | finish =>
    obtain ⟨rfl, -, rfl⟩ := reads_finish.1 h
    exact finish _
  | seq p q _ _ rest front back hp hq ihFront ihBack =>
    rw [Tree.textOf_append] at hw
    rw [Tree.placeAll_append] at hnodes
    subst hw hnodes
    obtain rfl := hq.textOf
    exact seq _ _ _ _ _ _ _ _ (hp.reads _) (hq.reads _) (ihFront _ rfl rfl) (ihBack _ rfl rfl)
  | first p q _ rest trees hp ih =>
    subst hw hnodes
    exact first _ _ _ _ _ _ (hp.reads pos) (ih _ rfl rfl)
  | second p q _ rest trees hp hq ih =>
    subst hw hnodes
    rw [← hq.textOf] at hp
    exact second _ _ _ _ _ _ (fails_iff_gives.2 hp) (hq.reads pos) (ih _ rfl rfl)
  | stop p rest hp =>
    subst hw hnodes
    exact stop _ _ _ (fails_iff_gives.2 hp)
  | again p _ _ rest front back hp hmore ihFront ihBack =>
    rw [Tree.textOf_append] at hw
    rw [Tree.placeAll_append] at hnodes
    subst hw hnodes
    obtain rfl := hmore.textOf
    exact again _ _ _ _ _ _ _ (hp.reads _) (hmore.reads _) (ihFront _ rfl rfl) (ihBack _ rfl rfl)
  | present p _ rest trees hp ih =>
    subst hw hnodes
    exact present _ _ _ _ _ (hp.reads pos) (ih _ rfl rfl)
  | missing p rest hp =>
    subst hw hnodes
    exact missing _ _ _ (fails_iff_gives.2 hp)
  | absent p rest hp =>
    subst hw hnodes
    exact absent _ _ _ (fails_iff_gives.2 hp)
  | rule r _ rest trees hr ih =>
    rw [textOf_wrap] at hw
    rw [placeAll_wrap] at hnodes
    subst hw hnodes
    exact rule _ _ _ _ _ (hr.reads pos) (ih _ rfl rfl)

/-- What holds where a repetition ends, and before a round if it holds after it, holds at the
start. -/
theorem Reads.star_induction {motive : Position → List Char → List (Node ρ) → Prop}
    (h : g.Reads (.star p) pos w rest nodes) (stop : g.Fails p rest → ∀ pos, motive pos [] [])
    (step : ∀ pos front back before behind, g.Reads p pos front (back ++ rest) before →
      g.Reads (.star p) (pos.afterAll front) back rest behind →
      motive (pos.afterAll front) back behind → motive pos (front ++ back) (before ++ behind)) :
    motive pos w nodes := by
  generalize hstar : Pattern.star p = q at h
  induction h using Reads.induction with
  | stop p' pos rest hp =>
    cases hstar
    exact stop hp pos
  | again p' pos front back rest before behind hp hmore _ ih =>
    cases hstar
    exact step pos front back before behind hp hmore (ih stop step rfl)
  | _ => cases hstar

theorem Reads.star_fails (h : g.Reads (.star p) pos w rest nodes) : g.Fails p rest :=
  h.star_induction (motive := fun _ _ _ => g.Fails p rest) (fun hfails _ => hfails)
    (fun _ _ _ _ _ _ _ hfails => hfails)

/-! ## Derived patterns -/

theorem reads_many :
    g.Reads (.many p) pos w rest nodes ↔
      g.Fails p rest ∧ w = [] ∧ nodes = [] ∨
        ∃ front back before behind, w = front ++ back ∧ nodes = before ++ behind ∧
          g.Reads p pos front (back ++ rest) before ∧
          g.Reads (.star (.seq .layout p)) (pos.afterAll front) back rest behind := by
  rw [Pattern.many, reads_opt, reads_seq, fails_seq]
  simp only [not_fails_star, and_false, exists_false, or_false]
  exact Or.comm

/-- What holds of the nodes of one repetition holds of all. -/
theorem Reads.forall_many {P : Node ρ → Prop}
    (hp : ∀ pos w rest nodes, g.Reads p pos w rest nodes → ∀ node ∈ nodes, P node)
    (h : g.Reads (.many p) pos w rest nodes) : ∀ node ∈ nodes, P node := by
  rcases reads_many.1 h with ⟨-, -, rfl⟩ | ⟨front, back, before, behind, rfl, rfl, hread, hmore⟩
  · simp
  · have hbehind : ∀ node ∈ behind, P node := by
      apply hmore.star_induction (motive := fun _ _ nodes => ∀ node ∈ nodes, P node)
      · simp
      · intro pos front back before behind hread _ ih
        obtain ⟨_, _, _, _, -, rfl, hlayout, hread⟩ := reads_seq.1 hread
        rw [(reads_layout.1 hlayout).2, List.nil_append]
        exact List.forall_mem_append.2 ⟨hp _ _ _ _ hread, ih⟩
    exact List.forall_mem_append.2 ⟨hp _ _ _ _ hread, hbehind⟩

/-- A rule whose matches hold no nodes leaves one without children. -/
theorem reads_leaf {r : ρ} {P : Prop} (hr : g.hidden r = false)
    (h : ∀ children, g.Reads (g.pattern r) pos w rest children ↔ P ∧ children = []) :
    g.Reads (.rule r) pos w rest nodes ↔ P ∧ nodes = [.mk r pos (pos.afterAll w) w []] := by
  rw [reads_rule]
  simp only [hr, Bool.false_eq_true, if_false]
  constructor
  · rintro ⟨children, hread, rfl⟩
    obtain ⟨hP, rfl⟩ := (h children).1 hread
    exact ⟨hP, rfl⟩
  · rintro ⟨hP, rfl⟩
    exact ⟨[], (h []).2 ⟨hP, rfl⟩, rfl⟩

theorem Reads.node {r : ρ} (h : g.Reads (.rule r) pos w rest nodes) (hr : g.hidden r = false) :
    ∃ children, g.Reads (g.pattern r) pos w rest children ∧
      nodes = [.mk r pos (pos.afterAll w) w children] := by
  simpa [hr] using reads_rule.1 h

theorem Reads.of_anyOf {patterns : List (Pattern ρ)}
    (h : g.Reads (.anyOf patterns) pos w rest nodes) :
    ∃ p ∈ patterns, g.Reads p pos w rest nodes := by
  induction patterns with
  | nil =>
    obtain ⟨-, -, hfails⟩ := reads_absent.1 h
    simp at hfails
  | cons p patterns ih =>
    cases patterns with
    | nil => exact ⟨p, by simp, h⟩
    | cons q patterns =>
      rcases reads_alt.1 h with hread | ⟨-, hread⟩
      · exact ⟨p, by simp, hread⟩
      · obtain ⟨p', hmem, hread⟩ := ih hread
        exact ⟨p', List.mem_cons_of_mem _ hmem, hread⟩

theorem reads_star_char {test : Char → Bool} :
    g.Reads (.star (.char test)) pos w rest nodes ↔
      (∀ c ∈ w, test c = true) ∧ Stops test rest ∧ nodes = [] := by
  induction w generalizing pos nodes with
  | nil =>
    rw [reads_star]
    constructor
    · rintro (⟨hfails, -, rfl⟩ | ⟨front, back, before, behind, hw, -, hread, -⟩)
      · exact ⟨by simp, fails_char.1 hfails, rfl⟩
      · obtain ⟨c, -, rfl, -⟩ := reads_char.1 hread
        cases hw
    · rintro ⟨-, hrest, rfl⟩
      exact .inl ⟨fails_char.2 hrest, rfl, rfl⟩
  | cons c w ih =>
    rw [reads_star]
    constructor
    · rintro (⟨-, hw, -⟩ | ⟨front, back, before, behind, hw, rfl, hread, hmore⟩)
      · cases hw
      · obtain ⟨d, hd, rfl, rfl⟩ := reads_char.1 hread
        obtain ⟨rfl, rfl⟩ := List.cons.inj hw
        obtain ⟨hall, hrest, rfl⟩ := ih.1 hmore
        exact ⟨List.forall_mem_cons.2 ⟨hd, hall⟩, hrest, rfl⟩
    · rintro ⟨hall, hrest, rfl⟩
      obtain ⟨hc, hall⟩ := List.forall_mem_cons.1 hall
      exact .inr ⟨[c], w, [], [], rfl, rfl, reads_char.2 ⟨c, hc, rfl, rfl⟩, ih.2 ⟨hall, hrest, rfl⟩⟩

theorem reads_oneOrMore_char {test : Char → Bool} :
    g.Reads (.oneOrMore (.char test)) pos w rest nodes ↔
      w ≠ [] ∧ (∀ c ∈ w, test c = true) ∧ Stops test rest ∧ nodes = [] := by
  rw [Pattern.oneOrMore, reads_seq]
  constructor
  · rintro ⟨front, back, before, behind, rfl, rfl, hread, hmore⟩
    obtain ⟨c, hc, rfl, rfl⟩ := reads_char.1 hread
    obtain ⟨hall, hrest, rfl⟩ := reads_star_char.1 hmore
    exact ⟨by simp, List.forall_mem_cons.2 ⟨hc, hall⟩, hrest, rfl⟩
  · rintro ⟨hw, hall, hrest, rfl⟩
    cases w with
    | nil => exact absurd rfl hw
    | cons c w =>
      obtain ⟨hc, hall⟩ := List.forall_mem_cons.1 hall
      exact ⟨[c], w, [], [], rfl, rfl, reads_char.2 ⟨c, hc, rfl, rfl⟩,
        reads_star_char.2 ⟨hall, hrest, rfl⟩⟩

/-! ## Nodes of a match -/

variable (g) in
/-- The node comes from a match of its rule. -/
def Produced : Node ρ → Prop
  | .mk rule start _ text children => ∃ rest, g.Reads (g.pattern rule) start text rest children

theorem Reads.produced (h : g.Reads p pos w rest nodes) : ∀ node ∈ nodes, g.Produced node := by
  induction h using Reads.induction with
  | text | char | layout | finish | stop | missing | absent => simp
  | seq _ _ _ _ _ _ _ _ _ _ ihFront ihBack | again _ _ _ _ _ _ _ _ _ ihFront ihBack =>
    exact List.forall_mem_append.2 ⟨ihFront, ihBack⟩
  | first _ _ _ _ _ _ _ ih | second _ _ _ _ _ _ _ _ ih | present _ _ _ _ _ _ ih => exact ih
  | rule r pos w rest children hread ih =>
    split
    · exact ih
    · simpa using ⟨rest, hread⟩

theorem Produced.child {rule : ρ} {start stop : Position} {text : List Char}
    {children : List (Node ρ)} (h : g.Produced (.mk rule start stop text children)) :
    ∀ child ∈ children, g.Produced child := by
  obtain ⟨rest, hread⟩ := h
  exact hread.produced

end Grammar

end BlockScript.Peg
