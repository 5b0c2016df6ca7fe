import BlockScript.Proofs.Peg.Reading

/-!
# Where the nodes of a match lie

The nodes of a match lie in the text that was matched, one behind the other, and so do the children
of every node in the text of their node.
-/

namespace BlockScript

/-- The offset is at an end of the text or between two of its characters. -/
def IsBoundary (text : List Char) (offset : Nat) : Prop :=
  ∃ front back, text = front ++ back ∧ offset = byteLength front

theorem IsBoundary.le {text : List Char} {offset : Nat} (h : IsBoundary text offset) :
    offset ≤ byteLength text := by
  obtain ⟨front, back, rfl, rfl⟩ := h
  rw [byteLength_append]
  exact Nat.le_add_right _ _

theorem byteLength_pos {text : List Char} (h : text ≠ []) : 0 < byteLength text := by
  cases text with
  | nil => exact absurd rfl h
  | cons c text =>
    rw [byteLength]
    exact Nat.add_pos_left c.utf8Size_pos _

theorem exists_byteLength_eq (n : Nat) : ∃ text, byteLength text = n := by
  induction n with
  | zero => exact ⟨[], rfl⟩
  | succ n ih =>
    obtain ⟨text, rfl⟩ := ih
    exact ⟨'a' :: text, Nat.add_comm ..⟩

namespace Peg

variable {ρ : Type}

namespace Node

/-- The nodes lie one behind the other between two offsets. -/
def Follow : Nat → List (Node ρ) → Nat → Prop
  | first, [], last => first ≤ last
  | first, node :: rest, last => first ≤ node.start.offset ∧ Follow node.stop.offset rest last

/-- The node covers its own text, and its children lie one behind the other in it. -/
inductive Nests (text : List Char) : Node ρ → Prop
  | mk {rule : ρ} {start stop : Position} {w before behind : List Char} {children : List (Node ρ)}
      (htext : text = before ++ (w ++ behind)) (hstart : start.offset = byteLength before)
      (hstop : stop.offset = start.offset + byteLength w)
      (hfollow : Follow start.offset children stop.offset)
      (hchildren : ∀ child ∈ children, child.Nests text) :
      Nests text (.mk rule start stop w children)

theorem Nests.isBoundary_start {text : List Char} {node : Node ρ} (h : node.Nests text) :
    IsBoundary text node.start.offset := by
  cases h with
  | mk htext hstart _ _ _ => exact ⟨_, _, htext, hstart⟩

theorem Nests.isBoundary_stop {text : List Char} {node : Node ρ} (h : node.Nests text) :
    IsBoundary text node.stop.offset := by
  cases h with
  | @mk _ start stop w before behind _ htext hstart hstop _ _ =>
    refine ⟨before ++ w, behind, by simpa using htext, ?_⟩
    rw [byteLength_append, ← hstart, ← hstop]
    rfl

theorem Nests.start_le_stop {text : List Char} {node : Node ρ} (h : node.Nests text) :
    node.start.offset ≤ node.stop.offset := by
  cases h with
  | mk _ _ hstop _ _ => exact Nat.le.intro hstop.symm

theorem Nests.start_lt_stop {text : List Char} {node : Node ρ} (h : node.Nests text)
    (htext : node.text ≠ []) : node.start.offset < node.stop.offset := by
  cases h with
  | mk _ _ hstop =>
    have hpos := byteLength_pos htext
    simp only [Node.start, Node.stop, Node.text] at hpos ⊢
    omega

theorem Follow.le {text : List Char} {first last : Nat} {nodes : List (Node ρ)}
    (h : Follow first nodes last) (hnodes : ∀ node ∈ nodes, node.Nests text) : first ≤ last := by
  induction nodes generalizing first with
  | nil => exact h
  | cons node nodes ih =>
    obtain ⟨hnode, hrest⟩ := List.forall_mem_cons.1 hnodes
    exact Nat.le_trans h.1 (Nat.le_trans hnode.start_le_stop (ih h.2 hrest))

theorem Follow.mono {first first' last : Nat} {nodes : List (Node ρ)}
    (h : Follow first nodes last) (hle : first' ≤ first) : Follow first' nodes last := by
  cases nodes with
  | nil => exact Nat.le_trans hle h
  | cons node nodes => exact ⟨Nat.le_trans hle h.1, h.2⟩

theorem Follow.append {a b c : Nat} {front back : List (Node ρ)} (hfront : Follow a front b)
    (hback : Follow b back c) : Follow a (front ++ back) c := by
  induction front generalizing a with
  | nil => exact hback.mono hfront
  | cons node front ih => exact ⟨hfront.1, ih hfront.2⟩

theorem Follow.of_append {text : List Char} {first last : Nat} {front back : List (Node ρ)}
    (h : Follow first (front ++ back) last) (hback : ∀ node ∈ back, node.Nests text) :
    Follow first front last := by
  induction front generalizing first with
  | nil => exact Follow.le h hback
  | cons node front ih => exact ⟨h.1, ih h.2⟩

theorem Follow.behind {text : List Char} {first last : Nat} {front back : List (Node ρ)}
    (h : Follow first (front ++ back) last) (hfront : ∀ node ∈ front, node.Nests text) :
    Follow first back last := by
  induction front generalizing first with
  | nil => exact h
  | cons node front ih =>
    obtain ⟨hnode, hrest⟩ := List.forall_mem_cons.1 hfront
    exact (ih h.2 hrest).mono (Nat.le_trans h.1 hnode.start_le_stop)

theorem Follow.start_le {text : List Char} {first last : Nat} {nodes : List (Node ρ)}
    (h : Follow first nodes last) (hnodes : ∀ node ∈ nodes, node.Nests text) :
    ∀ node ∈ nodes, first ≤ node.start.offset := by
  intro node hnode
  obtain ⟨front, back, rfl⟩ := List.append_of_mem hnode
  exact (h.behind fun child hchild => hnodes child (List.mem_append_left _ hchild)).1

end Node

open Node

theorem Grammar.Reads.nests {g : Grammar ρ} {p : Pattern ρ} {pos : Position} {w rest : List Char}
    {nodes : List (Node ρ)} (h : g.Reads p pos w rest nodes) (before : List Char)
    (hpos : pos.offset = byteLength before) :
    Follow pos.offset nodes (pos.offset + byteLength w) ∧
      ∀ node ∈ nodes, node.Nests (before ++ (w ++ rest)) := by
  induction h using Reads.induction generalizing before with
  | text | char | layout | finish | stop | missing | absent =>
    exact ⟨Nat.le_add_right _ _, by simp⟩
  | seq _ _ pos front back rest _ _ _ _ ihFront ihBack
  | again _ pos front back rest _ _ _ _ ihFront ihBack =>
    obtain ⟨hfront, hnestsFront⟩ := ihFront before hpos
    have hmid : (pos.afterAll front).offset = byteLength (before ++ front) := by
      rw [Position.offset_afterAll, byteLength_append, hpos]
    obtain ⟨hback, hnestsBack⟩ := ihBack (before ++ front) hmid
    rw [Position.offset_afterAll] at hback
    simp only [List.append_assoc] at hnestsFront hnestsBack ⊢
    rw [byteLength_append, ← Nat.add_assoc]
    exact ⟨hfront.append hback, List.forall_mem_append.2 ⟨hnestsFront, hnestsBack⟩⟩
  | first _ _ _ _ _ _ _ ih | second _ _ _ _ _ _ _ _ ih | present _ _ _ _ _ _ ih =>
    exact ih before hpos
  | rule r pos w rest children _ ih =>
    obtain ⟨hfollow, hnests⟩ := ih before hpos
    split
    · exact ⟨hfollow, hnests⟩
    · have hstop : (pos.afterAll w).offset = pos.offset + byteLength w := pos.offset_afterAll w
      refine ⟨⟨Nat.le_refl _, Nat.le_of_eq hstop⟩, ?_⟩
      rw [← hstop] at hfollow
      rintro node hnode
      obtain rfl := List.mem_singleton.1 hnode
      exact .mk rfl hpos hstop hfollow hnests

/-- The nodes lie in some text, wherever the match starts. -/
theorem Grammar.Reads.exists_nests {g : Grammar ρ} {p : Pattern ρ} {pos : Position}
    {w rest : List Char} {nodes : List (Node ρ)} (h : g.Reads p pos w rest nodes) :
    ∃ text, Follow pos.offset nodes (pos.offset + byteLength w) ∧
      ∀ node ∈ nodes, node.Nests text := by
  obtain ⟨before, hbefore⟩ := exists_byteLength_eq pos.offset
  exact ⟨_, h.nests before hbefore.symm⟩

end Peg

end BlockScript
