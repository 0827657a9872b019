import SequentCalculus.Proofs.Pieces
import SequentCalculus.Proofs.Roundtrip

/-! # Outlines — the tree that an outline shows

    An outline is a list of lines, each at its column (`ProofTree.linesAt`).  Two
    steps lead back from its text to the tree.  The text falls apart into lines
    where a line ends, and the lines fall apart into subtrees where they return to
    a column, since whatever is below a line stands further in.

    Both steps rest on one fact: lists in each of which only the first element has
    a certain property can be told apart when they stand in a row
    (`flatten_inj_of_ledBy`). -/

namespace SequentCalculus

/-! ## Blocks in a row -/

section Blocks

variable {α : Type} {p : α → Bool}

/-- The first element of the list has the property, and no other has it. -/
def LedBy (p : α → Bool) (block : List α) : Prop :=
  ∃ a rest, block = a :: rest ∧ p a = true ∧ ∀ b ∈ rest, p b = false

/-- Where the property first appears, a list can be cut in one way only. -/
theorem append_inj_of_head {xs ys us vs : List α} (hxs : ∀ a ∈ xs, p a = false)
    (hys : ∀ a ∈ ys, p a = false) (hus : ∀ a ∈ us.head?, p a = true)
    (hvs : ∀ a ∈ vs.head?, p a = true) (h : xs ++ us = ys ++ vs) : xs = ys ∧ us = vs := by
  have hcut : ∀ {xs us : List α}, (∀ a ∈ xs, p a = false) → (∀ a ∈ us.head?, p a = true) →
      (xs ++ us).takeWhile (fun a => !p a) = xs := by
    intro xs us hxs hus
    rw [List.takeWhile_append_of_pos fun a ha => by rw [hxs a ha]; rfl]
    cases us with
    | nil => rw [List.takeWhile_nil, List.append_nil]
    | cons a us => rw [List.takeWhile_cons, hus a rfl, Bool.not_true, if_neg nofun, List.append_nil]
  obtain rfl : xs = ys := by rw [← hcut hxs hus, h, hcut hys hvs]
  exact ⟨rfl, List.append_cancel_left h⟩

/-- Blocks in a row begin with the property. -/
theorem head?_flatten_of_ledBy {bs : List (List α)} (h : ∀ b ∈ bs, LedBy p b) :
    ∀ a ∈ bs.flatten.head?, p a = true := by
  cases bs with
  | nil => exact fun a ha => nomatch ha
  | cons b bs =>
      obtain ⟨a, rest, rfl, ha, -⟩ := h b List.mem_cons_self
      intro c hc
      rwa [← Option.some.inj hc]

/-- Blocks in a row can be told apart. -/
theorem flatten_inj_of_ledBy {bs cs : List (List α)} (hbs : ∀ b ∈ bs, LedBy p b)
    (hcs : ∀ c ∈ cs, LedBy p c) (h : bs.flatten = cs.flatten) : bs = cs := by
  induction bs generalizing cs with
  | nil =>
      cases cs with
      | nil => rfl
      | cons c cs =>
          obtain ⟨a, rest, rfl, -, -⟩ := hcs c List.mem_cons_self
          cases h
  | cons b bs ih =>
      obtain ⟨⟨a, rest, rfl, -, hrest⟩, hbs'⟩ := List.forall_mem_cons.mp hbs
      cases cs with
      | nil => cases h
      | cons c cs =>
          obtain ⟨⟨a', rest', rfl, -, hrest'⟩, hcs'⟩ := List.forall_mem_cons.mp hcs
          obtain ⟨rfl, htail⟩ := List.cons.inj h
          obtain ⟨rfl, hflatten⟩ := append_inj_of_head hrest hrest'
            (head?_flatten_of_ledBy hbs') (head?_flatten_of_ledBy hcs') htail
          rw [ih hbs' hcs' hflatten]

theorem map_inj_of_mem {β : Type} {f : α → β} {xs ys : List α}
    (hf : ∀ a ∈ xs, ∀ b ∈ ys, f a = f b → a = b) (h : xs.map f = ys.map f) : xs = ys := by
  induction xs generalizing ys with
  | nil => rw [List.map_eq_nil_iff.mp h.symm]
  | cons a xs ih =>
      cases ys with
      | nil => cases h
      | cons b ys =>
          obtain ⟨hhead, htail⟩ := List.cons.inj h
          rw [hf a List.mem_cons_self b List.mem_cons_self hhead,
            ih (fun a ha b hb => hf a (List.mem_cons_of_mem _ ha) b (List.mem_cons_of_mem _ hb))
              htail]

end Blocks

/-! ## Lines -/

/-- A line of an outline. -/
structure Line where
  column : Nat
  text : String

namespace Line

/-- The characters of a line, with the line end before it. -/
def chars (l : Line) : List Char := '\n' :: (List.replicate l.column ' ' ++ l.text.toList)

/-- The text is a single line that begins at its column. -/
structure Legible (l : Line) : Prop where
  unbroken : '\n' ∉ l.text.toList
  head : ∀ c ∈ l.text.toList.head?, c ≠ ' '

/-- The line end is at the front of a line and nowhere else. -/
theorem ledBy_chars {l : Line} (h : l.Legible) : LedBy (· == '\n') l.chars := by
  refine ⟨'\n', _, rfl, rfl, ?_⟩
  intro c hc
  rw [beq_eq_false_iff_ne]
  rcases List.mem_append.mp hc with hc | hc
  · rw [List.eq_of_mem_replicate hc]
    decide
  · exact fun hend => h.unbroken (hend ▸ hc)

/-- The characters of a line determine its column and its text. -/
theorem chars_inj {l k : Line} (hl : l.Legible) (hk : k.Legible) (h : l.chars = k.chars) :
    l = k := by
  have hblank : ∀ n, ∀ c ∈ List.replicate n ' ', (c != ' ') = false := by
    intro n c hc
    rw [List.eq_of_mem_replicate hc]
    rfl
  obtain ⟨hcolumn, htext⟩ := append_inj_of_head (hblank l.column) (hblank k.column)
    (fun c hc => bne_iff_ne.mpr (hl.head c hc)) (fun c hc => bne_iff_ne.mpr (hk.head c hc))
    (List.cons.inj h).2
  have hcolumn : l.column = k.column := by
    rw [← List.length_replicate (a := ' ') (n := l.column), hcolumn, List.length_replicate]
  obtain ⟨column, text⟩ := l
  obtain rfl : column = k.column := hcolumn
  obtain rfl : text = k.text := String.toList_inj.mp htext
  rfl

/-- The text of an outline determines its lines. -/
theorem flatMap_chars_inj {ls ks : List Line} (hls : ∀ l ∈ ls, l.Legible)
    (hks : ∀ k ∈ ks, k.Legible) (h : ls.flatMap chars = ks.flatMap chars) : ls = ks := by
  have hblocks : ∀ {ls : List Line}, (∀ l ∈ ls, l.Legible) →
      ∀ b ∈ ls.map chars, LedBy (· == '\n') b := by
    intro ls hls b hb
    obtain ⟨l, hl, rfl⟩ := List.mem_map.mp hb
    exact ledBy_chars (hls l hl)
  rw [List.flatMap_def, List.flatMap_def] at h
  exact map_inj_of_mem (fun l hl k hk => chars_inj (hls l hl) (hks k hk))
    (flatten_inj_of_ledBy (hblocks hls) (hblocks hks) h)

end Line

/-! ## The lines of a tree -/

/-- The lines of the children of a branch, from those of each child. -/
def childLines (column : Nat) (b : Branch (Nat → List Line)) : List Line :=
  b.children.flatMap fun lines => lines column

/-- The branches of a node with several of them, each with its label and what is
    below it. -/
def labelledBlocks (column total : Nat) : Nat → List (Branch (Nat → List Line)) → List (List Line)
  | _, [] => []
  | i, b :: bs =>
      (⟨column, "alt " ++ toString i ++ "/" ++ toString total⟩ :: childLines (column + 2) b) ::
        labelledBlocks column total (i + 1) bs

/-- The lines of the branches of a node. -/
def linesBelow (column : Nat) : List (Branch (Nat → List Line)) → List Line
  | [] => []
  | [b] => childLines column b
  | b :: c :: bs => (labelledBlocks column (bs.length + 2) 1 (b :: c :: bs)).flatten

/-- The lines of a node, from those of its children. -/
def nodeLines (root : Sequent) (branches : List (Branch (Nat → List Line))) (_grown : Bool)
    (column : Nat) : List Line :=
  ⟨column, root.tag.text ++ "  " ++ root.display⟩ :: linesBelow (column + 2) branches

theorem toList_nodeLine (s : Sequent) :
    (nodeLine s).plain.toList = s.tag.text.toList ++ ' ' :: ' ' :: s.display.toList := by
  rw [nodeLine, Styled.toList_plain_append, Styled.toList_plain_append, Styled.toList_plain_only,
    Styled.toList_plain_cons, List.append_assoc]
  rfl

/-- The line of a node is its tag and its sequent. -/
theorem plain_nodeLine (s : Sequent) :
    (nodeLine s).plain = s.tag.text ++ "  " ++ s.display := by
  rw [← String.toList_inj, toList_nodeLine, String.toList_append, String.toList_append,
    List.append_assoc]
  rfl

/-- A block is the label of a branch and the lines below it. -/
theorem mem_labelledBlocks {column total i : Nat} {bs : List (Branch (Nat → List Line))}
    {block : List Line} (h : block ∈ labelledBlocks column total i bs) :
    ∃ j, ∃ b ∈ bs, block = ⟨column, branchLabel j total⟩ :: childLines (column + 2) b := by
  induction bs generalizing i with
  | nil => cases h
  | cons b bs ih =>
      rcases List.mem_cons.mp h with rfl | h
      · exact ⟨i, b, List.mem_cons_self, rfl⟩
      · obtain ⟨j, b', hb', hblock⟩ := ih h
        exact ⟨j, b', List.mem_cons_of_mem _ hb', hblock⟩

/-- A line below a node is a label or a line of a child. -/
theorem mem_linesBelow {column : Nat} {bs : List (Branch (Nat → List Line))} {l : Line}
    (h : l ∈ linesBelow column bs) :
    (∃ i total, l = ⟨column, branchLabel i total⟩) ∨
      ∃ b ∈ bs, ∃ lines ∈ b.children, ∃ k, column ≤ k ∧ l ∈ lines k := by
  fun_cases linesBelow column bs with
  | case1 => cases h
  | case2 b =>
      obtain ⟨lines, hlines, hl⟩ := List.mem_flatMap.mp h
      exact Or.inr ⟨b, List.mem_cons_self, lines, hlines, column, Nat.le_refl _, hl⟩
  | case3 =>
      obtain ⟨block, hblock, hl⟩ := List.mem_flatten.mp h
      obtain ⟨j, b, hb, rfl⟩ := mem_labelledBlocks hblock
      rcases List.mem_cons.mp hl with rfl | hl
      · exact Or.inl ⟨j, _, rfl⟩
      · obtain ⟨lines, hlines, hl⟩ := List.mem_flatMap.mp hl
        exact Or.inr ⟨b, hb, lines, hlines, column + 2, Nat.le_add_right _ _, hl⟩

namespace ProofTree

/-- The lines of a tree whose root stands at a given column. -/
def linesAt : ProofTree → Nat → List Line := fold nodeLines

/-- The first line of a tree is that of its root. -/
theorem linesAt_node (root : Sequent) (branches : List (Branch ProofTree)) (grown : Bool)
    (column : Nat) :
    (node root branches grown).linesAt column =
      ⟨column, (nodeLine root).plain⟩ ::
        linesBelow (column + 2) (branches.map (Branch.map linesAt)) := by
  rw [plain_nodeLine]
  exact congrFun (fold_node nodeLines root branches grown) column

theorem linesBelow_several (column : Nat) (b c : Branch ProofTree) (bs : List (Branch ProofTree)) :
    linesBelow column ((b :: c :: bs).map (Branch.map linesAt)) =
      (labelledBlocks column (bs.length + 2) 1
        ((b :: c :: bs).map (Branch.map linesAt))).flatten := by
  rw [List.map_cons, List.map_cons, linesBelow, List.length_map]

/-- The lines below a node are labels and the lines of its children, further in. -/
theorem mem_linesBelow_map {column : Nat} {branches : List (Branch ProofTree)} {l : Line}
    (h : l ∈ linesBelow column (branches.map (Branch.map linesAt))) :
    (∃ i total, l = ⟨column, branchLabel i total⟩) ∨
      ∃ b ∈ branches, ∃ c ∈ b.children, ∃ k, column ≤ k ∧ l ∈ c.linesAt k := by
  refine (mem_linesBelow h).imp_right ?_
  rintro ⟨b, hb, lines, hlines, k, hk, hl⟩
  obtain ⟨b, hb, c, hc, rfl⟩ := Branch.exists_of_mem_map hb hlines
  exact ⟨b, hb, c, hc, k, hk, hl⟩

/-- A line of a tree shows a branch or a node. -/
theorem mem_linesAt {t : ProofTree} {column : Nat} {l : Line} (h : l ∈ t.linesAt column) :
    column ≤ l.column ∧ ((∃ i total, l.text = branchLabel i total) ∨
      ∃ u, t.HasNode u ∧ l.text = (nodeLine u.root).plain) := by
  induction t using ProofTree.induction generalizing column with
  | node root branches grown ih =>
      rw [linesAt_node] at h
      rcases List.mem_cons.mp h with rfl | h
      · exact ⟨Nat.le_refl _, Or.inr ⟨_, .root _, rfl⟩⟩
      · rcases mem_linesBelow_map h with ⟨i, total, rfl⟩ | ⟨b, hb, c, hc, k, hk, hl⟩
        · exact ⟨Nat.le_add_right _ _, Or.inl ⟨i, total, rfl⟩⟩
        · obtain ⟨hcolumn, htext⟩ := ih b hb c hc hl
          refine ⟨by omega, htext.imp_right ?_⟩
          rintro ⟨u, hu, htext⟩
          exact ⟨u, .child hb hc hu, htext⟩

/-- Everything but the root stands further in. -/
theorem ledBy_linesAt (t : ProofTree) (column : Nat) :
    LedBy (fun l => decide (l.column ≤ column)) (t.linesAt column) := by
  obtain ⟨root, branches, grown⟩ := t
  refine ⟨_, _, linesAt_node root branches grown column, decide_eq_true (Nat.le_refl _), ?_⟩
  intro l hl
  have hcolumn : column + 2 ≤ l.column := by
    rcases mem_linesBelow_map hl with ⟨i, total, rfl⟩ | ⟨b, -, c, -, k, hk, hl⟩
    · exact Nat.le_refl _
    · exact Nat.le_trans hk (mem_linesAt hl).1
  exact decide_eq_false (by omega)

end ProofTree

/-! ## From the text to the lines -/

theorem Line.chars_eq (l : Line) : l.chars = (lineBreak l.column).text.toList ++ l.text.toList := by
  rw [toList_lineBreak]
  rfl

/-- The lines are those of the text, at every column and after the end of a line. -/
def Spells (lines : Nat → List Line) (text : Nat → Styled) : Prop :=
  ∀ column, (lines column).flatMap Line.chars =
    (lineBreak column).text.toList ++ (text column).plain.toList

/-- The lines of children are their outlines below each other. -/
theorem chars_childLines {b : Branch ProofTree}
    (h : ∀ t ∈ b.children, Spells t.linesAt t.styledAt) (column : Nat) :
    (childLines column (b.map ProofTree.linesAt)).flatMap Line.chars =
      (below column (b.map ProofTree.styledAt).children).plain.toList := by
  rw [childLines, Branch.children_map, Branch.children_map]
  generalize b.children = ts at h
  induction ts with
  | nil => rfl
  | cons t ts ih =>
      obtain ⟨ht, hts⟩ := List.forall_mem_cons.mp h
      have hbelow : below column ((t :: ts).map ProofTree.styledAt) =
          lineBreak column :: (t.styledAt column ++ below column (ts.map ProofTree.styledAt)) := rfl
      rw [hbelow, Styled.toList_plain_cons, Styled.toList_plain_append, ← ih hts, List.map_cons,
        List.flatMap_cons, List.flatMap_append, ht, List.append_assoc]

/-- The labelled blocks are the outlines of the branches, each under its label. -/
theorem chars_labelledBlocks {bs : List (Branch ProofTree)}
    (h : ∀ b ∈ bs, ∀ t ∈ b.children, Spells t.linesAt t.styledAt) (column total i : Nat) :
    (labelledBlocks column total i (bs.map (Branch.map ProofTree.linesAt))).flatten.flatMap
        Line.chars =
      (labelledBranches column total i
        (bs.map (Branch.map ProofTree.styledAt))).plain.toList := by
  induction bs generalizing i with
  | nil => rfl
  | cons b bs ih =>
      obtain ⟨hb, hbs⟩ := List.forall_mem_cons.mp h
      rw [List.map_cons, List.map_cons, labelledBlocks, labelledBranches, List.flatten_cons,
        List.flatMap_append, List.flatMap_cons, Line.chars_eq, chars_childLines hb, ih hbs,
        Styled.toList_plain_cons, Styled.toList_plain_append, Styled.toList_plain_append,
        Styled.toList_plain_only, branchLabel]
      simp only [List.append_assoc]

/-- The lines below a node are the outlines of its branches. -/
theorem chars_linesBelow {bs : List (Branch ProofTree)}
    (h : ∀ b ∈ bs, ∀ t ∈ b.children, Spells t.linesAt t.styledAt) (column : Nat) :
    (linesBelow column (bs.map (Branch.map ProofTree.linesAt))).flatMap Line.chars =
      (branchesBelow column (bs.map (Branch.map ProofTree.styledAt))).plain.toList := by
  cases bs with
  | nil => rfl
  | cons b bs =>
      cases bs with
      | nil => exact chars_childLines (h b List.mem_cons_self) column
      | cons c bs =>
          rw [ProofTree.linesBelow_several, chars_labelledBlocks h]
          show _ = (labelledBranches column ((b :: c :: bs).map _).length 1 _).plain.toList
          rw [List.length_map]
          rfl

/-- The lines of a tree are those of its outline, at every column. -/
theorem ProofTree.spells_styledAt (t : ProofTree) : Spells t.linesAt t.styledAt := by
  induction t using ProofTree.induction with
  | node root branches grown ih =>
      intro column
      rw [linesAt_node, styledAt_node, List.flatMap_cons, chars_linesBelow ih, Line.chars_eq,
        Styled.toList_plain_append, List.append_assoc]

/-- The characters of an outline are those of its lines. -/
theorem ProofTree.toList_outline (t : ProofTree) :
    (t.linesAt 0).flatMap Line.chars = '\n' :: t.outline.toList := by
  rw [t.spells_styledAt 0, toList_lineBreak]
  rfl

/-! ## What a line says -/

theorem Tag.blank_not_mem_text (tag : Tag) : ' ' ∉ tag.text.toList := by
  cases tag with
  | identity => decide
  | rule side k =>
      cases side <;> cases k with
      | negation => decide
      | binary op => cases op <;> decide
      | quantifier q => cases q <;> decide

/-- A tag begins with a capital letter. -/
theorem Tag.text_eq_cons (tag : Tag) :
    ∃ c cs, tag.text.toList = c :: cs ∧ c ≠ ' ' ∧ c ≠ 'a' := by
  cases tag with
  | identity => exact ⟨'A', ['x'], rfl, by decide, by decide⟩
  | rule side k =>
      have hside : ∃ c, side.letter.toList = [c] ∧ c ≠ ' ' ∧ c ≠ 'a' := by
        cases side with
        | antecedent => exact ⟨'L', rfl, by decide, by decide⟩
        | consequent => exact ⟨'R', rfl, by decide, by decide⟩
      obtain ⟨c, hletter, hc⟩ := hside
      refine ⟨c, k.symbol.toList, ?_, hc⟩
      rw [text, String.toList_append, hletter]
      rfl

/-- The line of a node begins with a tag, which is no blank and no label. -/
theorem nodeLine_eq_cons (s : Sequent) :
    ∃ c cs, (nodeLine s).plain.toList = c :: cs ∧ c ≠ ' ' ∧ c ≠ 'a' := by
  obtain ⟨c, cs, htag, hc⟩ := s.tag.text_eq_cons
  exact ⟨c, cs ++ ' ' :: ' ' :: s.display.toList, by rw [toList_nodeLine, htag]; rfl, hc⟩

/-- A label begins with a small letter. -/
theorem branchLabel_eq_cons (i total : Nat) : ∃ cs, (branchLabel i total).toList = 'a' :: cs := by
  rw [branchLabel, String.toList_append, String.toList_append, String.toList_append]
  exact ⟨_, rfl⟩

/-- So no line of a node is a label. -/
theorem nodeLine_ne_branchLabel (s : Sequent) (i total : Nat) :
    (nodeLine s).plain ≠ branchLabel i total := by
  intro h
  obtain ⟨c, cs, hline, -, hc⟩ := nodeLine_eq_cons s
  obtain ⟨ds, hlabel⟩ := branchLabel_eq_cons i total
  rw [h, hlabel] at hline
  exact hc (List.cons.inj hline).1.symm

/-- The line of a node determines its sequent. -/
theorem nodeLine_inj {s r : Sequent} (hs : s.WellNamed) (hr : r.WellNamed)
    (h : (nodeLine s).plain = (nodeLine r).plain) : s = r := by
  have htag : ∀ tag : Tag, ∀ c ∈ tag.text.toList, (c == ' ') = false := by
    intro tag c hc
    exact beq_eq_false_iff_ne.mpr fun hblank => tag.blank_not_mem_text (hblank ▸ hc)
  have hblank : ∀ cs : List Char, ∀ c ∈ (' ' :: cs).head?, (c == ' ') = true := by
    intro cs c hc
    rw [← Option.some.inj hc]
    rfl
  have hchars := congrArg String.toList h
  rw [toList_nodeLine, toList_nodeLine] at hchars
  obtain ⟨-, hrest⟩ := append_inj_of_head (htag _) (htag _) (hblank _) (hblank _) hchars
  have hdisplay : s.display = r.display :=
    String.toList_inj.mp (List.cons.inj (List.cons.inj hrest).2).2
  have hread := Sequent.parse_display hs
  rw [hdisplay, Sequent.parse_display hr] at hread
  exact (Except.ok.inj hread).symm

theorem Styled.Lacks.not_mem_plain {c : Char} {t : Styled} (h : t.Lacks c) :
    c ∉ t.plain.toList := by
  rw [toList_plain]
  intro hc
  obtain ⟨p, hp, hc⟩ := List.mem_flatMap.mp hc
  exact h p hp hc

/-- The lines of a well-named tree are legible: no name breaks a line or begins with a
    blank. -/
theorem ProofTree.legible_linesAt {t : ProofTree} (h : ∀ u, t.HasNode u → u.root.WellNamed)
    (column : Nat) : ∀ l ∈ t.linesAt column, l.Legible := by
  intro l hl
  rcases (mem_linesAt hl).2 with ⟨i, total, htext⟩ | ⟨u, hu, htext⟩
  · obtain ⟨cs, hcs⟩ := branchLabel_eq_cons i total
    refine ⟨htext ▸ not_mem_branchLabel (by decide) i total, ?_⟩
    rw [htext, hcs]
    intro c hc
    rw [← Option.some.inj hc]
    decide
  · obtain ⟨c, cs, hcs, hblank, -⟩ := nodeLine_eq_cons u.root
    have hlacks : (nodeLine u.root).Lacks '\n' :=
      lacks_nodeLine (by decide) ((h u hu).namesLack (by decide))
    refine ⟨htext ▸ hlacks.not_mem_plain, ?_⟩
    rw [htext, hcs]
    intro d hd
    rw [← Option.some.inj hd]
    exact hblank

/-! ## From the lines to the tree -/

namespace ProofTree

/-- The tree is grown to the end, and all its sequents are well-named. -/
def IsFinished (t : ProofTree) : Prop := ∀ u, t.HasNode u → u.IsComplete ∧ u.root.WellNamed

theorem IsFinished.child {t c : ProofTree} {b : Branch ProofTree} (h : t.IsFinished)
    (hb : b ∈ t.branches) (hc : c ∈ b.children) : c.IsFinished :=
  fun u hu => h u (.child hb hc hu)

theorem isFinished_marked {s : Sequent} (hatomic : s.isAtomic = true) (hnamed : s.WellNamed) :
    (ofBranches s [.initial]).IsFinished := by
  have hcomplete : (ofBranches s [.initial]).IsComplete :=
    ⟨rfl, fun _ => rfl, fun hcompound => absurd (hatomic.symm.trans hcompound) nofun⟩
  intro u hu
  cases hu with
  | root => exact ⟨hcomplete, hnamed⟩
  | child hb hc _ =>
      rw [List.mem_singleton.mp hb] at hc
      cases hc

/-- A node over finished trees is finished. -/
theorem isFinished_ofBranches {s : Sequent} {bs : List (Branch ProofTree)}
    (hcompound : s.isAtomic = false) (hnamed : s.WellNamed) (hbs : bs ≠ [])
    (h : ∀ b ∈ bs, ∃ ts, b = .premises ts ∧ (ts.length = 1 ∨ ts.length = 2) ∧
      ∀ t ∈ ts, t.IsFinished) : (ofBranches s bs).IsFinished := by
  have hgrown : (ofBranches s bs).isGrown = true := by
    obtain ⟨b, bs, rfl⟩ := List.exists_cons_of_ne_nil hbs
    rfl
  have hcomplete : (ofBranches s bs).IsComplete := by
    refine ⟨hgrown, fun hatomic => absurd (hatomic.symm.trans hcompound) nofun, fun _ => ⟨hbs, ?_⟩⟩
    intro b hb
    obtain ⟨ts, hts, hlength, -⟩ := h b hb
    exact ⟨ts, hts, hlength⟩
  intro u hu
  cases hu with
  | root => exact ⟨hcomplete, hnamed⟩
  | child hb hc hu =>
      obtain ⟨ts, rfl, -, hfinished⟩ := h _ hb
      exact hfinished _ hc u hu

/-- No branch of a compound sequent is empty. -/
theorem IsComplete.nonempty_of_compound {t : ProofTree} (h : t.IsComplete)
    (hcompound : t.root.isAtomic = false) :
    t.branches ≠ [] ∧ ∀ b ∈ t.branches, ∃ ts, b = .premises ts ∧ ts ≠ [] := by
  obtain ⟨hne, hbranches⟩ := h.compound hcompound
  refine ⟨hne, ?_⟩
  intro b hb
  obtain ⟨ts, rfl, hlength⟩ := hbranches b hb
  refine ⟨ts, rfl, ?_⟩
  rintro rfl
  rcases hlength with h | h <;> cases h

/-- The lines of children determine them. -/
theorem childLines_inj {ts us : List ProofTree} {column : Nat}
    (ih : ∀ t ∈ ts, ∀ u ∈ us, t.linesAt column = u.linesAt column → t = u)
    (h : childLines column ((Branch.premises ts).map linesAt) =
      childLines column ((Branch.premises us).map linesAt)) : ts = us := by
  have hblocks : ∀ ts : List ProofTree, ∀ block ∈ ts.map fun t => t.linesAt column,
      LedBy (fun l => decide (l.column ≤ column)) block := by
    intro ts block hblock
    obtain ⟨t, -, rfl⟩ := List.mem_map.mp hblock
    exact t.ledBy_linesAt column
  have hflatten : ∀ ts : List ProofTree, childLines column ((Branch.premises ts).map linesAt) =
      (ts.map fun t => t.linesAt column).flatten := by
    intro ts
    show (ts.map linesAt).flatMap _ = _
    rw [List.flatMap_map, List.flatMap_def]
  rw [hflatten, hflatten] at h
  exact map_inj_of_mem ih (flatten_inj_of_ledBy (hblocks ts) (hblocks us) h)

/-- Everything but its label stands further in than a block. -/
theorem ledBy_labelledBlocks {column total i : Nat} {bs : List (Branch ProofTree)} :
    ∀ block ∈ labelledBlocks column total i (bs.map (Branch.map linesAt)),
      LedBy (fun l => decide (l.column ≤ column)) block := by
  intro block hblock
  obtain ⟨j, b, hb, rfl⟩ := mem_labelledBlocks hblock
  refine ⟨_, _, rfl, decide_eq_true (Nat.le_refl _), ?_⟩
  intro l hl
  obtain ⟨lines, hlines, hl⟩ := List.mem_flatMap.mp hl
  obtain ⟨_, -, c, -, rfl⟩ := Branch.exists_of_mem_map hb hlines
  have hcolumn : column + 2 ≤ l.column := (mem_linesAt hl).1
  exact decide_eq_false (by omega)

/-- The blocks determine the branches. -/
theorem labelledBlocks_inj {column total total' i : Nat} {bs cs : List (Branch ProofTree)}
    (ih : ∀ b ∈ bs, ∀ c ∈ cs, childLines (column + 2) (b.map linesAt) =
      childLines (column + 2) (c.map linesAt) → b = c)
    (h : labelledBlocks column total i (bs.map (Branch.map linesAt)) =
      labelledBlocks column total' i (cs.map (Branch.map linesAt))) : bs = cs := by
  induction bs generalizing cs i with
  | nil =>
      cases cs with
      | nil => rfl
      | cons c cs => cases h
  | cons b bs hind =>
      cases cs with
      | nil => cases h
      | cons c cs =>
          obtain ⟨hblock, hblocks⟩ := List.cons.inj h
          have hhead : b = c :=
            ih b List.mem_cons_self c List.mem_cons_self (List.cons.inj hblock).2
          have htail : bs = cs := hind (fun b hb c hc =>
            ih b (List.mem_cons_of_mem _ hb) c (List.mem_cons_of_mem _ hc)) hblocks
          rw [hhead, htail]

/-- The lines of a child do not begin with a label. -/
theorem childLines_ne_label {ts : List ProofTree} (hts : ts ≠ []) (column i total : Nat)
    (ls : List Line) :
    childLines column ((Branch.premises ts).map linesAt) ≠
      ⟨column, branchLabel i total⟩ :: ls := by
  intro h
  obtain ⟨⟨root, branches, grown⟩, ts, rfl⟩ := List.exists_cons_of_ne_nil hts
  have hlines : childLines column
      ((Branch.premises (node root branches grown :: ts)).map linesAt) =
        (node root branches grown).linesAt column ++
          childLines column ((Branch.premises ts).map linesAt) := rfl
  rw [hlines, linesAt_node] at h
  exact nodeLine_ne_branchLabel root i total (congrArg Line.text (List.cons.inj h).1)

/-- The lines below a node determine its branches. -/
theorem linesBelow_inj {column : Nat} {bs cs : List (Branch ProofTree)} (hbs : bs ≠ [])
    (hcs : cs ≠ []) (hpremises : ∀ b ∈ bs, ∃ ts, b = .premises ts ∧ ts ≠ [])
    (hpremises' : ∀ c ∈ cs, ∃ us, c = .premises us ∧ us ≠ [])
    (ih : ∀ b ∈ bs, ∀ c ∈ cs, ∀ column, childLines column (b.map linesAt) =
      childLines column (c.map linesAt) → b = c)
    (h : linesBelow column (bs.map (Branch.map linesAt)) =
      linesBelow column (cs.map (Branch.map linesAt))) : bs = cs := by
  obtain ⟨b, bs, rfl⟩ := List.exists_cons_of_ne_nil hbs
  obtain ⟨c, cs, rfl⟩ := List.exists_cons_of_ne_nil hcs
  obtain ⟨ts, hb, hts⟩ := hpremises b List.mem_cons_self
  obtain ⟨us, hc, hus⟩ := hpremises' c List.mem_cons_self
  cases bs with
  | nil =>
      cases cs with
      | nil => rw [ih b List.mem_cons_self c List.mem_cons_self column h]
      | cons c' cs =>
          -- a branch alone begins with a node, and one of several with its label
          rw [hb] at h
          exact absurd h (childLines_ne_label hts column _ _ _)
  | cons b' bs =>
      cases cs with
      | nil =>
          rw [hc] at h
          exact absurd h.symm (childLines_ne_label hus column _ _ _)
      | cons c' cs =>
          rw [linesBelow_several, linesBelow_several] at h
          have hblocks := flatten_inj_of_ledBy ledBy_labelledBlocks ledBy_labelledBlocks h
          exact labelledBlocks_inj (fun b hb c hc => ih b hb c hc (column + 2)) hblocks

/-- The lines of a tree determine it. -/
theorem eq_of_linesAt {t u : ProofTree} (ht : t.IsFinished) (hu : u.IsFinished) {column : Nat}
    (h : t.linesAt column = u.linesAt column) : t = u := by
  induction t using ProofTree.induction generalizing u column with
  | node root branches grown ih =>
      obtain ⟨root', branches', grown'⟩ := u
      obtain ⟨hcomplete, hnamed⟩ := ht _ (.root _)
      obtain ⟨hcomplete', hnamed'⟩ := hu _ (.root _)
      rw [linesAt_node, linesAt_node] at h
      obtain ⟨hline, hbelow⟩ := List.cons.inj h
      obtain rfl : root = root' := nodeLine_inj hnamed hnamed' (congrArg Line.text hline)
      obtain rfl : grown = true := hcomplete.grown
      obtain rfl : grown' = true := hcomplete'.grown
      -- the first lines agree and with them the roots, which leaves the branches
      suffices hbranches : branches = branches' by rw [hbranches]
      cases hatomic : root.isAtomic with
      | true =>
          have hmark : branches = [.initial] := hcomplete.atomic hatomic
          have hmark' : branches' = [.initial] := hcomplete'.atomic hatomic
          rw [hmark, hmark']
      | false =>
          obtain ⟨hne, hpremises⟩ := hcomplete.nonempty_of_compound hatomic
          obtain ⟨hne', hpremises'⟩ := hcomplete'.nonempty_of_compound hatomic
          refine linesBelow_inj hne hne' hpremises hpremises' ?_ hbelow
          intro b hb c hc column hlines
          obtain ⟨ts, rfl, -⟩ := hpremises b hb
          obtain ⟨us, rfl, -⟩ := hpremises' c hc
          have hchild : ∀ t ∈ ts, ∀ u ∈ us, t.linesAt column = u.linesAt column → t = u :=
            fun t htmem u humem => ih _ hb t htmem (ht.child hb htmem) (hu.child hc humem)
          rw [childLines_inj hchild hlines]

end ProofTree

/-- **An outline loses nothing.**  Two trees that are grown to the end and whose
    sequents are well-named have the same outline only if they are the same. -/
theorem ProofTree.outline_inj {t u : ProofTree} (ht : t.IsFinished) (hu : u.IsFinished) :
    t.outline = u.outline ↔ t = u := by
  refine ⟨fun h => ?_, fun h => congrArg outline h⟩
  have hchars : (t.linesAt 0).flatMap Line.chars = (u.linesAt 0).flatMap Line.chars := by
    rw [toList_outline, toList_outline, h]
  have hlines : t.linesAt 0 = u.linesAt 0 :=
    Line.flatMap_chars_inj (legible_linesAt (fun v hv => (ht v hv).2) 0)
      (legible_linesAt (fun v hv => (hu v hv).2) 0) hchars
  exact eq_of_linesAt ht hu hlines

namespace ProofTree

/-- The sequent `P;`, marked. -/
def leafP : ProofTree := ofBranches ⟨[.atom ⟨"P", []⟩], []⟩ [.initial]

/-- The sequent `; Q`, marked. -/
def leafQ : ProofTree := ofBranches ⟨[], [.atom ⟨"Q", []⟩]⟩ [.initial]

/-- The sequent `; ~P` with the given premises. -/
def negationOver (premises : List ProofTree) : ProofTree :=
  ofBranches ⟨[], [.negation (.atom ⟨"P", []⟩)]⟩ [.premises premises]

/-- The sequent `; ~P & Q` with two branches, of the given premises and of the
    premise `; Q`. -/
def conjunctionOver (premises : List ProofTree) : ProofTree :=
  ofBranches ⟨[], [.binary .conjunction (.negation (.atom ⟨"P", []⟩)) (.atom ⟨"Q", []⟩)]⟩
    [.premises premises, .premises [leafQ]]

/-- Two trees whose outlines have the same lines in the same order, one of them at
    another column. -/
theorem outline_inj_one_column :
    (conjunctionOver [negationOver [leafP], leafQ]).IsFinished ∧
      (conjunctionOver [negationOver [leafP, leafQ]]).IsFinished ∧
      (conjunctionOver [negationOver [leafP], leafQ]).outline ≠
        (conjunctionOver [negationOver [leafP, leafQ]]).outline := by
  have hP : leafP.IsFinished := isFinished_marked rfl (by decide)
  have hQ : leafQ.IsFinished := isFinished_marked rfl (by decide)
  have hnegation : ∀ ts : List ProofTree, (ts.length = 1 ∨ ts.length = 2) →
      (∀ t ∈ ts, t.IsFinished) → (negationOver ts).IsFinished := by
    intro ts hlength hts
    exact isFinished_ofBranches rfl (by decide) nofun
      (List.forall_mem_singleton.mpr ⟨ts, rfl, hlength, hts⟩)
  have hconjunction : ∀ ts : List ProofTree, (ts.length = 1 ∨ ts.length = 2) →
      (∀ t ∈ ts, t.IsFinished) → (conjunctionOver ts).IsFinished := by
    intro ts hlength hts
    exact isFinished_ofBranches rfl (by decide) nofun
      (List.forall_mem_cons.mpr ⟨⟨ts, rfl, hlength, hts⟩,
        List.forall_mem_singleton.mpr ⟨_, rfl, .inl rfl, List.forall_mem_singleton.mpr hQ⟩⟩)
  have hbeside := hconjunction _ (.inr rfl) (List.forall_mem_cons.mpr
    ⟨hnegation _ (.inl rfl) (List.forall_mem_singleton.mpr hP), List.forall_mem_singleton.mpr hQ⟩)
  have hunder := hconjunction _ (.inl rfl) (List.forall_mem_singleton.mpr
    (hnegation _ (.inr rfl) (List.forall_mem_cons.mpr ⟨hP, List.forall_mem_singleton.mpr hQ⟩)))
  refine ⟨hbeside, hunder, ?_⟩
  rw [ne_eq, outline_inj hbeside hunder]
  intro h
  cases h

end ProofTree

end SequentCalculus
