import SequentCalculus.ProofTree.Outline
import SequentCalculus.Proofs.Shape
import SequentCalculus.Proofs.Substitution
import SequentCalculus.Proofs.Words

/-! # Pieces — which characters a rendered text has

    Everything that a rendering adds to the names is printable: signs, blanks,
    digits, the tags and the labels of an outline.  So a control character, such
    as the one that begins an escape sequence or the one that ends a line, is in
    the text of a formula, of a sequent or of a line of an outline only if it is in
    a name. -/

namespace SequentCalculus

/-- A text of printable characters has no control character. -/
theorem not_mem_of_printable {c : Char} (hc : c.toNat < 32) {s : String}
    (h : (s.toList.all fun d => 32 ≤ d.toNat) = true) : c ∉ s.toList := by
  intro hmem
  have hle : 32 ≤ c.toNat := of_decide_eq_true (List.all_eq_true.mp h c hmem)
  omega

/-- A control character is no digit. -/
theorem isDigit_eq_false {c : Char} (hc : c.toNat < 32) : c.isDigit = false := by
  cases hdigit : c.isDigit with
  | false => rfl
  | true =>
      have hval : (48 : UInt32) ≤ c.val :=
        of_decide_eq_true (Bool.and_eq_true_iff.mp hdigit).1
      have hle : 48 ≤ c.toNat := UInt32.le_iff_toNat_le.mp hval
      omega

/-! ## Texts -/

namespace Styled

/-- No piece of the text has the character. -/
def Lacks (c : Char) (t : Styled) : Prop := ∀ p ∈ t, c ∉ p.text.toList

variable {c : Char} {t u : Styled}

/-- A character is missing from texts in a row if it is missing from each. -/
theorem lacks_append : (t ++ u).Lacks c ↔ t.Lacks c ∧ u.Lacks c := List.forall_mem_append

theorem lacks_only {r : Role} {text : String} : (only r text).Lacks c ↔ c ∉ text.toList :=
  List.forall_mem_singleton

theorem lacks_space (hc : c.toNat < 32) : space.Lacks c :=
  List.forall_mem_singleton.mpr (not_mem_of_printable hc rfl)

/-- A piece of texts in a row is one of the separator or of one of the texts. -/
theorem mem_joinWith {separator : Styled} {ts : List Styled} {p : Piece}
    (h : p ∈ joinWith separator ts) : p ∈ separator ∨ ∃ t ∈ ts, p ∈ t := by
  fun_induction joinWith separator ts with
  | case1 => cases h
  | case2 t => exact Or.inr ⟨t, List.mem_cons_self, h⟩
  | case3 t u rest ih =>
      rcases List.mem_append.mp h with h | h
      · rcases List.mem_append.mp h with h | h
        · exact Or.inr ⟨t, List.mem_cons_self, h⟩
        · exact Or.inl h
      · rcases ih h with h | ⟨v, hv, h⟩
        · exact Or.inl h
        · exact Or.inr ⟨v, List.mem_cons_of_mem _ hv, h⟩

/-- Commas between texts bring no control character. -/
theorem lacks_commas (hc : c.toNat < 32) {ts : List Styled} (h : ∀ t ∈ ts, t.Lacks c) :
    (joinWith (only .punctuation ", ") ts).Lacks c := by
  intro p hp
  rcases mem_joinWith hp with hp | ⟨t, ht, hp⟩
  · exact lacks_only.mpr (not_mem_of_printable hc rfl) p hp
  · exact h t ht p hp

end Styled

/-! ## Names -/

/-- No name in the formula has the character. -/
def Formula.NamesLack (c : Char) (p : Formula) : Prop := ∀ w ∈ p.words, c ∉ w.toList

/-- No name in the sequent has the character. -/
def Sequent.NamesLack (c : Char) (s : Sequent) : Prop := ∀ p ∈ s.members, p.NamesLack c

/-- No name in the tree has the character. -/
def ProofTree.NamesLack (c : Char) (t : ProofTree) : Prop :=
  ∀ u, t.HasNode u → u.root.NamesLack c

instance (c : Char) : DecidablePred (Formula.NamesLack c) := fun p =>
  inferInstanceAs (Decidable (∀ w ∈ p.words, c ∉ w.toList))

/-- A term is made of word characters. -/
theorem isWordChar_of_isTerm {w : String} (h : isTerm w = true) {c : Char} (hc : c ∈ w.toList) :
    isWordChar c = true :=
  isWordChar_of_isWord (Bool.and_eq_true_iff.mp h).1 hc

/-- In a well-named sequent no name has a character other than word characters. -/
theorem Sequent.WellNamed.namesLack {s : Sequent} (h : s.WellNamed) {c : Char}
    (hc : isWordChar c = false) : s.NamesLack c := by
  intro p hp w hw hmem
  rw [isWordChar_of_isTerm (h p hp w hw) hmem] at hc
  cases hc

/-! ## Formulas, sequents and lines -/

variable {c : Char}

/-- The parentheses and commas of an atom are printable. -/
theorem Atom.lacks_styled (hc : c.toNat < 32) {a : Atom} (h : (Formula.atom a).NamesLack c) :
    a.styled.Lacks c := by
  obtain ⟨hname, hterms⟩ := List.forall_mem_cons.mp h
  obtain ⟨name, ts⟩ := a
  cases ts with
  | nil => exact Styled.lacks_only.mpr hname
  | cons t ts =>
      have hlist : (Styled.joinWith (Styled.only .punctuation ", ")
          ((t :: ts).map (Styled.only .term))).Lacks c := by
        refine Styled.lacks_commas hc ?_
        intro u hu
        obtain ⟨w, hw, rfl⟩ := List.mem_map.mp hu
        exact Styled.lacks_only.mpr (hterms w hw)
      simp only [styled, Styled.lacks_append, Styled.lacks_only]
      exact ⟨⟨⟨hname, not_mem_of_printable hc rfl⟩, hlist⟩, not_mem_of_printable hc rfl⟩

/-- The sign of an operator is printable. -/
theorem Operator.not_mem_symbol (hc : c.toNat < 32) (op : Operator) : c ∉ op.symbol.toList := by
  cases op <;> exact not_mem_of_printable hc rfl

theorem Quantifier.not_mem_symbol (hc : c.toNat < 32) (k : Quantifier) :
    c ∉ k.symbol.toList := by
  cases k <;> exact not_mem_of_printable hc rfl

/-- The text of a formula has a control character only if one of its names has it,
    with and without parentheses around it. -/
theorem Formula.lacks_styledAt (hc : c.toNat < 32) {p : Formula} (h : p.NamesLack c)
    (operand : Bool) (depth : Nat) : (p.styledAt operand depth).Lacks c := by
  have hspace := Styled.lacks_space hc
  induction p generalizing operand depth with
  | atom a => exact Atom.lacks_styled hc h
  | negation p ih =>
      rw [styledAt, Styled.lacks_append, Styled.lacks_only]
      exact ⟨not_mem_of_printable hc rfl, ih h true depth⟩
  | binary op p q ihp ihq =>
      obtain ⟨hp, hq⟩ := List.forall_mem_append.mp h
      -- with and without parentheses the text in between is the same
      have hjoin : ∀ depth, (p.styledAt true depth ++ Styled.space ++
          Styled.only .operator op.symbol ++ Styled.space ++ q.styledAt true depth).Lacks c := by
        intro depth
        simp only [Styled.lacks_append, Styled.lacks_only]
        exact ⟨⟨⟨⟨ihp hp true depth, hspace⟩, op.not_mem_symbol hc⟩, hspace⟩, ihq hq true depth⟩
      cases operand with
      | false => exact hjoin depth
      | true =>
          have hinner := hjoin (depth + 1)
          simp only [styledAt, Styled.lacks_append, Styled.lacks_only] at hinner ⊢
          obtain ⟨⟨⟨⟨hleft, -⟩, hop⟩, -⟩, hright⟩ := hinner
          exact ⟨⟨⟨⟨⟨⟨not_mem_of_printable hc rfl, hleft⟩, hspace⟩, hop⟩, hspace⟩, hright⟩,
            not_mem_of_printable hc rfl⟩
  | quantified k x p ih =>
      obtain ⟨hx, hp⟩ := List.forall_mem_cons.mp h
      simp only [styledAt, Styled.lacks_append, Styled.lacks_only, String.toList_append,
        List.mem_append, not_or]
      exact ⟨⟨⟨k.not_mem_symbol hc, hx⟩, hspace⟩, ih hp true depth⟩

/-- The same holds for the formulas of a side in a row. -/
theorem lacks_styledSide (hc : c.toNat < 32) {ps : List Formula}
    (h : ∀ p ∈ ps, p.NamesLack c) : (styledSide ps).Lacks c := by
  refine Styled.lacks_commas hc ?_
  intro t ht
  obtain ⟨p, hp, rfl⟩ := List.mem_map.mp ht
  exact Formula.lacks_styledAt hc (h p hp) false 0

/-- The text of a sequent has a control character only if one of its names has it. -/
theorem Sequent.lacks_styled (hc : c.toNat < 32) {s : Sequent} (h : s.NamesLack c) :
    s.styled.Lacks c := by
  obtain ⟨hant, hcon⟩ := List.forall_mem_append.mp h
  simp only [styled, Styled.lacks_append, Styled.lacks_only]
  exact ⟨⟨⟨lacks_styledSide hc hant, not_mem_of_printable hc rfl⟩, Styled.lacks_space hc⟩,
    lacks_styledSide hc hcon⟩

/-- A tag is a letter and a sign, or the word for a leaf. -/
theorem Tag.not_mem_text (hc : c.toNat < 32) (tag : Tag) : c ∉ tag.text.toList := by
  cases tag with
  | identity => exact not_mem_of_printable hc rfl
  | rule side k =>
      show c ∉ (side.letter ++ k.symbol).toList
      rw [String.toList_append, List.mem_append, not_or]
      refine ⟨by cases side <;> exact not_mem_of_printable hc rfl, ?_⟩
      cases k with
      | negation => exact not_mem_of_printable hc rfl
      | binary op => exact op.not_mem_symbol hc
      | quantifier k => exact k.not_mem_symbol hc

/-- The line of a node has a control character only if a name in its sequent has
    it. -/
theorem lacks_nodeLine (hc : c.toNat < 32) {s : Sequent} (h : s.NamesLack c) :
    (nodeLine s).Lacks c := by
  rw [nodeLine, Styled.lacks_append, Styled.lacks_append, Styled.lacks_only]
  exact ⟨⟨s.tag.not_mem_text hc, List.forall_mem_singleton.mpr (not_mem_of_printable hc rfl)⟩,
    s.lacks_styled hc h⟩

/-! ## Outlines

    The lines of an outline are put together with line ends and blanks. -/

/-- The label of a branch is a word, a stroke and two numbers. -/
theorem not_mem_branchLabel (hc : c.toNat < 32) (i total : Nat) :
    c ∉ (branchLabel i total).toList := by
  have hdigit := isDigit_eq_false hc
  have halt : c ∉ "alt ".toList := not_mem_of_printable hc rfl
  have hslash : c ∉ "/".toList := not_mem_of_printable hc rfl
  simp only [branchLabel, String.toList_append, List.mem_append, not_or,
    Nat.toString_eq_ofList_toDigits, String.toList_ofList]
  exact ⟨⟨⟨halt, not_mem_toDigits hdigit i⟩, hslash⟩, not_mem_toDigits hdigit total⟩

section Outlines

variable (hc : c.toNat < 32) (hend : c ≠ '\n')

include hc hend

theorem not_mem_lineBreak (indent : Nat) : c ∉ (lineBreak indent).text.toList := by
  rw [toList_lineBreak]
  intro h
  rcases List.mem_cons.mp h with h | h
  · exact hend h
  · exact not_mem_of_printable hc (s := " ") rfl (List.eq_of_mem_replicate h ▸ List.mem_cons_self)

/-- Texts below each other have a character other than the line end only if one of
    them has it. -/
theorem lacks_below {ts : List (Nat → Styled)} (h : ∀ t ∈ ts, ∀ n, (t n).Lacks c)
    (indent : Nat) : (below indent ts).Lacks c := by
  intro p hp
  obtain ⟨t, ht, hp⟩ := List.mem_flatMap.mp hp
  rcases List.mem_cons.mp hp with rfl | hp
  · exact not_mem_lineBreak hc hend indent
  · exact h t ht indent p hp

theorem lacks_labelledBranches {bs : List (Branch (Nat → Styled))}
    (h : ∀ b ∈ bs, ∀ t ∈ b.children, ∀ n, (t n).Lacks c) (indent total i : Nat) :
    (labelledBranches indent total i bs).Lacks c := by
  induction bs generalizing i with
  | nil => exact fun _ hp => nomatch hp
  | cons b bs ih =>
      obtain ⟨hb, hbs⟩ := List.forall_mem_cons.mp h
      have hlabel : (Styled.only .punctuation (branchLabel i total)).Lacks c :=
        Styled.lacks_only.mpr (not_mem_branchLabel hc i total)
      have hbranch := Styled.lacks_append.mpr ⟨hlabel, lacks_below hc hend hb (indent + 2)⟩
      exact List.forall_mem_cons.mpr ⟨not_mem_lineBreak hc hend indent,
        Styled.lacks_append.mpr ⟨hbranch, ih hbs (i + 1)⟩⟩

theorem lacks_branchesBelow {bs : List (Branch (Nat → Styled))}
    (h : ∀ b ∈ bs, ∀ t ∈ b.children, ∀ n, (t n).Lacks c) (indent : Nat) :
    (branchesBelow indent bs).Lacks c := by
  fun_cases branchesBelow indent bs with
  | case1 => exact fun _ hp => nomatch hp
  | case2 b => exact lacks_below hc hend (h b List.mem_cons_self) indent
  | case3 => exact lacks_labelledBranches hc hend h indent _ 1

/-- An outline has a control character other than the line end only if a name in the
    tree has it. -/
theorem ProofTree.lacks_styledAt {t : ProofTree} (h : t.NamesLack c) (indent : Nat) :
    (t.styledAt indent).Lacks c := by
  induction t using ProofTree.induction generalizing indent with
  | node root branches grown ih =>
      rw [styledAt_node, Styled.lacks_append]
      refine ⟨lacks_nodeLine hc (h _ (.root _)), lacks_branchesBelow hc hend ?_ _⟩
      intro b hb t ht n
      obtain ⟨b, hb, d, hd, rfl⟩ := Branch.exists_of_mem_map hb ht
      exact ih b hb d hd (fun u hu => h u (.child hb hd hu)) n

end Outlines

end SequentCalculus
