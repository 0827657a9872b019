import SequentCalculus.Formula.Substitution
import SequentCalculus.Grammar.Token
import SequentCalculus.Sequent.Basic

/-! # Words that are read as themselves

    A predicate, a term or a bound variable is an arbitrary string, but only a
    term in the sense of `isTerm` is read back as a name: other words are
    keywords or quantifiers glued to a variable, and other strings are no words
    at all.  A formula or a sequent is well-named if all its words are terms.

    The reader makes the same distinction in `Token.ofWord`, which mentions no
    name that is not a term. -/

namespace SequentCalculus

/-! ## Well-named formulas and sequents -/

/-- Every predicate, term and bound variable, one entry per occurrence. -/
def Formula.words : Formula → List String
  | atom a => a.predicate :: a.terms
  | negation p => p.words
  | binary _ p q => p.words ++ q.words
  | quantified _ x p => x :: p.words

/-- Every word of the formula is a term. -/
def Formula.WellNamed (p : Formula) : Prop := ∀ w ∈ p.words, isTerm w = true

/-- Every member of the sequent is well-named. -/
def Sequent.WellNamed (s : Sequent) : Prop := ∀ p ∈ s.members, p.WellNamed

instance : DecidablePred Formula.WellNamed := fun p =>
  inferInstanceAs (Decidable (∀ w ∈ p.words, isTerm w = true))

instance : DecidablePred Sequent.WellNamed := fun s =>
  inferInstanceAs (Decidable (∀ p ∈ s.members, p.WellNamed))

namespace Formula

theorem wellNamed_atom {a : Atom} :
    (atom a).WellNamed ↔ isTerm a.predicate = true ∧ ∀ t ∈ a.terms, isTerm t = true :=
  List.forall_mem_cons

theorem wellNamed_binary {op : Operator} {p q : Formula} :
    (binary op p q).WellNamed ↔ p.WellNamed ∧ q.WellNamed :=
  List.forall_mem_append

theorem wellNamed_quantified {k : Quantifier} {x : String} {p : Formula} :
    (quantified k x p).WellNamed ↔ isTerm x = true ∧ p.WellNamed :=
  List.forall_mem_cons

end Formula

/-! ## Words as tokens -/

/-- The names in a token are terms. -/
def Token.WellNamed : Token → Prop
  | word w => isTerm w = true
  | binder _ x => isTerm x = true
  | _ => True

/-- What starts a word belongs to words. -/
theorem isWordChar_of_isWordStart {c : Char} (h : isWordStart c = true) :
    isWordChar c = true := by
  rcases Bool.or_eq_true_iff.mp h with h | h
  · show (c.isAlpha || c.isDigit || c == '_') = true
    rw [h]
    rfl
  · rw [isWordChar, h, Bool.or_true]

/-- Only word characters are in a word. -/
theorem isWordChar_of_isWord {w : List Char} (h : isWord w = true) {c : Char} (hc : c ∈ w) :
    isWordChar c = true := by
  cases w with
  | nil => cases h
  | cons d ds =>
      obtain ⟨hd, hds⟩ := Bool.and_eq_true_iff.mp h
      rcases List.mem_cons.mp hc with rfl | hc
      · exact isWordChar_of_isWordStart hd
      · exact List.all_eq_true.mp hds c hc

theorem isWord_append_singleton {cs : List Char} {c : Char} (h : isWord cs = true)
    (hc : isWordChar c = true) : isWord (cs ++ [c]) = true := by
  cases cs with
  | nil => cases h
  | cons d ds =>
      simp only [isWord, Bool.and_eq_true] at h
      simp [isWord, h, hc]

/-- A string is a term if its characters are. -/
theorem isTerm_ofList {cs : List Char} : isTerm (String.ofList cs) = isTermChars cs := by
  rw [isTerm, String.toList_ofList]

/-- The two ways to classify a word agree: a plain word is read as itself, and
    any other is read as a keyword or as a quantifier glued to a term. -/
theorem Token.ofWord_cases (cs : List Char) :
    (isPlain cs = true ∧ Token.ofWord cs = .word (String.ofList cs)) ∨
      (isPlain cs = false ∧ (Token.ofWord cs).WellNamed) := by
  fun_cases Token.ofWord cs with
  | case1 | case2 | case3 | case4 | case5 | case6 | case7 => exact Or.inr ⟨rfl, trivial⟩
  | case8 x hne hx | case10 x hne hx =>
      refine Or.inr ⟨?_, ?_⟩
      · show (!x.isEmpty && !isTermChars x) = false
        rw [hx, Bool.not_true, Bool.and_false]
      · show isTerm (String.ofList x) = true
        rw [isTerm_ofList]
        exact hx
  | case9 x hne hx | case11 x hne hx =>
      -- the rest is no term, so nothing is glued
      refine Or.inl ⟨?_, rfl⟩
      rw [Bool.not_eq_true] at hx
      show (!x.isEmpty && !isTermChars x) = true
      rw [hx]
      simpa using hne
  | case12 => exact Or.inl ⟨by rw [isPlain] <;> assumption, rfl⟩

/-- A term is read as itself. -/
theorem Token.ofWord_of_isTermChars {cs : List Char} (h : isTermChars cs = true) :
    Token.ofWord cs = .word (String.ofList cs) := by
  rw [isTermChars, Bool.and_eq_true] at h
  rcases Token.ofWord_cases cs with ⟨-, hword⟩ | ⟨hplain, -⟩
  · exact hword
  · rw [hplain] at h
    exact nomatch h.2

/-- Whatever a word is read as mentions terms only. -/
theorem Token.wellNamed_ofWord {cs : List Char} (h : isWord cs = true) :
    (Token.ofWord cs).WellNamed := by
  rcases Token.ofWord_cases cs with ⟨hplain, hword⟩ | ⟨-, hnamed⟩
  · rw [hword]
    show isTerm (String.ofList cs) = true
    rw [isTerm_ofList, isTermChars, h, hplain]
    rfl
  · exact hnamed

/-! ## Plain words

    A word begins with a quantifier that is taken off, or it does not, and then
    it is plain unless it is a keyword. -/

/-- The words that are read as quantifiers. -/
def quantifierWords : List (List Char) := ["forall".toList, "exists".toList]

/-- The words that are read as connectives. -/
def keywords : List (List Char) :=
  ["and".toList, "or".toList, "v".toList, "not".toList, "implies".toList]

/-- The word does not begin with a quantifier. -/
def Unquantified (y : List Char) : Prop := ∀ q ∈ quantifierWords, ∀ x, y ≠ q ++ x

theorem mem_quantifierWords {q : List Char} :
    q ∈ quantifierWords ↔ q = "forall".toList ∨ q = "exists".toList := by
  simp only [quantifierWords, List.mem_cons, List.not_mem_nil, or_false]

/-- The word of a quantifier with something behind it is plain unless the rest is a
    term, which would make it a binder. -/
theorem isPlain_quantifier_append {q x : List Char} (hq : q ∈ quantifierWords) :
    isPlain (q ++ x) = (!x.isEmpty && !isTermChars x) := by
  rcases mem_quantifierWords.mp hq with rfl | rfl <;> rfl

/-- A word that begins with no quantifier is plain unless it is a keyword. -/
theorem isPlain_of_unquantified {y : List Char} (h : Unquantified y) :
    isPlain y = !keywords.contains y := by
  fun_cases isPlain y with
  | case1 x => exact absurd rfl (h _ (mem_quantifierWords.mpr (Or.inl rfl)) x)
  | case2 x => exact absurd rfl (h _ (mem_quantifierWords.mpr (Or.inr rfl)) x)
  | case3 | case4 | case5 | case6 | case7 => rfl
  | case8 _ _ _ hand hor hv hnot himplies =>
      have hmem : y ∉ keywords := by
        simp only [keywords, List.mem_cons, List.not_mem_nil, or_false]
        rintro (rfl | rfl | rfl | rfl | rfl)
        · exact hand rfl
        · exact hor rfl
        · exact hv rfl
        · exact hnot rfl
        · exact himplies rfl
      simpa using hmem

/-- Words can be read by taking off one quantifier after the other. -/
theorem quantifier_induction {motive : List Char → Prop}
    (glued : ∀ q ∈ quantifierWords, ∀ x, motive x → motive (q ++ x))
    (bare : ∀ y, Unquantified y → motive y) (y : List Char) : motive y := by
  induction hn : y.length using Nat.strongRecOn generalizing y with
  | ind n ih =>
      by_cases h : ∃ q ∈ quantifierWords, ∃ x, y = q ++ x
      · obtain ⟨q, hq, x, rfl⟩ := h
        refine glued q hq x (ih x.length ?_ x rfl)
        rw [← hn, List.length_append]
        rcases mem_quantifierWords.mp hq with rfl | rfl <;> simp
      · exact bare y fun q hq x heq => h ⟨q, hq, x, heq⟩

/-! ## Numbered variants

    Whether a numbered variant of a variable is a term depends on the variable
    alone.  It need not be one, even if the variable is: `forallv` is a term as
    `v` is a keyword and cannot be bound, but in `forallv_1` the quantifier is
    glued to `v_1`. -/

/-- A word stays one with an underscore and more behind it. -/
theorem isWord_append_underscore (x : List Char) {ds : List Char}
    (hds : ds.all isWordChar = true) : isWord (x ++ '_' :: ds) = (x.isEmpty || isWord x) := by
  cases x with
  | nil => simpa [isWord, isWordStart] using hds
  | cons c x =>
      have hmark : isWordChar '_' = true := by decide
      simp [isWord, hds, hmark]

/-- Putting an underscore behind a word adds no quantifier in front of it. -/
theorem Unquantified.append_underscore {y : List Char} (h : Unquantified y) (ds : List Char) :
    Unquantified (y ++ '_' :: ds) := by
  intro q hq x heq
  have hmark : '_' ∉ q := by
    rcases mem_quantifierWords.mp hq with rfl | rfl <;> decide
  rcases List.append_eq_append_iff.mp heq with ⟨a, rfl, ha⟩ | ⟨z, hz, -⟩
  · -- the quantifier would reach beyond the word
    cases a with
    | nil =>
        rw [List.append_nil] at hq
        exact h y hq [] (List.append_nil y).symm
    | cons c a =>
        cases ha
        exact hmark (List.mem_append_right _ List.mem_cons_self)
  · exact h q hq z hz

theorem isPlain_append_of_unquantified {y : List Char} (h : Unquantified y) (ds : List Char) :
    isPlain (y ++ '_' :: ds) = true := by
  have hmem : y ++ '_' :: ds ∉ keywords := by
    intro hmem
    have hmark : ∀ k ∈ keywords, '_' ∉ k := by decide
    exact hmark _ hmem (List.mem_append_right _ List.mem_cons_self)
  rw [isPlain_of_unquantified (h.append_underscore ds)]
  simpa using hmem

/-- What stands behind an underscore does not matter. -/
theorem isPlain_append_underscore (y : List Char) {ds es : List Char}
    (hds : ds.all isWordChar = true) (hes : es.all isWordChar = true) :
    isPlain (y ++ '_' :: ds) = isPlain (y ++ '_' :: es) := by
  induction y using quantifier_induction with
  | glued q hq x ih =>
      rw [List.append_assoc, List.append_assoc, isPlain_quantifier_append hq,
        isPlain_quantifier_append hq, isTermChars, isTermChars, isWord_append_underscore x hds,
        isWord_append_underscore x hes, ih]
      cases x <;> rfl
  | bare y hy => rw [isPlain_append_of_unquantified hy, isPlain_append_of_unquantified hy]

/-- A numbered name has its number behind an underscore. -/
theorem toList_numbered (x : String) (n : Nat) :
    (numbered x n).toList = x.toList ++ '_' :: Nat.toDigits 10 n := by
  simp [numbered]

theorem all_isWordChar_toDigits (n : Nat) : (Nat.toDigits 10 n).all isWordChar = true := by
  refine List.all_eq_true.mpr fun c hc => ?_
  have hdigit := Nat.isDigit_of_mem_toDigits (by decide) (by decide) hc
  simp [isWordChar, Char.isAlphanum, hdigit]

/-- Either all numbered variants of a variable are terms or none is. -/
theorem isTerm_numbered (x : String) (m n : Nat) :
    isTerm (numbered x m) = isTerm (numbered x n) := by
  have hm := all_isWordChar_toDigits m
  have hn := all_isWordChar_toDigits n
  rw [isTerm, isTerm, isTermChars, isTermChars, toList_numbered, toList_numbered,
    isWord_append_underscore _ hm, isWord_append_underscore _ hn,
    isPlain_append_underscore _ hm hn]

/-- A keyword behind `n` quantifiers, all written together. -/
inductive GluedKeyword : Nat → List Char → Prop
  | bare {k : List Char} (hk : k ∈ keywords) : GluedKeyword 0 k
  | glued {n : Nat} {q x : List Char} (hq : q ∈ quantifierWords) (hx : GluedKeyword n x) :
      GluedKeyword (n + 1) (q ++ x)

namespace GluedKeyword

variable {n : Nat} {y ds : List Char}

theorem isWord (h : GluedKeyword n y) : isWord y = true ∧ y.all isWordChar = true := by
  induction h with
  | bare hk =>
      revert hk
      decide +revert
  | glued hq _ ih =>
      rcases mem_quantifierWords.mp hq with rfl | rfl
      · exact ⟨ih.2, ih.2⟩
      · exact ⟨ih.2, ih.2⟩

/-- An odd number of quantifiers makes a term of a keyword, and an even number
    makes a term of its variants. -/
theorem isPlain_eq (h : GluedKeyword n y) (hds : ds.all isWordChar = true) :
    isPlain y = (n % 2 == 1) ∧ isPlain (y ++ '_' :: ds) = (n % 2 == 0) := by
  induction h with
  | bare hk =>
      simp only [keywords, List.mem_cons, List.not_mem_nil, or_false] at hk
      rcases hk with rfl | rfl | rfl | rfl | rfl <;> exact ⟨rfl, rfl⟩
  | @glued n q x hq hx ih =>
      have hword := hx.isWord.1
      have hne : x.isEmpty = false := by
        cases x with
        | nil => cases hword
        | cons c x => rfl
      have hne' : (x ++ '_' :: ds).isEmpty = false := by
        cases x <;> rfl
      rw [List.append_assoc, isPlain_quantifier_append hq, isPlain_quantifier_append hq,
        isTermChars, isTermChars, isWord_append_underscore x hds, hword, ih.1, ih.2, hne, hne']
      rcases Nat.mod_two_eq_zero_or_one n with hn | hn <;> simp [Nat.add_mod, hn]

end GluedKeyword

/-- Only at a keyword can a word and its variants differ in being plain. -/
theorem exists_gluedKeyword {y ds : List Char} (hds : ds.all isWordChar = true)
    (h : isPlain y ≠ isPlain (y ++ '_' :: ds)) : ∃ n, GluedKeyword n y := by
  induction y using quantifier_induction with
  | glued q hq x ih =>
      rw [List.append_assoc, isPlain_quantifier_append hq, isPlain_quantifier_append hq,
        isTermChars, isTermChars, isWord_append_underscore x hds] at h
      have hx : isPlain x ≠ isPlain (x ++ '_' :: ds) := by
        intro heq
        rw [← heq] at h
        cases x <;> exact h rfl
      obtain ⟨n, hn⟩ := ih hx
      exact ⟨n + 1, .glued hq hn⟩
  | bare y hy =>
      rw [isPlain_append_of_unquantified hy, isPlain_of_unquantified hy] at h
      refine ⟨0, .bare ?_⟩
      simpa using h

/-- A term has variants that are no terms exactly if it is a keyword behind an
    odd number of quantifiers. -/
theorem isTerm_numbered_eq_false_iff {y : String} (hy : isTerm y = true) (m : Nat) :
    isTerm (numbered y m) = false ↔ ∃ n, n % 2 = 1 ∧ GluedKeyword n y.toList := by
  have hds := all_isWordChar_toDigits m
  obtain ⟨hword, hplain⟩ := Bool.and_eq_true_iff.mp hy
  rw [isTerm, isTermChars, toList_numbered, isWord_append_underscore _ hds, hword,
    Bool.or_true, Bool.true_and]
  constructor
  · intro h
    have hne : isPlain y.toList ≠ isPlain (y.toList ++ '_' :: Nat.toDigits 10 m) := by
      rw [hplain, h]
      decide
    obtain ⟨n, hn⟩ := exists_gluedKeyword hds hne
    have hodd := (hn.isPlain_eq hds).1
    rw [hplain] at hodd
    exact ⟨n, by simpa using hodd.symm, hn⟩
  · rintro ⟨n, hodd, hn⟩
    rw [(hn.isPlain_eq hds).2, hodd]
    rfl

example : isTerm "forallv" = true ∧ isTerm "forallv_1" = false ∧
    isTerm "forallforallv_1" = true := by decide

end SequentCalculus
