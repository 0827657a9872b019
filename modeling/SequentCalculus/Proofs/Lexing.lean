import SequentCalculus.Grammar.Lexer
import SequentCalculus.Proofs.Words

/-! # Lexing — the tokens of a text

    Some facts about the scanner are used by everything that reads text.
    Whatever it returns mentions terms only (`Scan.wellNamed_run`): a scan
    inside a word has read a word, and words become well-named tokens.  Inside a
    word it goes on to the end of the word (`Scan.run_word`).

    And texts can be lexed from the right (`Lexes`): a sign, a blank, an arrow or
    a word in front of a text puts its token in front of the tokens of the text.
    A word has to end there, so the text behind it must not go on with a word
    character. -/

namespace SequentCalculus

/-! ## Only terms are mentioned -/

/-- A scan inside a word has read the characters of a word. -/
def Scan.InWord : Scan → Prop
  | word _ read => isWord read.reverse = true
  | _ => True

/-- Signs have no names. -/
theorem Token.wellNamed_of_ofSign? {c : Char} {t : Token} (h : Token.ofSign? c = some t) :
    t.WellNamed := by
  unfold Token.ofSign? at h
  split at h <;> cases h <;> trivial

namespace Scan

/-- A step from a gap begins a word properly and hands out no bad name. -/
theorem inWord_stepGap {pos : Nat} {c : Char} {ls : List Lexeme} {s : Scan}
    (h : stepGap pos c = some (ls, s)) : s.InWord ∧ ∀ l ∈ ls, l.token.WellNamed := by
  unfold stepGap at h
  split at h
  · rename_i hstart
    cases h
    refine ⟨?_, by simp⟩
    simpa [InWord, isWord] using hstart
  · split at h
    · cases h
      exact ⟨trivial, by simp⟩
    · split at h
      · cases h
        exact ⟨trivial, by simp⟩
      · split at h
        · rename_i t ht
          cases h
          refine ⟨trivial, ?_⟩
          simpa using Token.wellNamed_of_ofSign? ht
        · cases h

/-- Every step keeps the word that is being read a word, and hands out no bad name. -/
theorem inWord_step {s s' : Scan} {pos : Nat} {c : Char} {ls : List Lexeme} (hs : s.InWord)
    (h : s.step pos c = some (ls, s')) : s'.InWord ∧ ∀ l ∈ ls, l.token.WellNamed := by
  cases s with
  | gap b => exact inWord_stepGap h
  | word start read =>
      simp only [step] at h
      split at h
      · rename_i hc
        cases h
        refine ⟨?_, by simp⟩
        show isWord (c :: read).reverse = true
        rw [List.reverse_cons]
        exact isWord_append_singleton hs hc
      · -- the word is complete
        obtain ⟨⟨ls', s''⟩, hgap, heq⟩ := Option.map_eq_some_iff.mp h
        cases heq
        obtain ⟨hin, hnamed⟩ := inWord_stepGap hgap
        exact ⟨hin, List.forall_mem_cons.mpr ⟨Token.wellNamed_ofWord hs, hnamed⟩⟩
  | dash start =>
      simp only [step] at h
      split at h
      · cases h
        exact ⟨trivial, by simp [Token.WellNamed]⟩
      · cases h

/-- Every name in the tokens of a text is a term. -/
theorem wellNamed_run {cs : List Char} : ∀ {s : Scan} {pos : Nat} {ls : List Lexeme},
    s.InWord → s.run pos cs = .ok ls → ∀ l ∈ ls, l.token.WellNamed := by
  induction cs with
  | nil =>
      intro s pos ls hs h
      cases s with
      | gap b =>
          cases h
          exact fun _ hl => nomatch hl
      | word start read =>
          cases h
          exact List.forall_mem_singleton.mpr (Token.wellNamed_ofWord hs)
      | dash start => cases h
  | cons c cs ih =>
      intro s pos ls hs h
      rw [run] at h
      split at h
      · cases h
      · -- what the step hands out is well-named, and the rest is by induction
        rename_i ls₁ s' hstep
        obtain ⟨hs', hnamed⟩ := inWord_step hs hstep
        split at h
        · rename_i rest hrun
          cases h
          exact List.forall_mem_append.mpr ⟨hnamed, ih hs' hrun⟩
        · cases h

end Scan

/-! ## A word is read to its end -/

/-- The number of bytes of some characters. -/
def byteCount (cs : List Char) : Nat := (String.ofList cs).utf8ByteSize

theorem byteCount_cons (c : Char) (cs : List Char) :
    byteCount (c :: cs) = c.utf8Size + byteCount cs := by
  simp [byteCount]

/-- A word right before these characters ends there. -/
def EndsWord (cs : List Char) : Prop := ∀ c ∈ cs.head?, isWordChar c = false

namespace Scan

/-- A first character adds the lexemes that it completes. -/
theorem run_cons {s s' : Scan} {pos : Nat} {c : Char} {cs : List Char}
    {ls ls' : List Lexeme} (hstep : s.step pos c = some (ls, s'))
    (hrun : s'.run (pos + c.utf8Size) cs = .ok ls') : s.run pos (c :: cs) = .ok (ls ++ ls') := by
  rw [run, hstep]
  simp only [hrun]

/-- Where no word character follows, the end of a word is read like a gap. -/
theorem run_endsWord {cs : List Char} (hend : EndsWord cs) {pos : Nat} {ls : List Lexeme}
    (h : run (gap true) pos cs = .ok ls) (start : Nat) (read : List Char) :
    run (word start read) pos cs = .ok (wordLexeme start pos read :: ls) := by
  cases cs with
  | nil =>
      cases h
      rfl
  | cons c cs =>
      have hc : isWordChar c = false := hend c rfl
      rw [run] at h
      split at h
      · cases h
      · rename_i ls₁ s' hgap
        split at h
        · rename_i rest hrest
          cases h
          have hgap : stepGap pos c = some (ls₁, s') := hgap
          have hstep : (word start read).step pos c =
              some (wordLexeme start pos read :: ls₁, s') := by
            simp [Scan.step, hc, hgap]
          exact run_cons hstep hrest
        · cases h

/-- Inside a word the scanner goes on to the end of the word. -/
theorem run_word {w cs : List Char} {ls : List Lexeme} (hend : EndsWord cs) (start : Nat) :
    ∀ {pos : Nat} (read : List Char), w.all isWordChar = true →
      run (gap true) (pos + byteCount w) cs = .ok ls →
      run (word start read) pos (w ++ cs) =
        .ok (⟨Token.ofWord (read.reverse ++ w), start, pos + byteCount w⟩ :: ls) := by
  induction w with
  | nil =>
      intro pos read _ h
      rw [List.append_nil]
      exact run_endsWord hend h start read
  | cons c w ih =>
      intro pos read hw h
      rw [List.all_cons, Bool.and_eq_true] at hw
      rw [byteCount_cons, ← Nat.add_assoc] at h ⊢
      have hstep : (word start read).step pos c = some ([], word start (c :: read)) := by
        simp [Scan.step, hw.1]
      have hrun := ih (c :: read) hw.2 h
      rw [List.reverse_cons, List.append_assoc] at hrun
      exact run_cons hstep hrun

end Scan

/-! ## Lexing from the right -/

/-- From a gap the characters are cut into lexemes with the given tokens. -/
def Lexes (cs : List Char) (ts : List Token) : Prop :=
  ∀ b pos, ∃ ls, Scan.run (.gap b) pos cs = .ok ls ∧ ls.map Lexeme.token = ts

namespace Lexes

variable {cs : List Char} {ts : List Token}

theorem nil : Lexes [] [] := fun _ _ => ⟨[], rfl, rfl⟩

/-- A character that is read in a gap without opening anything. -/
theorem cons {c : Char} (h : Lexes cs ts) (us : List Token)
    (hstep : ∀ pos, ∃ ls, Scan.stepGap pos c = some (ls, .gap false) ∧
      ls.map Lexeme.token = us) : Lexes (c :: cs) (us ++ ts) := by
  intro b pos
  obtain ⟨ls, hls, rfl⟩ := hstep pos
  obtain ⟨ls', hrun, rfl⟩ := h false (pos + c.utf8Size)
  refine ⟨ls ++ ls', Scan.run_cons hls hrun, ?_⟩
  rw [List.map_append]

/-- A sign before a text is read as one token more. -/
theorem sign {c : Char} {t : Token} (h : Lexes cs ts) (hc : Token.ofSign? c = some t)
    (hsign : (isWordStart c || isBlank c || c == '-') = false) : Lexes (c :: cs) (t :: ts) := by
  refine h.cons [t] fun pos => ⟨[⟨t, pos, pos + c.utf8Size⟩], ?_, rfl⟩
  simp only [Bool.or_eq_false_iff, beq_eq_false_iff_ne] at hsign
  simp [Scan.stepGap, hsign, hc]

theorem blank (h : Lexes cs ts) : Lexes (' ' :: cs) ts :=
  h.cons [] fun _ => ⟨[], rfl, rfl⟩

/-- An arrow before a text is read as the conditional. -/
theorem arrow (h : Lexes cs ts) : Lexes ('-' :: '>' :: cs) (.operator .conditional :: ts) := by
  intro b pos
  obtain ⟨ls, hrun, rfl⟩ := h false (pos + 1 + 1)
  have hhead : (Scan.dash pos).step (pos + 1) '>' =
      some ([⟨.operator .conditional, pos, pos + 1 + 1⟩], .gap false) := rfl
  have hdash : (Scan.gap b).step pos '-' = some ([], .dash pos) := rfl
  exact ⟨_, Scan.run_cons hdash (Scan.run_cons hhead hrun), rfl⟩

/-- A word before a text is read as one token, if the text does not go on with it. -/
theorem word {w : List Char} (h : Lexes cs ts) (hcs : EndsWord cs) (hw : isWord w = true) :
    Lexes (w ++ cs) (Token.ofWord w :: ts) := by
  cases w with
  | nil => cases hw
  | cons c w =>
      rw [isWord, Bool.and_eq_true] at hw
      intro b pos
      obtain ⟨ls, hrun, rfl⟩ := h true (pos + c.utf8Size + byteCount w)
      have hstep : (Scan.gap b).step pos c = some ([], .word pos [c]) := by
        simp [Scan.step, Scan.stepGap, hw.1]
      exact ⟨_, Scan.run_cons hstep (Scan.run_word hcs pos [c] hw.2 hrun), rfl⟩

/-- A term in front of a text is read as a name. -/
theorem term {w : String} (h : Lexes cs ts) (hcs : EndsWord cs) (hw : isTerm w = true) :
    Lexes (w.toList ++ cs) (.word w :: ts) := by
  have hword := h.word hcs (Bool.and_eq_true _ _ ▸ hw).1
  rw [Token.ofWord_of_isTermChars hw, String.ofList_toList] at hword
  exact hword

end Lexes

end SequentCalculus
