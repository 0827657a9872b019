import SequentCalculus.Proofs.Lexing

/-! # Cutting a text — which parts of it are lexemes

    A text consists of words, signs and blanks, and `Cut` says which of its bytes each
    lexeme takes.  The relation does not mention the scanner: a word ends only where
    no word character follows, and a lexeme covers what it was read from.  The scanner
    cuts a text in exactly this way (`lex_eq_ok_iff`), so lexemes never begin or end
    inside a character (`Cut.delimits`). -/

namespace SequentCalculus

/-! ## Bytes and boundaries -/

theorem byteCount_append (cs ds : List Char) :
    byteCount (cs ++ ds) = byteCount cs + byteCount ds := by
  simp [byteCount]

theorem byteCount_singleton (c : Char) : byteCount [c] = c.utf8Size := by
  rw [byteCount_cons]
  rfl

theorem byteCount_toList (s : String) : byteCount s.toList = s.utf8ByteSize := by
  rw [byteCount, String.ofList_toList]

/-- Only the empty text has no bytes. -/
theorem byteCount_pos {cs : List Char} (h : cs ≠ []) : 0 < byteCount cs := by
  cases cs with
  | nil => exact absurd rfl h
  | cons c cs =>
      rw [byteCount_cons]
      exact Nat.lt_of_lt_of_le c.utf8Size_pos (Nat.le_add_right _ _)

/-- A number of bytes after which a character of the text ends or begins. -/
def IsBoundary (cs : List Char) (n : Nat) : Prop :=
  ∃ before after, cs = before ++ after ∧ n = byteCount before

/-- A boundary lies within the text. -/
theorem IsBoundary.le {cs : List Char} {n : Nat} (h : IsBoundary cs n) : n ≤ byteCount cs := by
  obtain ⟨before, after, rfl, rfl⟩ := h
  rw [byteCount_append]
  exact Nat.le_add_right _ _

/-- A boundary is a position between characters in the encoded text. -/
theorem IsBoundary.isValid {s : String} {n : Nat} (h : IsBoundary s.toList n) :
    String.Pos.Raw.IsValid s ⟨n⟩ := by
  obtain ⟨before, after, heq, rfl⟩ := h
  refine String.Pos.Raw.isValid_iff_exists_append.mpr ⟨.ofList before, .ofList after, ?_, rfl⟩
  rw [← String.ofList_append, ← heq, String.ofList_toList]

/-- A range between two boundaries of the text. -/
structure Delimits (cs : List Char) (start stop : Nat) : Prop where
  isBoundary_start : IsBoundary cs start
  isBoundary_stop : IsBoundary cs stop
  le : start ≤ stop

/-- A part in the middle of a text is delimited by the bytes before it and up to its
    end. -/
theorem delimits_append (before part after : List Char) :
    Delimits (before ++ (part ++ after)) (byteCount before)
      (byteCount before + byteCount part) where
  isBoundary_start := ⟨before, part ++ after, rfl, rfl⟩
  isBoundary_stop :=
    ⟨before ++ part, after, (List.append_assoc _ _ _).symm, (byteCount_append _ _).symm⟩
  le := Nat.le_add_right _ _

/-! ## What a text is cut into -/

/-- The text from byte `pos` on consists of the lexemes and of blanks between them.
    A word is not cut short. -/
inductive Cut : Nat → List Char → List Lexeme → Prop
  | done (pos : Nat) : Cut pos [] []
  | blank {pos : Nat} {c : Char} {cs : List Char} {ls : List Lexeme} (hc : isBlank c = true)
      (h : Cut (pos + c.utf8Size) cs ls) : Cut pos (c :: cs) ls
  | sign {pos : Nat} {c : Char} {t : Token} {cs : List Char} {ls : List Lexeme}
      (hc : Token.ofSign? c = some t) (h : Cut (pos + c.utf8Size) cs ls) :
      Cut pos (c :: cs) (⟨t, pos, pos + c.utf8Size⟩ :: ls)
  | arrow {pos : Nat} {cs : List Char} {ls : List Lexeme} (h : Cut (pos + 1 + 1) cs ls) :
      Cut pos ('-' :: '>' :: cs) (⟨.operator .conditional, pos, pos + 1 + 1⟩ :: ls)
  | word {pos : Nat} {w cs : List Char} {ls : List Lexeme} (hw : isWord w = true)
      (hend : EndsWord cs) (h : Cut (pos + byteCount w) cs ls) :
      Cut pos (w ++ cs) (⟨Token.ofWord w, pos, pos + byteCount w⟩ :: ls)

/-- The text consists of words, signs and blanks. -/
def Lexable (cs : List Char) : Prop := ∃ ls, Cut 0 cs ls

/-- Lexemes stand between boundaries of the text. -/
theorem Cut.delimits {pos : Nat} {cs : List Char} {ls : List Lexeme} (h : Cut pos cs ls) :
    ∀ before, pos = byteCount before → ∀ l ∈ ls, Delimits (before ++ cs) l.start l.stop := by
  -- the text before the next lexeme grows by the part that was cut off
  have hnext : ∀ (part : List Char) {cs : List Char} {ls : List Lexeme} {before : List Char},
      (∀ before', byteCount before + byteCount part = byteCount before' →
        ∀ l ∈ ls, Delimits (before' ++ cs) l.start l.stop) →
      ∀ l ∈ ls, Delimits (before ++ (part ++ cs)) l.start l.stop := by
    intro part cs ls before ih
    rw [← List.append_assoc]
    exact ih (before ++ part) (byteCount_append before part).symm
  induction h with
  | done pos => exact fun _ _ => List.forall_mem_nil _
  | @blank pos c cs ls hc h ih =>
      rintro before rfl
      rw [← byteCount_singleton] at ih
      exact hnext [c] ih
  | @sign pos c t cs ls hc h ih =>
      rintro before rfl
      rw [← byteCount_singleton] at ih ⊢
      exact List.forall_mem_cons.mpr ⟨delimits_append before [c] cs, hnext [c] ih⟩
  | @arrow pos cs ls h ih =>
      rintro before rfl
      exact List.forall_mem_cons.mpr
        ⟨delimits_append before ['-', '>'] cs, hnext ['-', '>'] ih⟩
  | @word pos w cs ls hw hend h ih =>
      rintro before rfl
      exact List.forall_mem_cons.mpr ⟨delimits_append before w cs, hnext w ih⟩

/-- No blank is a letter, a digit or the underscore. -/
theorem isWordChar_of_isBlank {c : Char} (h : isBlank c = true) : isWordChar c = false := by
  rw [Bool.eq_false_iff]
  intro hword
  simp only [isBlank, Bool.or_eq_true, Bool.and_eq_true, decide_eq_true_eq, beq_iff_eq] at h
  rcases (Bool.or_eq_true _ _).mp hword with halphanum | hunderscore
  · have hrange : 48 ≤ c.toNat ∧ c.toNat ≤ 57 ∨ 65 ≤ c.toNat ∧ c.toNat ≤ 90 ∨
        97 ≤ c.toNat ∧ c.toNat ≤ 122 := by
      rcases (Bool.or_eq_true _ _).mp halphanum with halpha | hdigit
      · rcases (Bool.or_eq_true _ _).mp halpha with hupper | hlower
        · exact Or.inr (Or.inl (of_decide_eq_true hupper))
        · obtain ⟨hlo, hhi⟩ := (Bool.and_eq_true _ _).mp hlower
          exact Or.inr (Or.inr ⟨of_decide_eq_true hlo, of_decide_eq_true hhi⟩)
      · obtain ⟨hlo, hhi⟩ := (Bool.and_eq_true _ _).mp hdigit
        exact Or.inl ⟨of_decide_eq_true hlo, of_decide_eq_true hhi⟩
    omega
  · cases eq_of_beq hunderscore
    simp at h

/-! ## The scanner cuts correctly -/

namespace Scan

/-- The characters read of an unfinished word or arrow are cut together with those
    that follow. -/
def Reads (pos : Nat) (cs : List Char) (ls : List Lexeme) : Scan → Prop
  | gap _ => Cut pos cs ls
  | word start read => isWord read.reverse = true → pos = start + byteCount read.reverse →
      Cut start (read.reverse ++ cs) ls
  | dash start => pos = start + 1 → Cut start ('-' :: cs) ls

/-- A step from a gap cuts off what it hands out, before what the scan reads from
    there. -/
theorem cut_stepGap {pos : Nat} {c : Char} {cs : List Char} {ls rest : List Lexeme} {s : Scan}
    (h : stepGap pos c = some (ls, s)) (hrest : s.Reads (pos + c.utf8Size) cs rest) :
    Cut pos (c :: cs) (ls ++ rest) := by
  unfold stepGap at h
  split at h
  · rename_i hc
    cases h
    refine hrest ?_ ?_
    · simpa [isWord] using hc
    · rw [List.reverse_singleton, byteCount_singleton]
  · split at h
    · rename_i hc
      cases h
      exact .blank hc hrest
    · split at h
      · rename_i hc
        cases h
        subst hc
        exact hrest rfl
      · split at h
        · rename_i t ht
          cases h
          exact .sign ht hrest
        · cases h

/-- A step of the scanner takes the next part of the text. -/
theorem Reads.step {s s' : Scan} {pos : Nat} {c : Char} {cs : List Char}
    {ls rest : List Lexeme} (h : s.step pos c = some (ls, s'))
    (hrest : s'.Reads (pos + c.utf8Size) cs rest) : s.Reads pos (c :: cs) (ls ++ rest) := by
  cases s with
  | gap b => exact cut_stepGap h hrest
  | word start read =>
      rintro hword rfl
      simp only [Scan.step] at h
      split at h
      · rename_i hc
        cases h
        have hword' : isWord (c :: read).reverse = true := by
          rw [List.reverse_cons]
          exact isWord_append_singleton hword hc
        have hpos : start + byteCount read.reverse + c.utf8Size =
            start + byteCount (c :: read).reverse := by
          rw [List.reverse_cons, byteCount_append, byteCount_singleton, Nat.add_assoc]
        have hcut := hrest hword' hpos
        rw [List.reverse_cons, List.append_assoc] at hcut
        exact hcut
      · -- the word ended before this character
        -- the word goes on
        rename_i hc
        obtain ⟨⟨ls', s''⟩, hgap, heq⟩ := Option.map_eq_some_iff.mp h
        cases heq
        refine .word hword ?_ (cut_stepGap hgap hrest)
        rintro c' ⟨⟩
        exact Bool.eq_false_iff.mpr hc
  | dash start =>
      -- a dash is half of an arrow
      rintro rfl
      simp only [Scan.step] at h
      split at h
      · rename_i hc
        cases h
        subst hc
        exact .arrow hrest
      · cases h

/-- What a scan hands out is what it reads. -/
theorem reads_run {cs : List Char} {s : Scan} {pos : Nat} {ls : List Lexeme}
    (h : s.run pos cs = .ok ls) : s.Reads pos cs ls := by
  induction cs generalizing s pos ls with
  | nil =>
      cases s with
      | gap b =>
          cases h
          exact .done pos
      | word start read =>
          cases h
          rintro hword rfl
          exact .word hword (fun _ hc => nomatch hc) (.done _)
      | dash start => cases h
  | cons c cs ih =>
      rw [run] at h
      split at h
      · cases h
      · rename_i ls₁ s' hstep
        split at h
        · rename_i rest hrun
          cases h
          exact Reads.step hstep (ih hrun)
        · cases h

/-! ## Everything that can be cut is -/

/-- A sign is a token of its own. -/
theorem step_of_ofSign? {c : Char} {t : Token} (h : Token.ofSign? c = some t) (b : Bool)
    (pos : Nat) : (gap b).step pos c = some ([⟨t, pos, pos + c.utf8Size⟩], gap false) := by
  unfold Token.ofSign? at h
  split at h <;> cases h <;> rfl

theorem isWordStart_of_isBlank {c : Char} (h : isBlank c = true) : isWordStart c = false := by
  rw [Bool.eq_false_iff]
  intro hstart
  have hword := isWordChar_of_isBlank h
  rw [isWordChar_of_isWordStart hstart] at hword
  cases hword

/-- A blank is passed over. -/
theorem step_of_isBlank {c : Char} (h : isBlank c = true) (b : Bool) (pos : Nat) :
    (gap b).step pos c = some ([], gap false) := by
  simp [Scan.step, stepGap, isWordStart_of_isBlank h, h]

end Scan

/-- A text that can be cut into tokens is cut so by the scan. -/
theorem Cut.run_gap {pos : Nat} {cs : List Char} {ls : List Lexeme} (h : Cut pos cs ls) :
    ∀ b, Scan.run (.gap b) pos cs = .ok ls := by
  induction h with
  | done pos => exact fun _ => rfl
  | blank hc h ih =>
      intro b
      exact Scan.run_cons (Scan.step_of_isBlank hc b _) (ih false)
  | sign hc h ih =>
      intro b
      exact Scan.run_cons (Scan.step_of_ofSign? hc b _) (ih false)
  | @arrow pos cs ls h ih =>
      intro b
      have hdash : (Scan.gap b).step pos '-' = some ([], .dash pos) := rfl
      have hhead : (Scan.dash pos).step (pos + 1) '>' =
          some ([⟨.operator .conditional, pos, pos + 1 + 1⟩], .gap false) := rfl
      exact Scan.run_cons hdash (Scan.run_cons hhead (ih false))
  | @word pos w cs ls hw hend h ih =>
      intro b
      cases w with
      | nil => cases hw
      | cons c w =>
          rw [isWord, Bool.and_eq_true] at hw
          have hstep : (Scan.gap b).step pos c = some ([], .word pos [c]) := by
            simp [Scan.step, Scan.stepGap, hw.1]
          rw [byteCount_cons, ← Nat.add_assoc] at ih ⊢
          -- the first character opens the word and the rest goes on with it
          exact Scan.run_cons hstep (Scan.run_word hend pos [c] hw.2 (ih true))

/-- The scanner cuts every text that can be cut, and each in the one way there is. -/
theorem lex_eq_ok_iff {cs : List Char} {ls : List Lexeme} : lex cs = .ok ls ↔ Cut 0 cs ls :=
  ⟨fun h => Scan.reads_run h, fun h => h.run_gap false⟩

end SequentCalculus
