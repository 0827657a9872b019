import SequentCalculus.Toml.Quoted

/-! # Quoting — strings are read back from every notation

    The writer picks one of six notations for a string.  Two of them are literal
    and hold the string as it is; in the four basic ones some characters are
    escaped (`Spells`).  Between three quotes nothing in the string may look like
    the end, so no three quotes stand there in a row.

    Whatever a string holds, it is read back from what is written for it
    (`readString?_quote`). -/

namespace SequentCalculus.Toml

/-! ## Basic strings -/

/-- The characters that may stand unescaped in every basic string. -/
def IsRaw (c : Char) : Prop := isControl c = false ∧ c ≠ '"' ∧ c ≠ '\\'

/-- How many quotes in a row may stand unescaped in a basic string, depending on
    whether it stands between three quotes. -/
def quoteRoom (isLong : Bool) : Nat := if isLong then 2 else 0

/-- A text that may begin with `room` unescaped quotes spells a string. -/
inductive Spells (isLong : Bool) : Nat → List Char → List Char → Prop
  | nil {room : Nat} : Spells isLong room [] []
  | raw {room : Nat} {c : Char} {text cs : List Char} (hc : IsRaw c)
      (h : Spells isLong (quoteRoom isLong) text cs) : Spells isLong room (c :: text) (c :: cs)
  | line {room : Nat} {text cs : List Char} (hlong : isLong = true)
      (h : Spells isLong (quoteRoom isLong) text cs) :
      Spells isLong room ('\n' :: text) ('\n' :: cs)
  | quote {room : Nat} {text cs : List Char} (h : Spells isLong room text cs) :
      Spells isLong (room + 1) ('"' :: text) ('"' :: cs)
  | letter {room : Nat} {e c : Char} {text cs : List Char} (he : letterEscape? e = some c)
      (h : Spells isLong (quoteRoom isLong) text cs) :
      Spells isLong room ('\\' :: e :: text) (c :: cs)
  | code {room : Nat} {d₁ d₂ d₃ d₄ c : Char} {text cs : List Char}
      (hd : codePoint? [d₁, d₂, d₃, d₄] = some c)
      (h : Spells isLong (quoteRoom isLong) text cs) :
      Spells isLong room ('\\' :: 'u' :: d₁ :: d₂ :: d₃ :: d₄ :: text) (c :: cs)

/-- A text that spells characters is read as them, up to the closing quotation
    mark. -/
theorem readBasic_of_spells {text cs : List Char} (h : Spells false 0 text cs)
    (rest : List Char) : readBasic (text ++ '"' :: rest) = some (cs, rest) := by
  generalize hroom : 0 = room at h
  induction h with
  | nil => rfl
  | raw hc _ ih =>
      obtain ⟨hcontrol, hquote, hslash⟩ := hc
      rw [List.cons_append, readBasic, ih rfl]
      · simp [hcontrol, hslash, withChar]
      · exact hquote
      · exact fun _ _ h => absurd h hslash
  | line hlong => cases hlong
  | quote => cases hroom
  | letter he _ ih =>
      rw [List.cons_append, List.cons_append, readBasic.eq_def]
      simp only [he, ih rfl]
      rfl
  | code hd _ ih =>
      have hu : letterEscape? 'u' = none := rfl
      simp only [List.cons_append]
      rw [readBasic.eq_def]
      simp only [hu, hd, ih rfl]
      rfl

/-- Between three quotes a quote is read as itself unless two more follow. -/
theorem readBasicLines_quote {cs : List Char} (h : ∀ rest, cs ≠ '"' :: '"' :: rest) :
    readBasicLines .off ('"' :: cs) = withChar '"' (readBasicLines .off cs) := by
  rw [readBasicLines.eq_def]
  simp
  split
  · exact absurd rfl (h _)
  · exact absurd rfl (h _)
  · exact absurd rfl (h _)
  · rfl

/-- If only one quote may stand in front, two do not. -/
theorem Spells.ne_quotes {isLong : Bool} {room : Nat} {text cs : List Char}
    (h : Spells isLong room text cs) (hroom : room < 2) (more : List Char) :
    text ≠ '"' :: '"' :: more := by
  rintro rfl
  cases h with
  | raw hc => exact hc.2.1 rfl
  | quote h =>
      cases h with
      | raw hc => exact hc.2.1 rfl
      | quote => omega

/-- So is one of several lines, up to three quotation marks. -/
theorem readBasicLines_of_spells {room : Nat} {text cs : List Char} (h : Spells true room text cs)
    (hroom : room ≤ 2) (rest : List Char) :
    readBasicLines .off (text ++ '"' :: '"' :: '"' :: '\n' :: rest) = some (cs, '\n' :: rest) := by
  induction h with
  | nil => rfl
  | @raw _ c text cs hc _ ih =>
      obtain ⟨hcontrol, hquote, hslash⟩ := hc
      have hline : c ≠ '\n' := by
        rintro rfl
        cases hcontrol
      have hreturn : c ≠ '\r' := by
        rintro rfl
        cases hcontrol
      rw [List.cons_append, readBasicLines.eq_def]
      simp [hquote, hline, hreturn, hslash, hcontrol, ih (Nat.le_refl 2), withChar]
  | line _ _ ih =>
      rw [List.cons_append, readBasicLines.eq_def]
      simp [ih (Nat.le_refl 2), withChar]
  | @quote room text cs h ih =>
      have ih := ih (Nat.le_of_succ_le hroom)
      -- the closing quotes may be the next to come, or follow one more quote
      by_cases hend : text = [] ∨ text = ['"']
      · rcases hend with rfl | rfl
        · cases h
          rfl
        · cases h with
          | raw hc => exact absurd rfl hc.2.1
          | quote h =>
              cases h
              rfl
      · rw [List.cons_append, readBasicLines_quote, ih]
        · rfl
        · intro more heq
          match text with
          | [] => exact hend (Or.inl rfl)
          | [a] =>
              cases heq
              exact hend (Or.inr rfl)
          | a :: b :: text =>
              cases heq
              exact h.ne_quotes hroom text rfl
  | @letter _ e c text cs he _ ih =>
      have hblank : ¬ (e = ' ' ∨ e = '\t' ∨ e = '\n' ∨ e = '\r') := by
        rintro (rfl | rfl | rfl | rfl) <;> cases he
      rw [List.cons_append, List.cons_append, readBasicLines.eq_def]
      simp [hblank, he, ih (Nat.le_refl 2), withChar]
  | code hd _ ih =>
      have hu : letterEscape? 'u' = none := rfl
      simp only [List.cons_append]
      rw [readBasicLines.eq_def]
      simp [hu, hd, ih (Nat.le_refl 2), withChar]

/-! ## Texts that spell a string -/

theorem hexDigit?_upperHex : ∀ n < 16, hexDigit? (upperHex n) = some n := by
  decide

/-- The hexadecimal digits of a character name it. -/
theorem codePoint?_upperHex {c : Char} (hc : c.toNat < 0x80) :
    codePoint? ['0', '0', upperHex (c.toNat / 16), upperHex (c.toNat % 16)] = some c := by
  have hzero : hexDigit? '0' = some 0 := by decide
  have hhigh := hexDigit?_upperHex (c.toNat / 16) (by omega)
  have hlow := hexDigit?_upperHex (c.toNat % 16) (by omega)
  have hfold : ['0', '0', upperHex (c.toNat / 16), upperHex (c.toNat % 16)].foldlM
      (fun n d => (hexDigit? d).map (16 * n + ·)) 0 = some c.toNat := by
    simp [hzero, hhigh, hlow, Nat.div_add_mod]
  rw [codePoint?, hfold]
  exact dif_pos c.valid

theorem toNat_lt_of_isControl {c : Char} (h : isControl c = true) : c.toNat < 0x80 := by
  simp only [isControl, Bool.or_eq_true, Bool.and_eq_true, decide_eq_true_eq, beq_iff_eq] at h
  omega

/-- An escaped character is spelled. -/
theorem spells_escapeChar {isLong : Bool} {room : Nat} {text cs : List Char} (c : Char)
    (h : Spells isLong (quoteRoom isLong) text cs) :
    Spells isLong room (escapeChar c ++ text) (c :: cs) := by
  unfold escapeChar
  split
  case h_8 =>
    split
    · rename_i hcontrol
      refine .code ?_ h
      exact codePoint?_upperHex (toNat_lt_of_isControl hcontrol)
    · rename_i hquote hslash hcontrol
      exact .raw ⟨by simpa using hcontrol, hquote, hslash⟩ h
  all_goals exact .letter rfl h

/-- A character that needs no escape but for a tab is spelled. -/
theorem spells_escapeTab {isLong : Bool} {room : Nat} {text cs : List Char} {c : Char}
    (hc : IsRaw c) (h : Spells isLong (quoteRoom isLong) text cs) :
    Spells isLong room (escapeTab c ++ text) (c :: cs) := by
  unfold escapeTab
  split
  · rename_i htab
    subst htab
    exact .letter rfl h
  · exact .raw hc h

theorem spells_flatMap_escapeTab {cs : List Char} (hcs : ∀ c ∈ cs, IsRaw c) :
    Spells false 0 (cs.flatMap escapeTab) cs := by
  induction cs with
  | nil => exact .nil
  | cons c cs ih =>
      obtain ⟨hc, hrest⟩ := List.forall_mem_cons.mp hcs
      rw [List.flatMap_cons]
      exact spells_escapeTab hc (ih hrest)

/-- Escaping every character spells a text. -/
theorem spells_flatMap_escapeChar {isLong : Bool} {room : Nat} (cs : List Char) :
    Spells isLong room (cs.flatMap escapeChar) cs := by
  induction cs generalizing room with
  | nil => exact .nil
  | cons c cs ih =>
      rw [List.flatMap_cons]
      exact spells_escapeChar c ih

/-- Escaping what several lines need spells a text, with quotation marks counted. -/
theorem spells_escapeLines {n : Nat} (hn : n ≤ 2) (cs : List Char) :
    Spells true (2 - n) (escapeLines n cs) cs := by
  fun_induction escapeLines n cs with
  | case1 => exact .nil
  | case2 n c cs h ih =>
      obtain ⟨rfl, hlt⟩ := h
      rw [show 2 - n = 2 - (n + 1) + 1 by omega]
      exact .quote (ih hlt)
  | case3 n cs h ih => exact .line rfl (ih (Nat.zero_le 2))
  | case4 n c cs _ _ ih => exact spells_escapeChar c (ih (Nat.zero_le 2))

/-! ## Three quotes in a row -/

theorem hasTriple_of_append {q : Char} (as : List Char) {cs : List Char}
    (h : hasTriple q (as ++ cs) = false) : hasTriple q cs = false := by
  induction as with
  | nil => exact h
  | cons a as ih =>
      refine ih ?_
      rw [List.cons_append] at h
      revert h
      match as ++ cs with
      | [] | [_] => exact fun _ => rfl
      | b :: c :: ds =>
          rw [hasTriple, Bool.or_eq_false_iff]
          exact And.right

/-- A string without three quotes in a row, not even behind `n` quotes, is
    spelled by escaping its tabs. -/
theorem spells_flatMap_escapeTab_of_hasTriple {n room : Nat} (hroom : n + room = 2) {cs : List Char}
    (htriple : hasTriple '"' (List.replicate n '"' ++ cs) = false)
    (hcs : ∀ c ∈ cs, c = '"' ∨ c = '\n' ∨ IsRaw c) :
    Spells true room (cs.flatMap escapeTab) cs := by
  induction cs generalizing n room with
  | nil => exact .nil
  | cons c cs ih =>
      obtain ⟨hc, hrest⟩ := List.forall_mem_cons.mp hcs
      have hafter : Spells true 2 (cs.flatMap escapeTab) cs := by
        refine ih (Nat.zero_add 2) ?_ hrest
        exact hasTriple_of_append (List.replicate n '"' ++ [c]) (by simpa using htriple)
      rw [List.flatMap_cons]
      rcases hc with rfl | rfl | hc
      · have hnext : List.replicate n '"' ++ '"' :: cs = List.replicate (n + 1) '"' ++ cs := by
          rw [List.replicate_succ', List.append_assoc]
          rfl
        rw [hnext] at htriple
        -- a quote takes up room, and without room it would be the third in a row
        cases room with
        | zero =>
            obtain rfl : n = 2 := hroom
            cases htriple
        | succ room => exact .quote (ih (by omega) htriple hrest)
      · exact .line rfl hafter
      · exact spells_escapeTab hc hafter

/-! ## Literal strings -/

/-- A literal is read as it stands, up to its closing mark. -/
theorem readLiteral_append {cs : List Char} (hcs : ∀ c ∈ cs, isControl c = false ∧ c ≠ '\'')
    (rest : List Char) : readLiteral (cs ++ '\'' :: rest) = some (cs, rest) := by
  induction cs with
  | nil => rfl
  | cons c cs ih =>
      obtain ⟨⟨hcontrol, hquote⟩, hcs⟩ := List.forall_mem_cons.mp hcs
      rw [List.cons_append, readLiteral, ih hcs]
      · simp [hcontrol, withChar]
      · exact hquote

/-- Between three quotes a character is read as itself unless it is the first of
    three quotes. -/
theorem readLiteralLines_cons {c : Char} {cs : List Char} (hc : isControl c = false ∨ c = '\n')
    (h : c = '\'' → ∀ rest, cs ≠ '\'' :: '\'' :: rest) :
    readLiteralLines (c :: cs) = withChar c (readLiteralLines cs) := by
  rw [readLiteralLines.eq_def]
  split
  case h_1 heq => cases heq
  case h_2 heq | h_3 heq | h_4 heq =>
    cases heq
    exact absurd rfl (h rfl _)
  case h_5 heq | h_6 heq =>
    cases heq
    rfl
  case h_7 hline heq =>
    cases heq
    rw [hc.resolve_right hline]
    rfl

/-- So is a literal of several lines, up to three marks. -/
theorem readLiteralLines_append {cs : List Char} (htriple : hasTriple '\'' cs = false)
    (hcs : ∀ c ∈ cs, isControl c = false ∨ c = '\n') (rest : List Char) :
    readLiteralLines (cs ++ '\'' :: '\'' :: '\'' :: '\n' :: rest) = some (cs, '\n' :: rest) := by
  induction cs with
  | nil => rfl
  | cons c cs ih =>
      obtain ⟨hc, hrest⟩ := List.forall_mem_cons.mp hcs
      have ih := ih (hasTriple_of_append [c] htriple) hrest
      by_cases hend : c = '\'' ∧ (cs = [] ∨ cs = ['\''])
      · obtain ⟨rfl, rfl | rfl⟩ := hend
        · rfl
        · rfl
      · rw [List.cons_append, readLiteralLines_cons hc, ih]
        · rfl
        · rintro rfl more heq
          match cs with
          | [] => exact hend ⟨rfl, Or.inl rfl⟩
          | [a] =>
              cases heq
              exact hend ⟨rfl, Or.inr rfl⟩
          | a :: b :: cs =>
              cases heq
              cases htriple

/-! ## All notations -/

/-- A basic string is read as the characters it spells. -/
theorem readString?_basic {text cs : List Char} (h : Spells false 0 text cs) (rest : List Char) :
    readString? (['"'] ++ text ++ ['"'] ++ '\n' :: rest) = some (cs, '\n' :: rest) := by
  have htext : ['"'] ++ text ++ ['"'] ++ '\n' :: rest = '"' :: (text ++ '"' :: '\n' :: rest) := by
    simp
  rw [htext, ← readBasic_of_spells h, readString?.eq_def]
  split
  case h_1 heq =>
    cases h with
    | nil => cases heq
    | raw hc =>
        simp only [List.cons_append, List.cons.injEq, true_and] at heq
        exact absurd heq.1 hc.2.1
    | line hlong => cases hlong
    | letter | code => cases heq
  case h_3 heq =>
    cases heq
    rfl
  case h_2 heq | h_4 heq => cases heq
  case h_5 h _ => exact absurd rfl (h _)

/-- A literal string is read as it stands. -/
theorem readString?_literal {cs : List Char} (hcs : ∀ c ∈ cs, isControl c = false ∧ c ≠ '\'')
    (rest : List Char) :
    readString? (['\''] ++ cs ++ ['\''] ++ '\n' :: rest) = some (cs, '\n' :: rest) := by
  have htext : ['\''] ++ cs ++ ['\''] ++ '\n' :: rest = '\'' :: (cs ++ '\'' :: '\n' :: rest) := by
    simp
  rw [htext, ← readLiteral_append hcs, readString?.eq_def]
  split
  case h_2 heq =>
    cases cs with
    | nil => cases heq
    | cons c cs =>
        simp only [List.cons_append, List.cons.injEq, true_and] at heq
        exact absurd heq.1 (hcs c List.mem_cons_self).2
  case h_4 heq =>
    cases heq
    rfl
  case h_1 heq | h_3 heq => cases heq
  case h_5 h => exact absurd rfl (h _)

/-- What is put in front of the first line is dropped again. -/
theorem skipFirstLineEnd_start (cs : List Char) {text : List Char}
    (h : '\n' ∉ cs → ∀ c ∈ text.head?, isControl c = false) :
    skipFirstLineEnd ((if cs.contains '\n' = true then ['\n'] else []) ++ text) = text := by
  split
  · rfl
  · rename_i hline
    have h := h (by simpa using hline)
    rw [List.nil_append, skipFirstLineEnd.eq_def]
    split
    · cases h _ rfl
    · cases h _ rfl
    · rfl

/-- What spells a single line does not begin with a control character. -/
theorem Spells.isControl_head {isLong : Bool} {room : Nat} {text cs : List Char}
    (h : Spells isLong room text cs) (hcs : '\n' ∉ cs) (rest : List Char) :
    ∀ c ∈ (text ++ '"' :: rest).head?, isControl c = false := by
  cases h with
  | raw hc =>
      rintro _ ⟨⟩
      exact hc.1
  | line => exact absurd List.mem_cons_self hcs
  | nil | quote | letter | code =>
      rintro _ ⟨⟩
      rfl

/-- A basic string of several lines is read as the characters it spells, whether it
    begins with a line end or not. -/
theorem readString?_basicLines {text cs : List Char} (h : Spells true 2 text cs)
    (rest : List Char) :
    readString? (['"', '"', '"'] ++ (if cs.contains '\n' = true then ['\n'] else []) ++ text ++
      ['"', '"', '"'] ++ '\n' :: rest) = some (cs, '\n' :: rest) := by
  have hskip := skipFirstLineEnd_start cs fun hline =>
    h.isControl_head hline ('"' :: '"' :: '\n' :: rest)
  simp only [List.append_assoc, List.cons_append, List.nil_append]
  rw [readString?, hskip, readBasicLines_of_spells h (Nat.le_refl 2)]

/-- A literal string of several lines is read as it stands. -/
theorem readString?_literalLines {cs : List Char} (htriple : hasTriple '\'' cs = false)
    (hcs : ∀ c ∈ cs, isControl c = false ∨ c = '\n') (rest : List Char) :
    readString? (['\'', '\'', '\''] ++ (if cs.contains '\n' = true then ['\n'] else []) ++ cs ++
      ['\'', '\'', '\''] ++ '\n' :: rest) = some (cs, '\n' :: rest) := by
  have hhead : '\n' ∉ cs → ∀ c ∈ (cs ++ '\'' :: '\'' :: '\'' :: '\n' :: rest).head?,
      isControl c = false := by
    intro hline
    cases cs with
    | nil =>
        rintro _ ⟨⟩
        rfl
    | cons c cs =>
        rintro _ ⟨⟩
        refine (hcs c List.mem_cons_self).resolve_right ?_
        rintro rfl
        exact hline List.mem_cons_self
  simp only [List.append_assoc, List.cons_append, List.nil_append]
  rw [readString?, skipFirstLineEnd_start cs hhead, readLiteralLines_append htriple hcs]

theorem isControl_of_plain {cs : List Char}
    (h : (cs.any fun c => isControl c && c != '\n') = false) :
    ∀ c ∈ cs, isControl c = false ∨ c = '\n' := by
  intro c hc
  have h := List.any_eq_false.mp h c hc
  rw [Bool.and_eq_true, Classical.not_and_iff_not_or_not, Bool.not_eq_true, bne_iff_ne,
    Classical.not_not] at h
  exact h

/-- Every string is read back from its notation, up to the end of the line. -/
theorem readString?_quote (s : String) (rest : List Char) :
    readString? ((quote s).toList ++ '\n' :: rest) = some (s.toList, '\n' :: rest) := by
  unfold quote
  simp only [String.toList_ofList]
  split
  · -- one line without marks or backslashes: a basic string
    rename_i h
    simp only [Bool.and_eq_true, Bool.not_eq_true', List.contains_eq_mem,
      decide_eq_false_iff_not] at h
    obtain ⟨⟨⟨hplain, hline⟩, hquote⟩, hslash⟩ := h
    refine readString?_basic (spells_flatMap_escapeTab fun c hc => ⟨?_, ?_, ?_⟩) rest
    · exact (isControl_of_plain hplain c hc).resolve_right fun h => hline (h ▸ hc)
    · exact fun h => hquote (h ▸ hc)
    · exact fun h => hslash (h ▸ hc)
  · split
    · rename_i h
      simp only [Bool.and_eq_true, Bool.not_eq_true', List.contains_eq_mem,
        decide_eq_false_iff_not] at h
      obtain ⟨⟨hplain, hline⟩, hquote⟩ := h
      refine readString?_literal (fun c hc => ⟨?_, ?_⟩) rest
      · exact (isControl_of_plain hplain c hc).resolve_right fun h => hline (h ▸ hc)
      · exact fun h => hquote (h ▸ hc)
    · split
      · -- one line without single marks: a literal
        rename_i h
        simp only [Bool.and_eq_true, Bool.not_eq_true', List.contains_eq_mem,
          decide_eq_false_iff_not] at h
        obtain ⟨⟨hplain, hslash⟩, htriple⟩ := h
        refine readString?_basicLines (spells_flatMap_escapeTab_of_hasTriple (n := 0) rfl
          htriple fun c hc => ?_) rest
        by_cases hquote : c = '"'
        · exact Or.inl hquote
        · rcases isControl_of_plain hplain c hc with hcontrol | hline
          · exact Or.inr (Or.inr ⟨hcontrol, hquote, fun h => hslash (h ▸ hc)⟩)
          · exact Or.inr (Or.inl hline)
      · split
        · rename_i h
          simp only [Bool.and_eq_true, Bool.not_eq_true'] at h
          exact readString?_literalLines h.2 (isControl_of_plain h.1) rest
        · split
          · -- no backslash and no three marks in a row: a basic string of several lines
            rename_i hlong
            have := readString?_basicLines (spells_escapeLines (Nat.zero_le 2) s.toList) rest
            rw [if_pos hlong] at this
            exact this
          · exact readString?_basic (spells_flatMap_escapeChar _) rest

end SequentCalculus.Toml
