import SequentCalculus.Proofs.Cutting

/-! # Segmentations — what the lexemes of a text have to be

    A segmentation is described by its ranges alone (`Segments`).  They are not empty,
    they stand in order and apart, what they leave out is blank, each of them holds
    characters that write its token, and a range that holds a word holds all of it.

    Nothing here speaks of a scanner or of the order in which a text is read.  The
    segmentations of two neighbouring texts can be joined unless a word goes on across the
    border (`Segments.append`), and what stands behind the first ranges is segmented by the
    others (`Segments.drop`).  So the segmentations of a text are the ways to cut it
    (`segments_iff_cut`), and there is at most one. -/

namespace SequentCalculus

/-! ## How tokens are written -/

/-- The word that a quantifier may be written as. -/
def Quantifier.word : Quantifier → String
  | universal => "forall"
  | existential => "exists"

namespace Token

/-- The signs, each with the token that it stands for. -/
def signs : List (String × Token) :=
  [("(", .leftParen), (")", .rightParen), ("<", .leftAngle), (">", .rightAngle), (",", .comma),
    (";", .semicolon), ("~", .negation), ("¬", .negation), ("&", .operator .conjunction),
    ("∧", .operator .conjunction), ("∨", .operator .disjunction), ("->", .operator .conditional),
    ("→", .operator .conditional), ("∀", .quantifier .universal), ("∃", .quantifier .existential)]

/-- The reserved words, each with the token that it stands for. -/
def reservedWords : List (String × Token) :=
  [("not", .negation), ("and", .operator .conjunction), ("or", .operator .disjunction),
    ("v", .operator .disjunction), ("implies", .operator .conditional),
    ("forall", .quantifier .universal), ("exists", .quantifier .existential)]

/-- The characters write the token: as a sign, as a reserved word, as a quantifier glued
    to a term, or as a name. -/
inductive Writes : List Char → Token → Prop
  | sign {cs : List Char} {t : Token} (h : (String.ofList cs, t) ∈ signs) : Writes cs t
  | reserved {cs : List Char} {t : Token} (h : (String.ofList cs, t) ∈ reservedWords) :
      Writes cs t
  | glued (k : Quantifier) {x : List Char} (hx : isTermChars x = true) :
      Writes (k.word.toList ++ x) (.binder k (String.ofList x))
  | name {w : List Char} (hw : isTermChars w = true) : Writes w (.word (String.ofList w))

/-- A sign is a single character or the arrow. -/
theorem sign_cases {cs : List Char} {t : Token} (h : (String.ofList cs, t) ∈ signs) :
    (∃ c, cs = [c] ∧ ofSign? c = some t) ∨ cs = ['-', '>'] ∧ t = .operator .conditional := by
  have hsigns : ∀ e ∈ signs, e = ("->", .operator .conditional) ∨
      e.1.toList.length = 1 ∧ e.1.toList.head?.bind ofSign? = some e.2 := by decide
  rcases hsigns _ h with heq | ⟨hlength, hsign⟩
  · obtain ⟨hcs, rfl⟩ := Prod.mk.inj heq
    rw [← String.toList_ofList (l := cs), hcs]
    exact Or.inr ⟨rfl, rfl⟩
  · rw [String.toList_ofList] at hlength hsign
    obtain ⟨c, rfl⟩ := List.length_eq_one_iff.mp hlength
    exact Or.inl ⟨c, rfl, hsign⟩

theorem mem_signs_of_ofSign? {c : Char} {t : Token} (h : ofSign? c = some t) :
    (String.ofList [c], t) ∈ signs := by
  rw [ofSign?.eq_def] at h
  split at h <;> cases h <;> decide

/-- No sign belongs to a word. -/
theorem isWordChar_of_ofSign? {c : Char} {t : Token} (h : ofSign? c = some t) :
    isWordChar c = false := by
  rw [ofSign?.eq_def] at h
  split at h <;> cases h <;> rfl

/-- A quantifier glued to a term is a binder. -/
theorem ofWord_glued (k : Quantifier) {x : List Char} (hx : isTermChars x = true) :
    ofWord (k.word.toList ++ x) = .binder k (String.ofList x) := by
  cases x with
  | nil => cases hx
  | cons c cs =>
      cases k with
      | universal => exact if_pos hx
      | existential => exact if_pos hx

/-- What writes a token is a sign or a word, and a word writes what it is read as. -/
theorem Writes.cases {cs : List Char} {t : Token} (h : Writes cs t) :
    (String.ofList cs, t) ∈ signs ∨ isWord cs = true ∧ t = ofWord cs := by
  cases h with
  | sign h => exact Or.inl h
  | reserved h =>
      have hread : ∀ e ∈ reservedWords, isWord e.1.toList = true ∧ e.2 = ofWord e.1.toList := by
        decide
      have hcs := hread _ h
      rw [String.toList_ofList] at hcs
      exact Or.inr hcs
  | @glued k x hx =>
      have hall : x.all isWordChar = true :=
        List.all_eq_true.mpr fun c hc => isWordChar_of_isWord (Bool.and_eq_true_iff.mp hx).1 hc
      refine Or.inr ⟨?_, (ofWord_glued k hx).symm⟩
      cases k with
      | universal => exact hall
      | existential => exact hall
  | name hw => exact Or.inr ⟨(Bool.and_eq_true_iff.mp hw).1, (ofWord_of_isTermChars hw).symm⟩

theorem Writes.ne_nil {cs : List Char} {t : Token} (h : Writes cs t) : cs ≠ [] := by
  rintro rfl
  rcases h.cases with hsign | ⟨hword, -⟩
  · rcases sign_cases hsign with ⟨c, hc, -⟩ | ⟨hc, -⟩ <;> cases hc
  · cases hword

/-- Every word writes what it is read as. -/
theorem writes_ofWord {w : List Char} (h : isWord w = true) : Writes w (ofWord w) := by
  have hname : (Token.word (String.ofList w)).WellNamed → Writes w (.word (String.ofList w)) := by
    intro hw
    exact .name (isTerm_ofList.symm.trans hw)
  have hnamed := wellNamed_ofWord h
  revert hnamed
  fun_cases ofWord w with
  | case1 | case2 | case3 | case4 | case5 | case6 | case7 => exact fun _ => .reserved (by decide)
  | case8 x hne hx => exact fun _ => .glued .universal hx
  | case10 x hne hx => exact fun _ => .glued .existential hx
  | case9 | case11 | case12 => exact hname

end Token

/-! ## Segmentations -/

/-- A word right behind these characters starts there. -/
def StartsWord (cs : List Char) : Prop := ∀ c ∈ cs.getLast?, isWordChar c = false

namespace Lexeme

/-- In the text `cs` that begins at byte `pos`, the range of the lexeme holds `part`. -/
structure Holds (l : Lexeme) (pos : Nat) (cs before part after : List Char) : Prop where
  text : cs = before ++ (part ++ after)
  start : l.start = pos + byteCount before
  stop : l.stop = l.start + byteCount part

/-- The byte is in the range of the lexeme. -/
def Includes (l : Lexeme) (n : Nat) : Prop := l.start ≤ n ∧ n < l.stop

end Lexeme

/-- The lexemes segment the text that begins at byte `pos`. -/
structure Segments (pos : Nat) (cs : List Char) (ls : List Lexeme) : Prop where
  nonempty : ∀ l ∈ ls, l.start < l.stop
  increasing : ls.Pairwise fun l m => l.start < m.start
  disjoint : ls.Pairwise fun l m => ∀ n, ¬ (l.Includes n ∧ m.Includes n)
  /-- A character that is in no range is blank. -/
  blank : ∀ before c after, cs = before ++ c :: after →
    (∀ l ∈ ls, ¬ l.Includes (pos + byteCount before)) → isBlank c = true
  /-- Every range holds characters that write its token, and words are not cut. -/
  written : ∀ l ∈ ls, ∃ before part after, l.Holds pos cs before part after ∧
    Token.Writes part l.token ∧ (isWord part = true → StartsWord before ∧ EndsWord after)

/-! ## Borders of words -/

/-- Before a word no other word ends. -/
theorem not_endsWord_append {w : List Char} (hw : isWord w = true) (after : List Char) :
    ¬ EndsWord (w ++ after) := by
  intro hend
  cases w with
  | nil => cases hw
  | cons c w =>
      have hc := hend c rfl
      rw [isWordChar_of_isWord hw List.mem_cons_self] at hc
      cases hc

/-- Behind a word no other word starts. -/
theorem not_startsWord_append {w : List Char} (hw : isWord w = true) (before : List Char) :
    ¬ StartsWord (before ++ w) := by
  intro hstart
  have hne : w ≠ [] := by
    rintro rfl
    cases hw
  have hlast : w.getLast hne ∈ (before ++ w).getLast? := by
    rw [List.getLast?_append, List.getLast?_eq_some_getLast hne]
    rfl
  have hc := hstart _ hlast
  rw [isWordChar_of_isWord hw (List.getLast_mem hne)] at hc
  cases hc

theorem EndsWord.append {after cs : List Char} (hafter : EndsWord after)
    (hcs : after = [] → EndsWord cs) : EndsWord (after ++ cs) := by
  cases after with
  | nil => exact hcs rfl
  | cons c after => exact hafter

theorem StartsWord.append {part before : List Char} (hbefore : StartsWord before)
    (hpart : before = [] → StartsWord part) : StartsWord (part ++ before) := by
  intro c hc
  rw [List.getLast?_append] at hc
  cases hlast : before.getLast? with
  | none =>
      rw [hlast, Option.none_or] at hc
      exact hpart (List.getLast?_eq_none_iff.mp hlast) c hc
  | some d =>
      rw [hlast] at hc
      exact hbefore c (hlast ▸ hc)

theorem StartsWord.of_append {part before : List Char} (h : StartsWord (part ++ before)) :
    StartsWord before := by
  intro c hc
  refine h c ?_
  rw [List.getLast?_append, Option.mem_def.mp hc]
  rfl

theorem startsWord_singleton {c : Char} (hc : isWordChar c = false) : StartsWord [c] := by
  intro d hd
  cases hd
  exact hc

/-! ## Joining segmentations -/

/-- A lexeme stays where it is if the text goes on. -/
theorem Lexeme.Holds.append_right {l : Lexeme} {pos : Nat} {part before w after : List Char}
    (h : l.Holds pos part before w after) (cs : List Char) :
    l.Holds pos (part ++ cs) before w (after ++ cs) where
  text := by rw [h.text, List.append_assoc, List.append_assoc]
  start := h.start
  stop := h.stop

/-- A lexeme moves along behind a text. -/
theorem Lexeme.Holds.append_left {l : Lexeme} {pos : Nat} {part cs before w after : List Char}
    (h : l.Holds (pos + byteCount part) cs before w after) :
    l.Holds pos (part ++ cs) (part ++ before) w after where
  text := by rw [h.text, List.append_assoc]
  start := by rw [h.start, byteCount_append, Nat.add_assoc]
  stop := h.stop

namespace Segments

variable {pos : Nat} {part cs : List Char} {ls ms : List Lexeme}

/-- Every range ends where the next one begins, or before. -/
theorem ordered (h : Segments pos cs ls) : ls.Pairwise fun l m => l.stop ≤ m.start := by
  refine (h.increasing.and h.disjoint).imp_of_mem ?_
  rintro l m - hm ⟨hlt, hdisjoint⟩
  refine Nat.le_of_not_lt fun hshared => ?_
  exact hdisjoint m.start ⟨⟨Nat.le_of_lt hlt, hshared⟩, Nat.le_refl _, h.nonempty m hm⟩

/-- No lexeme starts before the text. -/
theorem le_start (h : Segments pos cs ls) {l : Lexeme} (hl : l ∈ ls) : pos ≤ l.start := by
  obtain ⟨before, w, after, hholds, -⟩ := h.written l hl
  rw [hholds.start]
  exact Nat.le_add_right _ _

theorem stop_le (h : Segments pos cs ls) {l : Lexeme} (hl : l ∈ ls) :
    l.stop ≤ pos + byteCount cs := by
  obtain ⟨before, w, after, hholds, -⟩ := h.written l hl
  rw [hholds.stop, hholds.start, hholds.text, byteCount_append, byteCount_append]
  omega

/-- It is enough that the ranges stand one behind the other. -/
theorem of_ordered (hnonempty : ∀ l ∈ ls, l.start < l.stop)
    (hordered : ls.Pairwise fun l m => l.stop ≤ m.start)
    (hblank : ∀ before c after, cs = before ++ c :: after →
      (∀ l ∈ ls, ¬ l.Includes (pos + byteCount before)) → isBlank c = true)
    (hwritten : ∀ l ∈ ls, ∃ before part after, l.Holds pos cs before part after ∧
      Token.Writes part l.token ∧ (isWord part = true → StartsWord before ∧ EndsWord after)) :
    Segments pos cs ls where
  nonempty := hnonempty
  increasing := hordered.imp_of_mem fun hl _ hle => Nat.lt_of_lt_of_le (hnonempty _ hl) hle
  disjoint := by
    refine hordered.imp ?_
    rintro l m hle n ⟨hl, hm⟩
    exact Nat.not_lt.mpr (Nat.le_trans hle hm.1) hl.2
  blank := hblank
  written := hwritten

/-- Two neighbouring texts are segmented together, unless a word goes on across the border. -/
theorem append (hpart : Segments pos part ls) (hcs : Segments (pos + byteCount part) cs ms)
    (hborder : StartsWord part ∨ EndsWord cs) : Segments pos (part ++ cs) (ls ++ ms) := by
  refine of_ordered ?_ ?_ ?_ ?_
  · exact List.forall_mem_append.mpr ⟨hpart.nonempty, hcs.nonempty⟩
  · refine List.pairwise_append.mpr ⟨hpart.ordered, hcs.ordered, ?_⟩
    intro l hl m hm
    exact Nat.le_trans (hpart.stop_le hl) (hcs.le_start hm)
  · intro before c after heq hfree
    obtain ⟨hfreePart, hfree⟩ := List.forall_mem_append.mp hfree
    -- the character is in the second text or in the first one
    have hsecond : ∀ mid, before = part ++ mid → cs = mid ++ c :: after → isBlank c = true := by
      rintro mid rfl hmid
      rw [byteCount_append, ← Nat.add_assoc] at hfree
      exact hcs.blank mid c after hmid hfree
    rcases List.append_eq_append_iff.mp heq with ⟨mid, hbefore, hmid⟩ | ⟨rest, hrest, hmid⟩
    · exact hsecond mid hbefore hmid
    · cases rest with
      | nil =>
          rw [List.append_nil] at hrest
          exact hsecond [] (hrest.symm.trans (List.append_nil _).symm) hmid.symm
      | cons d rest =>
          cases hmid
          exact hpart.blank before c rest hrest hfreePart
  · refine List.forall_mem_append.mpr ⟨?_, ?_⟩
    · intro l hl
      obtain ⟨before, w, after, hholds, hwrites, hword⟩ := hpart.written l hl
      refine ⟨before, w, after ++ cs, hholds.append_right cs, hwrites, ?_⟩
      intro hw
      obtain ⟨hstart, hend⟩ := hword hw
      refine ⟨hstart, hend.append ?_⟩
      rintro rfl
      refine hborder.resolve_left ?_
      rw [hholds.text, List.append_nil]
      exact not_startsWord_append hw before
    · intro l hl
      obtain ⟨before, w, after, hholds, hwrites, hword⟩ := hcs.written l hl
      refine ⟨part ++ before, w, after, hholds.append_left, hwrites, ?_⟩
      intro hw
      obtain ⟨hstart, hend⟩ := hword hw
      refine ⟨hstart.append ?_, hend⟩
      rintro rfl
      refine hborder.resolve_right ?_
      rw [hholds.text]
      exact not_endsWord_append hw after

theorem nil (pos : Nat) : Segments pos [] [] where
  nonempty := List.forall_mem_nil _
  increasing := .nil
  disjoint := .nil
  blank := by
    intro before c after heq
    cases before <;> cases heq
  written := List.forall_mem_nil _

theorem of_isBlank {c : Char} (hc : isBlank c = true) (pos : Nat) : Segments pos [c] [] where
  nonempty := List.forall_mem_nil _
  increasing := .nil
  disjoint := .nil
  blank := by
    intro before d after heq _
    have hd : d ∈ [c] := by
      rw [heq]
      exact List.mem_append_right _ List.mem_cons_self
    rw [List.mem_singleton.mp hd]
    exact hc
  written := List.forall_mem_nil _

/-- Characters that write a token are a segment of their own. -/
theorem of_writes {t : Token} (h : Token.Writes part t) (pos : Nat) :
    Segments pos part [⟨t, pos, pos + byteCount part⟩] where
  nonempty := by
    refine List.forall_mem_singleton.mpr ?_
    exact Nat.lt_add_of_pos_right (byteCount_pos h.ne_nil)
  increasing := List.pairwise_singleton _ _
  disjoint := List.pairwise_singleton _ _
  blank := by
    -- every character is in the range
    rintro before c after rfl hfree
    refine absurd ⟨Nat.le_add_right _ _, ?_⟩ (hfree _ (List.mem_singleton.mpr rfl))
    have hpos : 0 < byteCount (c :: after) := byteCount_pos (List.cons_ne_nil c after)
    show pos + byteCount before < pos + byteCount (before ++ c :: after)
    rw [byteCount_append]
    omega
  written := by
    refine List.forall_mem_singleton.mpr ⟨[], part, [], ⟨?_, rfl, rfl⟩, h, ?_⟩
    · rw [List.append_nil, List.nil_append]
    · intro _
      refine ⟨?_, ?_⟩
      · intro c hc
        cases hc
      · intro c hc
        cases hc

end Segments

/-! ## Taking a segmentation apart -/

/-- The part of the text before a byte is the beginning of every longer one. -/
theorem exists_append_of_byteCount_le {part cs before rest : List Char}
    (heq : part ++ cs = before ++ rest) (hle : byteCount part ≤ byteCount before) :
    ∃ mid, before = part ++ mid ∧ cs = mid ++ rest := by
  rcases List.append_eq_append_iff.mp heq with hmid | ⟨rest', rfl, rfl⟩
  · exact hmid
  · cases rest' with
    | nil => exact ⟨[], by rw [List.append_nil, List.append_nil], rfl⟩
    | cons c rest' =>
        have hpos := byteCount_pos (List.cons_ne_nil c rest')
        rw [byteCount_append] at hle
        omega

namespace Segments

variable {pos : Nat} {part cs : List Char} {ls ms : List Lexeme}

/-- What stands behind the first ranges is segmented by the others. -/
theorem drop (h : Segments pos (part ++ cs) (ls ++ ms))
    (hls : ∀ l ∈ ls, l.stop ≤ pos + byteCount part)
    (hms : ∀ m ∈ ms, pos + byteCount part ≤ m.start) :
    Segments (pos + byteCount part) cs ms where
  nonempty := (List.forall_mem_append.mp h.nonempty).2
  increasing := (List.pairwise_append.mp h.increasing).2.1
  disjoint := (List.pairwise_append.mp h.disjoint).2.1
  blank := by
    rintro before c after rfl hfree
    refine h.blank (part ++ before) c after (List.append_assoc _ _ _).symm ?_
    rw [byteCount_append, ← Nat.add_assoc]
    refine List.forall_mem_append.mpr ⟨?_, hfree⟩
    intro l hl hin
    exact Nat.not_lt.mpr (Nat.le_trans (hls l hl) (Nat.le_add_right _ _)) hin.2
  written := by
    intro m hm
    obtain ⟨before, w, after, hholds, hwrites, hword⟩ :=
      h.written m (List.mem_append_right ls hm)
    -- the lexeme starts behind the part, so its place begins with the part
    have hle : byteCount part ≤ byteCount before := by
      have hstart := hms m hm
      rw [hholds.start] at hstart
      omega
    obtain ⟨mid, rfl, hmid⟩ := exists_append_of_byteCount_le hholds.text hle
    refine ⟨mid, w, after, ⟨hmid, ?_, hholds.stop⟩, hwrites, ?_⟩
    · rw [hholds.start, byteCount_append, Nat.add_assoc]
    · intro hw
      obtain ⟨hstart, hend⟩ := hword hw
      exact ⟨hstart.of_append, hend⟩

end Segments

/-! ## Segmentations are the ways to cut a text -/

/-- Whatever writes a token is cut off, if it is not a word that goes on. -/
theorem Cut.of_writes {pos : Nat} {part cs : List Char} {t : Token} {ls : List Lexeme}
    (h : Token.Writes part t) (hend : isWord part = true → EndsWord cs)
    (hcut : Cut (pos + byteCount part) cs ls) :
    Cut pos (part ++ cs) (⟨t, pos, pos + byteCount part⟩ :: ls) := by
  rcases h.cases with hsign | ⟨hword, rfl⟩
  · rcases Token.sign_cases hsign with ⟨c, rfl, hc⟩ | ⟨rfl, rfl⟩
    · rw [byteCount_singleton] at hcut ⊢
      exact .sign hc hcut
    · exact .arrow hcut
  · exact .word hword (hend hword) hcut

/-- What can be cut off token by token is segmented. -/
theorem Cut.segments {pos : Nat} {cs : List Char} {ls : List Lexeme} (h : Cut pos cs ls) :
    Segments pos cs ls := by
  induction h with
  | done pos => exact .nil pos
  | @blank pos c cs ls hc h ih =>
      rw [← byteCount_singleton] at ih
      have hborder := startsWord_singleton (isWordChar_of_isBlank hc)
      exact (Segments.of_isBlank hc pos).append ih (Or.inl hborder)
  | @sign pos c t cs ls hc h ih =>
      rw [← byteCount_singleton] at ih ⊢
      have hborder := startsWord_singleton (Token.isWordChar_of_ofSign? hc)
      have hwrites := Token.Writes.sign (Token.mem_signs_of_ofSign? hc)
      exact (Segments.of_writes hwrites pos).append ih (Or.inl hborder)
  | @arrow pos cs ls h ih =>
      have hborder : StartsWord ['-', '>'] := by
        intro c hc
        cases hc
        rfl
      have hwrites : Token.Writes ['-', '>'] (.operator .conditional) := .sign (by decide)
      exact (Segments.of_writes hwrites pos).append ih (Or.inl hborder)
  | @word pos w cs ls hw hend h ih =>
      exact (Segments.of_writes (Token.writes_ofWord hw) pos).append ih (Or.inr hend)

/-- A segmented text begins with a blank before all ranges, or with the first range. -/
theorem Segments.head_cases {pos : Nat} {c : Char} {cs : List Char} {ls : List Lexeme}
    (h : Segments pos (c :: cs) ls) :
    (isBlank c = true ∧ Segments (pos + c.utf8Size) cs ls) ∨
      ∃ t part after ms, c :: cs = part ++ after ∧
        ls = ⟨t, pos, pos + byteCount part⟩ :: ms ∧ Token.Writes part t ∧
        (isWord part = true → EndsWord after) ∧ Segments (pos + byteCount part) after ms := by
  -- a character that no lexeme covers is blank, and the rest is segmented
  have hbehind : (∀ l ∈ ls, pos + byteCount [c] ≤ l.start) →
      isBlank c = true ∧ Segments (pos + c.utf8Size) cs ls := by
    intro hstart
    refine ⟨h.blank [] c cs rfl ?_, ?_⟩
    · intro l hl hin
      have hle := Nat.le_trans (hstart l hl) hin.1
      rw [byteCount_singleton] at hle
      exact Nat.not_lt.mpr hle (Nat.lt_add_of_pos_right c.utf8Size_pos)
    · have hcons : Segments pos ([c] ++ cs) ([] ++ ls) := h
      rw [← byteCount_singleton]
      exact hcons.drop (List.forall_mem_nil _) hstart
  cases ls with
  | nil => exact Or.inl (hbehind (List.forall_mem_nil _))
  | cons l ms =>
      obtain ⟨hfirst, -⟩ := List.pairwise_cons.mp h.ordered
      obtain ⟨before, part, after, hholds, hwrites, hword⟩ := h.written l List.mem_cons_self
      cases before with
      | nil =>
          -- the first lexeme starts here
          have hstart : l.start = pos := hholds.start
          have hstop : l.stop = pos + byteCount part := by rw [hholds.stop, hstart]
          refine Or.inr ⟨l.token, part, after, ms, hholds.text, ?_, hwrites,
            fun hw => (hword hw).2, ?_⟩
          · rw [← hstop, ← hstart]
          · have hcons : Segments pos (part ++ after) ([l] ++ ms) := hholds.text ▸ h
            refine hcons.drop ?_ ?_
            · exact List.forall_mem_singleton.mpr (Nat.le_of_eq hstop)
            · rw [← hstop]
              exact hfirst
      | cons d before =>
          -- it starts further on, and so do those behind it
          refine Or.inl (hbehind (List.forall_mem_cons.mpr ?_))
          have hle : pos + byteCount [c] ≤ l.start := by
            obtain ⟨rfl, -⟩ := List.cons.inj hholds.text
            rw [hholds.start, byteCount_singleton, byteCount_cons]
            omega
          refine ⟨hle, ?_⟩
          intro m hm
          have hlt := h.nonempty l List.mem_cons_self
          exact Nat.le_trans hle (Nat.le_trans (Nat.le_of_lt hlt) (hfirst m hm))

/-- An empty text has no lexemes. -/
theorem Segments.eq_nil {pos : Nat} {ls : List Lexeme} (h : Segments pos [] ls) : ls = [] := by
  cases ls with
  | nil => rfl
  | cons l ls =>
      have hlt := h.nonempty l List.mem_cons_self
      have hstart := h.le_start List.mem_cons_self
      have hstop : l.stop ≤ pos := h.stop_le List.mem_cons_self
      omega

/-- A segmented text can be cut off token by token. -/
theorem Segments.cut {cs : List Char} : ∀ {pos : Nat} {ls : List Lexeme}, Segments pos cs ls →
    Cut pos cs ls := by
  -- each step takes off a blank or a range that is not empty
  induction hn : cs.length using Nat.strongRecOn generalizing cs with
  | ind n ih =>
      intro pos ls h
      cases cs with
      | nil =>
          rw [h.eq_nil]
          exact .done pos
      | cons c cs =>
          rcases h.head_cases with
            ⟨hc, hrest⟩ | ⟨t, part, after, ms, heq, rfl, hwrites, hend, hrest⟩
          · exact .blank hc (ih cs.length (hn ▸ Nat.lt_succ_self _) rfl hrest)
          · rw [heq] at hn ⊢
            have hlt : after.length < n := by
              have hpos := List.length_pos_iff.mpr hwrites.ne_nil
              rw [List.length_append] at hn
              omega
            exact Cut.of_writes hwrites hend (ih after.length hlt rfl hrest)

/-- The segmentations of a text are the ways to cut it. -/
theorem segments_iff_cut {pos : Nat} {cs : List Char} {ls : List Lexeme} :
    Segments pos cs ls ↔ Cut pos cs ls :=
  ⟨Segments.cut, Cut.segments⟩

/-- Lexing is segmentation. -/
theorem lex_eq_ok_iff_segments {cs : List Char} {ls : List Lexeme} :
    lex cs = .ok ls ↔ Segments 0 cs ls :=
  lex_eq_ok_iff.trans segments_iff_cut.symm

/-- **A text has one segmentation at most.**  Lexing segments a text whenever that is
    possible, and there is only one way to do it. -/
theorem lex_segments_uniquely (cs : List Char) :
    (∀ ls, lex cs = .ok ls → Segments 0 cs ls) ∧
      ((∃ ls, lex cs = .ok ls) ↔ ∃ ls, Segments 0 cs ls) ∧
      ∀ ls ms, Segments 0 cs ls → Segments 0 cs ms → ls = ms := by
  refine ⟨fun ls h => lex_eq_ok_iff_segments.mp h, ?_, ?_⟩
  · exact exists_congr fun ls => lex_eq_ok_iff_segments
  · intro ls ms hls hms
    have heq : Except.ok ls = Except.ok ms :=
      (lex_eq_ok_iff_segments.mpr hls).symm.trans (lex_eq_ok_iff_segments.mpr hms)
    exact Except.ok.inj heq

/-- A glued quantifier, a sign of two bytes and an arrow next to words. -/
theorem lex_segments_uniquely_glued :
    lex "forallx ¬P->v_1".toList =
        .ok [⟨.binder .universal "x", 0, 7⟩, ⟨.negation, 8, 10⟩, ⟨.word "P", 10, 11⟩,
          ⟨.operator .conditional, 11, 13⟩, ⟨.word "v_1", 13, 16⟩] ∧
      Segments 0 "forallx ¬P->v_1".toList
        [⟨.binder .universal "x", 0, 7⟩, ⟨.negation, 8, 10⟩, ⟨.word "P", 10, 11⟩,
          ⟨.operator .conditional, 11, 13⟩, ⟨.word "v_1", 13, 16⟩] := by
  have hlex : lex "forallx ¬P->v_1".toList =
      .ok [⟨.binder .universal "x", 0, 7⟩, ⟨.negation, 8, 10⟩, ⟨.word "P", 10, 11⟩,
        ⟨.operator .conditional, 11, 13⟩, ⟨.word "v_1", 13, 16⟩] := by rfl
  exact ⟨hlex, (lex_segments_uniquely _).1 _ hlex⟩

end SequentCalculus
