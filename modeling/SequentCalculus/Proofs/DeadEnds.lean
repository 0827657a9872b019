import SequentCalculus.Proofs.Cutting
import SequentCalculus.Proofs.Grammar

/-! # Where reading stops

    A text or a list of tokens is viable as far as something could follow that makes
    it acceptable.  The first item that ends this is its dead end, and what a
    diagnostic has to point at; if there is none, the items are only unfinished, and
    the diagnostic points behind them.

    Both halves of reading move on from item to item and never go back.  So they stop
    at the dead end, provided that they are never in a hopeless state before it: from
    every state there is a way to an acceptable end (`Scan.exists_accepts`,
    `Reading.exists_readAll_operand`).

    What is accepted is said by the grammar, and not by the reader: a text is cut as
    `Cut` says, and its tokens form what `Derives` and `Sequent.Derives` say. -/

namespace SequentCalculus

/-! ## Viable beginnings -/

section Viable

variable {α : Type}

/-- Some accepted list begins with these items. -/
def Viable (Accepted : List α → Prop) (xs : List α) : Prop := ∃ rest, Accepted (xs ++ rest)

/-- No accepted list goes on with `x` behind `before`, while `before` itself, and so
    every part of it from the beginning, is viable. -/
structure DeadEnd (Accepted : List α → Prop) (before : List α) (x : α) : Prop where
  viable : Viable Accepted before
  dead : ¬ Viable Accepted (before ++ [x])

/-- The items are not accepted as they are, but begin a longer list that is. -/
structure Unfinished (Accepted : List α → Prop) (xs : List α) : Prop where
  rejected : ¬ Accepted xs
  viable : ∃ rest, rest ≠ [] ∧ Accepted (xs ++ rest)

variable {Accepted : List α → Prop}

/-- What can be continued to something accepted and is not accepted is unfinished. -/
theorem Viable.unfinished {xs : List α} (h : Viable Accepted xs) (hxs : ¬ Accepted xs) :
    Unfinished Accepted xs := by
  obtain ⟨rest, hrest⟩ := h
  refine ⟨hxs, rest, ?_, hrest⟩
  rintro rfl
  rw [List.append_nil] at hrest
  exact hxs hrest

end Viable

/-! ## Where cutting a text stops -/

namespace Scan

/-- The characters from byte `pos` on are cut into lexemes. -/
def Accepts (s : Scan) (pos : Nat) (cs : List Char) : Prop := ∃ ls, s.run pos cs = .ok ls

/-- At the start the scan accepts the texts that can be lexed. -/
theorem accepts_eq_lexable : (gap false).Accepts 0 = Lexable :=
  funext fun _ => propext (exists_congr fun _ => lex_eq_ok_iff)

/-- A word or an arrow that has been begun may be ended at once. -/
theorem exists_accepts (s : Scan) (pos : Nat) : ∃ cs, s.Accepts pos cs := by
  cases s with
  | gap b => exact ⟨[], _, rfl⟩
  | word start read => exact ⟨[], _, rfl⟩
  | dash start => exact ⟨['>'], _, rfl⟩

/-- A step of the scan shifts what it accepts by a character. -/
theorem accepts_cons_iff {s s' : Scan} {pos : Nat} {c : Char} {ls : List Lexeme}
    (h : s.step pos c = some (ls, s')) (cs : List Char) :
    s.Accepts pos (c :: cs) ↔ s'.Accepts (pos + c.utf8Size) cs := by
  unfold Accepts
  rw [run, h]
  simp only
  cases s'.run (pos + c.utf8Size) cs with
  | error d => simp
  | ok rest => simp

theorem viable_cons_iff {s s' : Scan} {pos : Nat} {c : Char} {ls : List Lexeme}
    (h : s.step pos c = some (ls, s')) (cs : List Char) :
    Viable (s.Accepts pos) (c :: cs) ↔ Viable (s'.Accepts (pos + c.utf8Size)) cs :=
  exists_congr fun rest => accepts_cons_iff h (cs ++ rest)

/-- What stops the scanner behind a character that it can read stands further on. -/
theorem run_tail_eq_error {s s' : Scan} {pos : Nat} {c : Char} {cs : List Char}
    {ls : List Lexeme} {d : Diagnostic} (hstep : s.step pos c = some (ls, s'))
    (h : s.run pos (c :: cs) = .error d) : s'.run (pos + c.utf8Size) cs = .error d := by
  cases hrun : s'.run (pos + c.utf8Size) cs with
  | ok rest =>
      rw [run_cons hstep hrun] at h
      cases h
  | error d' =>
      simp only [run, hstep, hrun] at h
      exact h

/-- The scanner stops at the dead end, or behind the last character. -/
theorem run_eq_error {cs : List Char} {s : Scan} {pos : Nat} {d : Diagnostic}
    (h : s.run pos cs = .error d) :
    (∃ before c after, cs = before ++ c :: after ∧ DeadEnd (s.Accepts pos) before c ∧
      d.start = pos + byteCount before ∧ d.stop = pos + byteCount before + c.utf8Size) ∨
    (Viable (s.Accepts pos) cs ∧ d.start = pos + byteCount cs ∧ d.stop = pos + byteCount cs) := by
  induction cs generalizing s pos with
  | nil =>
      refine Or.inr ⟨s.exists_accepts pos, ?_⟩
      cases s with
      | gap b => cases h
      | word start read => cases h
      | dash start =>
          cases h
          exact ⟨rfl, rfl⟩
  | cons c cs ih =>
      cases hstep : s.step pos c with
      | none =>
          -- there was a way on before this character, and there is none with it
          have hdead : DeadEnd (s.Accepts pos) [] c := by
            refine ⟨s.exists_accepts pos, ?_⟩
            rintro ⟨rest, ls, hls⟩
            rw [List.nil_append, List.singleton_append, run, hstep] at hls
            cases hls
          rw [run, hstep] at h
          cases h
          exact Or.inl ⟨[], c, cs, rfl, hdead, rfl, rfl⟩
      | some r =>
          obtain ⟨ls, s'⟩ := r
          rcases ih (run_tail_eq_error hstep h) with
            ⟨before, c', after, rfl, hdead, hstart, hstop⟩ | ⟨hviable, hstart, hstop⟩
          · refine Or.inl ⟨c :: before, c', after, rfl, ⟨?_, ?_⟩, ?_, ?_⟩
            · exact (viable_cons_iff hstep before).mpr hdead.viable
            · exact fun hviable => hdead.dead ((viable_cons_iff hstep _).mp hviable)
            · rw [hstart, byteCount_cons, Nat.add_assoc]
            · rw [hstop, byteCount_cons, ← Nat.add_assoc pos]
          · refine Or.inr ⟨(viable_cons_iff hstep cs).mpr hviable, ?_, ?_⟩
            · rw [hstart, byteCount_cons, Nat.add_assoc]
            · rw [hstop, byteCount_cons, Nat.add_assoc]

end Scan

/-! ## From every reading to an end -/

namespace Reading

variable {r r' : Reading} {t : Token} {ts us : List Token}

/-- Some tokens complete the operand that the reading stands in. -/
def Completable (r : Reading) : Prop :=
  ∃ ts clause p, r.readAll ts = some ⟨r.target, r.outer, clause, .complete p⟩

/-- Where a step leads to a reading that can be completed, the reading before it can
    be. -/
theorem Completable.of_step (t : Token) (h : r.step t = some r') (htarget : r'.target = r.target)
    (houter : r'.outer = r.outer) (h' : r'.Completable) : r.Completable := by
  obtain ⟨ts, clause, p, hread⟩ := h'
  rw [htarget, houter] at hread
  exact ⟨t :: ts, clause, p, (readAll_cons h).trans hread⟩

/-- A term list may be closed after a term, and every operand may end as an atom
    with a term list. -/
theorem completable (r : Reading) : r.Completable := by
  obtain ⟨target, outer, clause, focus⟩ := r
  have hterms : ∀ c name ts, Completable ⟨target, outer, c, .terms name ts⟩ :=
    fun c _ _ => ⟨[.rightAngle], c, _, rfl⟩
  have hterm : ∀ c name ts, Completable ⟨target, outer, c, .term name ts⟩ :=
    fun c name ts => .of_step (.word "x") rfl rfl rfl (hterms c name _)
  have hpredicate : ∀ c name, Completable ⟨target, outer, c, .predicate name⟩ :=
    fun c name => .of_step .leftAngle rfl rfl rfl (hterm c name [])
  have hoperand : ∀ c, Completable ⟨target, outer, c, .operand⟩ :=
    fun c => .of_step (.word "A") rfl rfl rfl (hpredicate c _)
  cases focus with
  | operand => exact hoperand clause
  | binding k => exact .of_step (.word "x") rfl rfl rfl (hoperand _)
  | predicate name => exact hpredicate clause name
  | term name ts => exact hterm clause name ts
  | terms name ts => exact hterms clause name ts
  | complete p => exact ⟨[], clause, p, rfl⟩

/-- The open parentheses are closed one after the other. -/
theorem exists_readAll_close (target : Target) (outer : List Clause) (clause : Clause)
    (p : Formula) :
    ∃ ts c q, readAll ⟨target, outer, clause, .complete p⟩ ts =
      some ⟨target, [], c, .complete q⟩ := by
  induction outer generalizing clause p with
  | nil => exact ⟨[], clause, p, rfl⟩
  | cons c cs ih =>
      obtain ⟨ts, c', q, hread⟩ := ih c (clause.close p)
      have hstep : step ⟨target, c :: cs, clause, .complete p⟩ .rightParen =
          some ⟨target, cs, c, .complete (clause.close p)⟩ := rfl
      exact ⟨.rightParen :: ts, c', q, (readAll_cons hstep).trans hread⟩

/-- From every reading some tokens lead to a complete operand outside of all
    parentheses. -/
theorem exists_readAll_operand (r : Reading) :
    ∃ ts c p, r.readAll ts = some ⟨r.target, [], c, .complete p⟩ := by
  obtain ⟨ts, clause, p, hread⟩ := r.completable
  obtain ⟨us, c, q, hclose⟩ := exists_readAll_close r.target r.outer clause p
  exact ⟨ts ++ us, c, q, (readAll_append hread).trans hclose⟩

/-- A formula can always be completed. -/
theorem exists_readAll_formula? (h : r.target = .formula) :
    ∃ ts r' p, r.readAll ts = some r' ∧ r'.formula? = some p := by
  obtain ⟨ts, c, p, hread⟩ := r.exists_readAll_operand
  rw [h] at hread
  exact ⟨ts, _, _, hread, rfl⟩

/-- A first list is followed by an empty second one, and a second list may end. -/
theorem exists_readAll_sequent? (h : r.target ≠ .formula) :
    ∃ ts r' s, r.readAll ts = some r' ∧ r'.sequent? = some s := by
  obtain ⟨ts, c, p, hread⟩ := r.exists_readAll_operand
  cases htarget : r.target with
  | formula => exact absurd htarget h
  | antecedent done =>
      rw [htarget] at hread
      exact ⟨ts ++ [.semicolon], _, _, readAll_append hread, rfl⟩
  | consequent ant done =>
      rw [htarget] at hread
      have hstart : atListStart ⟨.consequent ant done, [], c, .complete p⟩ = false := by
        simp [atListStart]
      refine ⟨ts, _, ⟨ant, (c.close p :: done).reverse⟩, hread, ?_⟩
      simp only [sequent?, hstart]
      rfl

/-! ## A formula stays a formula -/

/-- A step at an operand keeps what is read, a formula or a sequent. -/
theorem target_stepOperand (h : r.stepOperand t = some r') :
    r'.target = .formula ↔ r.target = .formula := by
  unfold stepOperand at h
  split at h
  case h_6 =>
    split at h
    · rename_i htarget
      cases h
      simp [htarget]
    · cases h
  case h_7 => cases h
  all_goals
    cases h
    exact Iff.rfl

theorem target_stepAfterOperand {p : Formula} (h : r.stepAfterOperand p t = some r') :
    r'.target = .formula ↔ r.target = .formula := by
  unfold stepAfterOperand at h
  split at h
  · cases h
    exact Iff.rfl
  · split at h
    · cases h
      exact Iff.rfl
    · cases h
  · split at h
    · rename_i htarget
      cases h
      simp [htarget]
    · rename_i htarget
      cases h
      simp [htarget]
    · cases h
  · split at h
    · rename_i htarget
      cases h
      simp [htarget]
    · cases h
  · cases h

/-- No step changes what is read. -/
theorem target_step (h : r.step t = some r') : r'.target = .formula ↔ r.target = .formula := by
  unfold step at h
  split at h
  · exact target_stepOperand h
  · cases h
    exact Iff.rfl
  · cases h
  · cases h
    exact Iff.rfl
  · exact target_stepAfterOperand h
  · cases h
    exact Iff.rfl
  · cases h
  · cases h
    exact Iff.rfl
  · cases h
    exact Iff.rfl
  · cases h
  · exact target_stepAfterOperand h

theorem target_readAll (h : r.readAll ts = some r') :
    r'.target = .formula ↔ r.target = .formula := by
  induction ts generalizing r with
  | nil =>
      cases h
      exact Iff.rfl
  | cons t ts ih =>
      obtain ⟨r₁, hstep, hread⟩ := readAll_cons_eq_some_iff.mp h
      exact (ih hread).trans (target_step hstep)

/-! ## Where reading the tokens stops -/

/-- Reading from `start` accepts these lists of tokens, and no reading on the way
    is hopeless. -/
structure Recognizes {α : Type} (start : Reading) (result : Reading → Option α)
    (Accepted : List Token → Prop) : Prop where
  accepted_iff : ∀ ts, Accepted ts ↔ ∃ r a, start.readAll ts = some r ∧ result r = some a
  hopeful : ∀ ts r, start.readAll ts = some r →
    ∃ us r' a, r.readAll us = some r' ∧ result r' = some a

/-- Reading a formula recognizes the grammar of formulas. -/
theorem recognizes_formula :
    ofFormula.Recognizes formula? fun ts => ∃ p, Derives .formula ts p where
  accepted_iff ts := by
    simp only [← formula?_iff_derives]
    exact exists_comm
  hopeful ts r h := exists_readAll_formula? ((target_readAll h).mpr rfl)

/-- Reading a sequent recognizes the grammar of sequents. -/
theorem recognizes_sequent :
    ofSequent.Recognizes sequent? fun ts => ∃ s : Sequent, s.Derives ts where
  accepted_iff ts := by
    simp only [← sequent?_iff_derives]
    exact exists_comm
  hopeful ts r h := by
    refine exists_readAll_sequent? fun htarget => ?_
    cases (target_readAll h).mp htarget

variable {α : Type} {start : Reading} {result : Reading → Option α}
  {Accepted : List Token → Prop}

/-- The tokens that can be read are the viable ones. -/
theorem Recognizes.viable_iff (h : start.Recognizes result Accepted) :
    Viable Accepted ts ↔ ∃ r, start.readAll ts = some r := by
  constructor
  · rintro ⟨rest, hrest⟩
    obtain ⟨r, a, hread, -⟩ := (h.accepted_iff _).mp hrest
    rw [readAll, List.foldlM_append] at hread
    obtain ⟨r', hread', -⟩ := Option.bind_eq_some_iff.mp hread
    exact ⟨r', hread'⟩
  · rintro ⟨r, hread⟩
    obtain ⟨us, r', a, hread', ha⟩ := h.hopeful ts r hread
    exact ⟨us, (h.accepted_iff _).mpr ⟨r', a, (readAll_append hread).trans hread', ha⟩⟩

/-- A token that cannot be read is a dead end. -/
theorem Recognizes.deadEnd (h : start.Recognizes result Accepted)
    (hread : start.readAll ts = some r) (hstep : r.step t = none) : DeadEnd Accepted ts t := by
  refine ⟨h.viable_iff.mpr ⟨r, hread⟩, fun hviable => ?_⟩
  obtain ⟨r', hread'⟩ := h.viable_iff.mp hviable
  rw [readAll_append hread] at hread'
  obtain ⟨r₁, hstep', -⟩ := readAll_cons_eq_some_iff.mp hread'
  rw [hstep] at hstep'
  cases hstep'

/-- Feeding goes as far as the tokens can be read. -/
theorem feed_eq_cons {ls rest : List Lexeme} {l : Lexeme} (h : r.feed ls = (r', l :: rest)) :
    ∃ before, ls = before ++ l :: rest ∧ r.readAll (before.map Lexeme.token) = some r' ∧
      r'.step l.token = none := by
  induction ls generalizing r with
  | nil => cases h
  | cons l' ls ih =>
      rw [feed] at h
      split at h
      · rename_i r₁ hstep
        obtain ⟨before, rfl, hread, hnone⟩ := ih h
        exact ⟨l' :: before, rfl, (readAll_cons hstep).trans hread, hnone⟩
      · rename_i hstep
        cases h
        exact ⟨[], rfl, rfl, hstep⟩

/-- Reading stops at the dead end, or behind the last token. -/
theorem Recognizes.complete_eq_error (h : start.Recognizes result Accepted) {size : Nat}
    {ls : List Lexeme} {d : Diagnostic} (herror : start.complete result size ls = .error d) :
    (∃ before l after, ls = before ++ l :: after ∧
      DeadEnd Accepted (before.map Lexeme.token) l.token ∧ d.start = l.start ∧ d.stop = l.stop) ∨
    (Unfinished Accepted (ls.map Lexeme.token) ∧ d.start = size ∧ d.stop = size) := by
  rw [complete] at herror
  split at herror
  · rename_i r hfeed
    have hread := feed_eq_iff.mp hfeed
    split at herror
    · cases herror
    · -- all tokens have been read, so something is missing behind them
      rename_i hnone
      cases herror
      refine Or.inr ⟨(h.viable_iff.mpr ⟨r, hread⟩).unfinished fun haccepted => ?_, rfl, rfl⟩
      obtain ⟨r', a, hread', ha⟩ := (h.accepted_iff _).mp haccepted
      rw [hread] at hread'
      cases hread'
      rw [hnone] at ha
      cases ha
  · rename_i r rest hrest hfeed
    cases rest with
    | nil => exact (hrest rfl).elim
    | cons l after =>
        cases herror
        -- the token that was not read is the dead end
        obtain ⟨before, hls, hread, hstep⟩ := feed_eq_cons hfeed
        exact Or.inl ⟨before, l, after, hls, h.deadEnd hread hstep, rfl, rfl⟩

end Reading

/-! ## Where reading a text stops -/

/-- The diagnostic points at a part of the text, from one character's boundary to
    another, or at none of it between two characters. -/
structure Diagnostic.InRange (source : String) (d : Diagnostic) : Prop where
  start_le_stop : d.start ≤ d.stop
  stop_le : d.stop ≤ source.utf8ByteSize
  isValid_start : String.Pos.Raw.IsValid source ⟨d.start⟩
  isValid_stop : String.Pos.Raw.IsValid source ⟨d.stop⟩

/-- The diagnostic points at the dead end of the text, or behind the text if it is
    only unfinished.  If the text is cut into lexemes, the dead end is one of them;
    otherwise it is a character. -/
structure Diagnostic.Locates (Accepted : List Token → Prop) (source : String)
    (d : Diagnostic) : Prop where
  inRange : d.InRange source
  parsing : ∀ ls, Cut 0 source.toList ls →
    (∃ before l after, ls = before ++ l :: after ∧
      DeadEnd Accepted (before.map Lexeme.token) l.token ∧ d.start = l.start ∧ d.stop = l.stop) ∨
    (Unfinished Accepted (ls.map Lexeme.token) ∧
      d.start = source.utf8ByteSize ∧ d.stop = source.utf8ByteSize)
  lexing : ¬ Lexable source.toList →
    (∃ before c after, source.toList = before ++ c :: after ∧ DeadEnd Lexable before c ∧
      d.start = byteCount before ∧ d.stop = byteCount before + c.utf8Size) ∨
    (Unfinished Lexable source.toList ∧
      d.start = source.utf8ByteSize ∧ d.stop = source.utf8ByteSize)

section ReadText

variable {Accepted : List Token → Prop} {source : String} {d : Diagnostic}

/-- A delimited part of the source is a range of it. -/
theorem Delimits.inRange {start stop : Nat} (h : Delimits source.toList start stop)
    (hstart : d.start = start) (hstop : d.stop = stop) : d.InRange source := by
  subst hstart hstop
  refine ⟨h.le, ?_, h.isBoundary_start.isValid, h.isBoundary_stop.isValid⟩
  rw [← byteCount_toList]
  exact h.isBoundary_stop.le

theorem Diagnostic.inRange_end (hstart : d.start = source.utf8ByteSize)
    (hstop : d.stop = source.utf8ByteSize) : d.InRange source := by
  have hdelimits := delimits_append source.toList [] []
  rw [List.append_nil, List.append_nil] at hdelimits
  rw [← byteCount_toList] at hstart hstop
  exact hdelimits.inRange hstart hstop

/-- What stops the scanner is a character, or the end of the text. -/
theorem Diagnostic.locates_of_lex (h : lex source.toList = .error d) :
    d.Locates Accepted source := by
  have hcut : ∀ ls, ¬ Cut 0 source.toList ls := by
    intro ls hls
    rw [lex_eq_ok_iff.mpr hls] at h
    cases h
  rcases Scan.run_eq_error h with ⟨before, c, after, heq, hdead, hstart, hstop⟩ |
    ⟨hviable, hstart, hstop⟩
  · rw [Nat.zero_add] at hstart hstop
    rw [Scan.accepts_eq_lexable] at hdead
    have hdelimits := delimits_append before [c] after
    rw [byteCount_singleton, List.singleton_append, ← heq] at hdelimits
    refine ⟨hdelimits.inRange hstart hstop, fun ls hls => absurd hls (hcut ls), ?_⟩
    exact fun _ => Or.inl ⟨before, c, after, heq, hdead, hstart, hstop⟩
  · rw [Nat.zero_add, byteCount_toList] at hstart hstop
    rw [Scan.accepts_eq_lexable] at hviable
    refine ⟨inRange_end hstart hstop, fun ls hls => absurd hls (hcut ls), ?_⟩
    exact fun hrejected => Or.inr ⟨hviable.unfinished hrejected, hstart, hstop⟩

variable {α : Type} {start : Reading} {result : Reading → Option α}

/-- What stops the reading of lexemes is one of them, or the end of the text. -/
theorem Reading.Recognizes.locates (h : start.Recognizes result Accepted) {ls : List Lexeme}
    (hcut : Cut 0 source.toList ls)
    (herror : start.complete result source.utf8ByteSize ls = .error d) :
    d.Locates Accepted source := by
  have hparsing := h.complete_eq_error herror
  refine ⟨?_, ?_, fun hrejected => absurd ⟨ls, hcut⟩ hrejected⟩
  · rcases hparsing with ⟨before, l, after, heq, -, hstart, hstop⟩ | ⟨-, hstart, hstop⟩
    · have hmem : l ∈ ls := by
        rw [heq]
        exact List.mem_append_right _ List.mem_cons_self
      exact (hcut.delimits [] rfl l hmem).inRange hstart hstop
    · exact Diagnostic.inRange_end hstart hstop
  · intro ls' hcut'
    have hlex := lex_eq_ok_iff.mpr hcut
    rw [lex_eq_ok_iff.mpr hcut'] at hlex
    cases hlex
    exact hparsing

/-- A text that is not accepted gets exactly one complaint, which locates where it
    came to a dead end. -/
theorem Reading.Recognizes.readText_eq_error (h : start.Recognizes result Accepted)
    (hrejected : ∀ a, readText start result source ≠ .ok a) :
    ∃ d, readText start result source = .error ⟨source, [d]⟩ ∧ d.Locates Accepted source := by
  unfold readText at hrejected ⊢
  cases hlex : lex source.toList with
  | error d => exact ⟨d, rfl, Diagnostic.locates_of_lex hlex⟩
  | ok ls =>
      simp only [hlex] at hrejected ⊢
      cases herror : start.complete result source.utf8ByteSize ls with
      | ok a =>
          simp only [herror] at hrejected
          exact absurd rfl (hrejected a)
      | error d => exact ⟨d, rfl, h.locates (lex_eq_ok_iff.mp hlex) herror⟩

end ReadText

/-- **A diagnostic points at the first dead end.**  A text that is not read, as a
    formula or as a sequent, is answered by one diagnostic.  It points at the first
    token with which no tokens of the grammar go on, or behind the text if its tokens
    are the beginning of some; where the text is not even cut into tokens, it points at
    the first character with which no text that can be cut goes on, or behind the text
    if there is none.  In each case it points at whole characters of the text. -/
theorem parse_locates_dead_end (source : String) :
    ((∀ p, Formula.parse source ≠ .ok p) →
      ∃ d, Formula.parse source = .error ⟨source, [d]⟩ ∧
        d.Locates (fun ts => ∃ p, Derives .formula ts p) source) ∧
    ((∀ s, Sequent.parse source ≠ .ok s) →
      ∃ d, Sequent.parse source = .error ⟨source, [d]⟩ ∧
        d.Locates (fun ts => ∃ s : Sequent, s.Derives ts) source) :=
  ⟨fun h => Reading.recognizes_formula.readText_eq_error h,
    fun h => Reading.recognizes_sequent.readText_eq_error h⟩

/-- A text of three-byte and two-byte signs whose conjunction lacks an operand. -/
def halfConjunction : String := "¬A ∧ ; B"

theorem parse_locates_dead_end_halfConjunction :
    (∃ d, Formula.parse halfConjunction = .error ⟨halfConjunction, [d]⟩ ∧
      d.start = 8 ∧ d.stop = 9 ∧
      d.Locates (fun ts => ∃ p, Derives .formula ts p) halfConjunction) ∧
    ∃ d, Sequent.parse halfConjunction = .error ⟨halfConjunction, [d]⟩ ∧
      d.start = 8 ∧ d.stop = 9 ∧
      d.Locates (fun ts => ∃ s : Sequent, s.Derives ts) halfConjunction := by
  let found : Diagnostic :=
    ⟨.parsing, some ";",
      [.phrase "prefix operator", .phrase "atom", .phrase "parentheses"], 8, 9⟩
  have hformula : Formula.parse halfConjunction = .error ⟨halfConjunction, [found]⟩ := by
    decide +kernel
  have hsequent : Sequent.parse halfConjunction = .error ⟨halfConjunction, [found]⟩ := by
    decide +kernel
  constructor
  · obtain ⟨d, hd, hlocates⟩ :=
      (parse_locates_dead_end halfConjunction).1 (by simp [hformula])
    refine ⟨d, hd, ?_⟩
    rw [hformula] at hd
    cases hd
    exact ⟨rfl, rfl, hlocates⟩
  · obtain ⟨d, hd, hlocates⟩ :=
      (parse_locates_dead_end halfConjunction).2 (by simp [hsequent])
    refine ⟨d, hd, ?_⟩
    rw [hsequent] at hd
    cases hd
    exact ⟨rfl, rfl, hlocates⟩

end SequentCalculus
